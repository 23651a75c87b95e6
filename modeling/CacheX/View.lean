import CacheX.History

/-!
# What a key looks like from outside

A key is bound to a value with an optional deadline, or to nothing; it is bound to nothing from the
instant its deadline is reached. `cellStep` is what a call on a key does to its binding and what it
returns, written without any cache. `Lru.view` is the binding of a key in the abstract cache.

* `Lru.step_reply`: every reply of the cache is the reply of `cellStep` at the view of the key.
* `Lru.step_view`: in an unbounded cache the call changes the view of its key as `cellStep` does,
  and no other view.
* `Lru.step_find`: in any cache an entry found after a call is the one the call stored, or was
  there before and the call did not overwrite or delete it.
-/

namespace CacheX

/-- A value with an optional deadline. -/
abbrev Timed := Bytes × Option Time

def Entry.timed (e : Entry) : Timed := (e.value, e.expiresAt)

/-- A binding is gone from the instant its deadline is reached. -/
def alive (now : Time) (p : Timed) : Bool :=
  match p.2 with
  | none => true
  | some deadline => decide (now < deadline)

/-- The time-to-live of a binding. -/
def ttlInfo (now : Time) : Option Timed → TtlInfo
  | none => ⟨.missing, 0⟩
  | some (_, none) => ⟨.persistent, 0⟩
  | some (_, some deadline) => ⟨.expiring, toMillis (deadline - now)⟩

/-- What a call on a key does to the live binding of the key, and what it returns. -/
def cellStep (now : Time) (op : Op) (cell : Option Timed) : Option Timed × Reply :=
  match op with
  | .set _ value => (some (value, none), .unit)
  | .setTtl _ value ttl =>
    (if ttl ≤ 0 then none else some (value, some (now + ttl * nanosPerMilli)), .unit)
  | .get _ => (cell, .value (cell.map Prod.fst))
  | .getInto _ out =>
    (cell, match cell with
      | none => .into false out
      | some p => .into true p.1)
  | .ttl _ => (cell, .ttl (ttlInfo now cell))
  | .erase _ => (none, .bool cell.isSome)
  | .contains _ => (cell, .bool cell.isSome)
  | .clear => (none, .unit)
  | .exportEntries => (cell, .unit)

theorem isExpired_eq (now : Time) (e : Entry) : isExpired now e = !alive now e.timed := by
  unfold isExpired alive Entry.timed
  cases e.expiresAt with
  | none => rfl
  | some d =>
    rw [Bool.eq_iff_iff]
    simp

/-- A binding that a call leaves behind is live. -/
theorem cellStep_alive {now : Time} {op : Op} {cell : Option Timed}
    (h : ∀ p ∈ cell, alive now p = true) :
    ∀ p ∈ (cellStep now op cell).1, alive now p = true := by
  cases op with
  | set k v =>
    intro p hp
    cases hp
    rfl
  | setTtl k v ttl =>
    intro p hp
    simp only [cellStep] at hp
    split at hp
    · cases hp
    · next hpos =>
      cases hp
      have hlater : 0 < ttl * nanosPerMilli := Int.mul_pos (Int.not_le.mp hpos) (by decide)
      exact decide_eq_true (Int.lt_add_of_pos_right now hlater)
  | get k => exact h
  | getInto k out => exact h
  | ttl k => exact h
  | erase k => exact fun p hp => by cases hp
  | contains k => exact h
  | clear => exact fun p hp => by cases hp
  | exportEntries => exact h

namespace Lru

/-- The binding of a key at the clock reading `now`. -/
def view (s : Lru) (now : Time) (key : Bytes) : Option Timed :=
  ((s.find key).map Entry.timed).filter (alive now)

theorem view_absent {s : Lru} {now : Time} {k : Bytes} (h : s.find k = none) :
    s.view now k = none := by
  simp only [view, h, Option.map_none, Option.filter_none]

theorem view_live {s : Lru} {now : Time} {k : Bytes} {e : Entry} (h : s.find k = some e)
    (hx : isExpired now e = false) : s.view now k = some e.timed := by
  rw [isExpired_eq, Bool.not_eq_false'] at hx
  simp only [view, h, Option.map_some, Option.filter_some, hx, if_true]

theorem view_expired {s : Lru} {now : Time} {k : Bytes} {e : Entry} (h : s.find k = some e)
    (hx : isExpired now e = true) : s.view now k = none := by
  rw [isExpired_eq, Bool.not_eq_true'] at hx
  simp [view, h, hx]

/-- The three cases of a lookup and what the key looks like in each. -/
theorem view_cases (s : Lru) (now : Time) (k : Bytes) :
    (s.find k = none ∧ s.view now k = none) ∨
    (∃ e, s.find k = some e ∧ isExpired now e = true ∧ s.view now k = none) ∨
    ∃ e, s.find k = some e ∧ isExpired now e = false ∧ s.view now k = some e.timed := by
  cases hf : s.find k with
  | none => exact Or.inl ⟨rfl, view_absent hf⟩
  | some e =>
    cases hx : isExpired now e with
    | true => exact Or.inr (Or.inl ⟨e, rfl, hx, view_expired hf hx⟩)
    | false => exact Or.inr (Or.inr ⟨e, rfl, hx, view_live hf hx⟩)

theorem ttlOf_eq (now : Time) (e : Entry) : ttlOf now e = ttlInfo now (some e.timed) := by
  unfold ttlOf Entry.timed
  cases e.expiresAt with
  | none => rfl
  | some d => rfl

/-! ## Replies -/

theorem get_reply (s : Lru) (now : Time) (k : Bytes) :
    (s.get now k).2 = (s.view now k).map Prod.fst := by
  rcases s.view_cases now k with ⟨hf, hv⟩ | ⟨e, hf, hx, hv⟩ | ⟨e, hf, hx, hv⟩
  · rw [get_absent hf, hv]
    rfl
  · rw [get_expired hf hx, hv]
    rfl
  · rw [get_live hf hx, hv]
    rfl

theorem ttl_reply (s : Lru) (now : Time) (k : Bytes) :
    (s.ttl now k).2 = ttlInfo now (s.view now k) := by
  rcases s.view_cases now k with ⟨hf, hv⟩ | ⟨e, hf, hx, hv⟩ | ⟨e, hf, hx, hv⟩
  · rw [ttl_absent hf, hv]
    rfl
  · rw [ttl_expired hf hx, hv]
    rfl
  · rw [ttl_live hf hx, hv, ttlOf_eq]

theorem erase_reply (s : Lru) (now : Time) (k : Bytes) :
    (s.erase now k).2 = (s.view now k).isSome := by
  rcases s.view_cases now k with ⟨hf, hv⟩ | ⟨e, hf, hx, hv⟩ | ⟨e, hf, hx, hv⟩
  · rw [erase_absent hf, hv]
    rfl
  · rw [erase_expired hf hx, hv]
    rfl
  · rw [erase_live hf hx, hv]
    rfl

theorem contains_reply (s : Lru) (now : Time) (k : Bytes) :
    s.contains now k = (s.view now k).isSome := by
  rcases s.view_cases now k with ⟨hf, hv⟩ | ⟨e, hf, hx, hv⟩ | ⟨e, hf, hx, hv⟩
  · rw [contains_absent hf, hv]
    rfl
  · rw [contains_present hf, hx, hv]
    rfl
  · rw [contains_present hf, hx, hv]
    rfl

/-- A reply depends on the view of the key only. -/
theorem step_reply (s : Lru) {now : Time} {op : Op} {k : Bytes} (hk : op.key = some k) :
    (s.step (now, op)).2 = (cellStep now op (s.view now k)).2 := by
  cases op with
  | set k' v => rfl
  | setTtl k' v ttl => rfl
  | get k' =>
    cases hk
    simp only [step, cellStep, get_reply]
  | getInto k' out =>
    cases hk
    simp only [step, cellStep, get_reply]
    cases s.view now k with
    | none => rfl
    | some p => rfl
  | ttl k' =>
    cases hk
    simp only [step, cellStep, ttl_reply]
  | erase k' =>
    cases hk
    simp only [step, cellStep, erase_reply]
  | contains k' =>
    cases hk
    simp only [step, cellStep, contains_reply]
  | clear => cases hk
  | exportEntries => cases hk

/-! ## Lookups after a call -/

theorem find_touch_ne {s : Lru} {e : Entry} {k : Bytes} (h : k ≠ e.key) :
    (s.touch e).find k = s.find k :=
  (Keyed.find_cons_ne (Ne.symm h) _).trans (Keyed.find_without_ne h _)

theorem find_store_some {s : Lru} (h : s.WF) {e e' : Entry} {k : Bytes}
    (hf : (s.store e).find k = some e') : (s.touch e).find k = some e' :=
  Keyed.find_sublist (Keyed.nodupBy_front h.nodup) (Keyed.atMost_sublist _ _) hf

theorem store_of_unbounded {s : Lru} (hcap : s.capacity = none) (e : Entry) :
    s.store e = s.touch e :=
  cut_of_fits fun n hn => by
    rw [show (s.touch e).capacity = s.capacity from rfl, hcap] at hn
    cases hn

theorem Forgets.find_ne {s s' : Lru} {k k' : Bytes} (h : Forgets s s' k) (hne : k' ≠ k) :
    s'.find k' = s.find k' := by
  unfold find
  rcases h.1 with he | he
  · rw [he]
  · rw [he]
    exact Keyed.find_without_ne hne _

theorem Forgets.find_some {s s' : Lru} {k k' : Bytes} {e : Entry} (h : Forgets s s' k)
    (hf : s'.find k' = some e) : s.find k' = some e := by
  by_cases hne : k' = k
  · subst hne
    unfold find at hf ⊢
    rcases h.1 with he | he
    · rwa [he] at hf
    · rw [he, Keyed.find_without_self] at hf
      cases hf
  · rwa [h.find_ne hne] at hf

theorem erase_find (s : Lru) (now : Time) (k : Bytes) : (s.erase now k).1.find k = none := by
  rw [find, erase_items]
  exact Keyed.find_without_self k s.items

end Lru

/-- The calls that write or delete their key whatever it is bound to. -/
def mutates : Op → Bool
  | .set _ _ => true
  | .setTtl _ _ _ => true
  | .erase _ => true
  | _ => false

namespace Lru

/-- The two shapes of a call on a key: it stores an entry of the key, a new one or the one it found;
or it forgets at most the key, and certainly if it deletes. -/
theorem step_shape {s : Lru} (h : s.WF) {now : Time} {op : Op} {k : Bytes} (hk : op.key = some k) :
    (∃ e, e.key = k ∧ (s.step (now, op)).1 = s.store e ∧
      (stored (now, op) = some e ∨ (s.find k = some e ∧ mutates op = false))) ∨
    (Forgets s (s.step (now, op)).1 k ∧
      (mutates op = true → (s.step (now, op)).1.find k = none)) := by
  cases op with
  | set k' v =>
    cases hk
    exact Or.inl ⟨_, rfl, rfl, Or.inl rfl⟩
  | setTtl k' v ttl =>
    cases hk
    by_cases hpos : ttl ≤ 0
    · have hstep : (s.step (now, .setTtl k v ttl)).1 = (s.erase now k).1 := by
        simp only [step, setTtl, if_pos hpos]
      rw [hstep]
      exact Or.inr ⟨erase_forgets s now k, fun _ => erase_find s now k⟩
    · exact Or.inl ⟨⟨k, v, some (now + ttl * nanosPerMilli)⟩, rfl,
        by simp only [step, setTtl, if_neg hpos], Or.inl (if_neg hpos)⟩
  | get k' =>
    cases hk
    rcases get_cases h now k with ⟨e, he, hf, hs, -, -⟩ | ⟨-, hforget⟩
    · exact Or.inl ⟨e, he, hs, Or.inr ⟨hf, rfl⟩⟩
    · exact Or.inr ⟨hforget, fun hm => by cases hm⟩
  | getInto k' out =>
    cases hk
    rw [step_getInto]
    rcases get_cases h now k with ⟨e, he, hf, hs, -, -⟩ | ⟨-, hforget⟩
    · exact Or.inl ⟨e, he, hs, Or.inr ⟨hf, rfl⟩⟩
    · exact Or.inr ⟨hforget, fun hm => by cases hm⟩
  | ttl k' =>
    cases hk
    exact Or.inr ⟨ttl_forgets s now k, fun hm => by cases hm⟩
  | erase k' =>
    cases hk
    exact Or.inr ⟨erase_forgets s now k, fun _ => erase_find s now k⟩
  | contains k' =>
    cases hk
    exact Or.inr ⟨⟨Or.inl rfl, rfl⟩, fun hm => by cases hm⟩
  | clear => cases hk
  | exportEntries => cases hk

/-- An entry found after a call is the one the call stored, or was there before and the call did
not write or delete its key. -/
theorem step_find {s : Lru} (h : s.WF) {now : Time} {op : Op} {k k' : Bytes} {e : Entry}
    (hk : op.key = some k) (hf : (s.step (now, op)).1.find k' = some e) :
    stored (now, op) = some e ∨
      (s.find k' = some e ∧ (k' = k → mutates op = false)) := by
  rcases step_shape h hk with ⟨e₀, rfl, hs, horigin⟩ | ⟨hforget, hdel⟩
  · rw [hs] at hf
    have hfront := find_store_some h hf
    by_cases hne : k' = e₀.key
    · subst hne
      have he : e₀ = e := Option.some.inj ((Keyed.find_cons_self e₀ _).symm.trans hfront)
      subst he
      exact horigin.imp id fun ho => ⟨ho.1, fun _ => ho.2⟩
    · exact Or.inr ⟨(find_touch_ne hne).symm.trans hfront, fun he => absurd he hne⟩
  · refine Or.inr ⟨hforget.find_some hf, fun he => ?_⟩
    subst he
    cases hm : mutates op with
    | false => rfl
    | true =>
      rw [hdel hm] at hf
      cases hf

/-- In an unbounded cache a call does not touch the lookup of another key. -/
theorem step_find_ne {s : Lru} (h : s.WF) (hcap : s.capacity = none) {now : Time} {op : Op}
    {k k' : Bytes} (hk : op.key = some k) (hne : k' ≠ k) :
    (s.step (now, op)).1.find k' = s.find k' := by
  rcases step_shape h hk with ⟨e, rfl, hs, -⟩ | ⟨hforget, -⟩
  · rw [hs, store_of_unbounded hcap, find_touch_ne hne]
  · exact hforget.find_ne hne

/-- A lookup leaves the view of its key as it is, whether it hits, reclaims or misses. -/
theorem get_view (s : Lru) (now : Time) (k : Bytes) :
    (s.get now k).1.view now k = s.view now k := by
  rcases s.view_cases now k with ⟨hf, hv⟩ | ⟨e, hf, hx, hv⟩ | ⟨e, hf, hx, hv⟩
  · rw [get_absent hf]
  · rw [get_expired hf hx, hv, view_absent (find_expire s k)]
  · obtain ⟨-, rfl⟩ := Keyed.find_some hf
    rw [get_live hf hx, hv]
    exact view_live (Keyed.find_cons_self e _) hx

theorem ttl_view (s : Lru) (now : Time) (k : Bytes) :
    (s.ttl now k).1.view now k = s.view now k := by
  rcases s.view_cases now k with ⟨hf, hv⟩ | ⟨e, hf, hx, hv⟩ | ⟨e, hf, hx, hv⟩
  · rw [ttl_absent hf]
  · rw [ttl_expired hf hx, hv, view_absent (find_expire s k)]
  · rw [ttl_live hf hx]

theorem store_view {s : Lru} (hcap : s.capacity = none) {now : Time} {e : Entry}
    (hlive : alive now e.timed = true) : (s.store e).view now e.key = some e.timed := by
  rw [store_of_unbounded hcap]
  exact view_live (Keyed.find_cons_self e _) (by rw [isExpired_eq, hlive]; rfl)

/-- In an unbounded cache a call changes the view of its key as it changes a single binding. -/
theorem step_view {s : Lru} (hcap : s.capacity = none) {now : Time} {op : Op} {k : Bytes}
    (hk : op.key = some k) :
    (s.step (now, op)).1.view now k = (cellStep now op (s.view now k)).1 := by
  have hlive : ∀ p ∈ (cellStep now op none).1, alive now p = true :=
    cellStep_alive fun p hp => by cases hp
  cases op with
  | set k' v =>
    cases hk
    exact store_view hcap rfl
  | setTtl k' v ttl =>
    cases hk
    simp only [step, setTtl, cellStep] at hlive ⊢
    split
    · exact view_absent (erase_find s now k)
    · next hpos =>
      rw [if_neg hpos] at hlive
      exact store_view hcap (hlive _ rfl)
  | get k' =>
    cases hk
    exact s.get_view now k
  | getInto k' out =>
    cases hk
    rw [step_getInto]
    exact s.get_view now k
  | ttl k' =>
    cases hk
    exact s.ttl_view now k
  | erase k' =>
    cases hk
    exact view_absent (erase_find s now k)
  | contains k' =>
    cases hk
    rfl
  | clear => cases hk
  | exportEntries => cases hk

end Lru

end CacheX
