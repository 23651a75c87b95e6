import CacheX.History

/-!
# Every entry leaves by one door

The cache counts its evictions and its expired removals. With three counts that it does not keep
(the keys that a `set` finds absent, the live entries that `erase` or a `set` with no ttl left
removes, and the sizes before each `clear`) the books are closed: what came in is what is there and
what has left.

* `Books`: what one call brings in and what leaves, each key with the door it leaves by.
* `books_step`: every call has such books.
* `conservation`: so has every sequence of calls.
-/

namespace CacheX

open InvariantLemmas

/-- How an entry leaves the cache. -/
inductive Door
  | evicted
  | expired
  | erased
  | cleared
deriving DecidableEq, Repr

/-- What a call adds to the counts that the cache does not keep: the key that a `set` finds absent
from the index, a live entry that `erase` or a `set` with a ttl of zero or less removes, and the
size that `clear` finds. -/
structure Tally where
  inserted : List Bytes := []
  erased : Nat := 0
  cleared : Nat := 0
deriving DecidableEq, Repr

def Cache.tally (c : Cache) (call : Time × Op) : Tally where
  inserted :=
    match stored call with
    | some e => if (c.index.lookup e.key).isNone then [e.key] else []
    | none => []
  erased :=
    match call.2 with
    | .erase k => if c.contains call.1 k = some true then 1 else 0
    | .setTtl k _ ttl => if ttl ≤ 0 ∧ c.contains call.1 k = some true then 1 else 0
    | _ => 0
  cleared :=
    match call.2 with
    | .clear => c.size
    | _ => 0

/-- A call with its reply and its tally. -/
def Cache.audit (c : Cache) (call : Time × Op) : Option (Cache × Reply × Tally) :=
  (c.step call).map fun p => (p.1, p.2, c.tally call)

/-- The tally of a call on the abstract cache. -/
def Lru.tally (s : Lru) (call : Time × Op) : Tally where
  inserted :=
    match stored call with
    | some e => if (s.find e.key).isNone then [e.key] else []
    | none => []
  erased :=
    match call.2 with
    | .erase k => if s.contains call.1 k then 1 else 0
    | .setTtl k _ ttl => if ttl ≤ 0 ∧ s.contains call.1 k then 1 else 0
    | _ => 0
  cleared :=
    match call.2 with
    | .clear => s.items.length
    | _ => 0

/-- How many left by a door. -/
def countDoor (door : Door) (left : List (Bytes × Door)) : Nat := (left.map Prod.snd).count door

/-- The keys before and the key that came in are the keys after and the keys that left, and the
counts say by which doors. -/
structure Books (s s' : Lru) (tally : Tally) (left : List (Bytes × Door)) : Prop where
  keys : (s.items.map Entry.key ++ tally.inserted).Perm
    (s'.items.map Entry.key ++ left.map Prod.fst)
  evictions : s'.evictions = s.evictions + countDoor .evicted left
  expiredRemovals : s'.expiredRemovals = s.expiredRemovals + countDoor .expired left
  erased : tally.erased = countDoor .erased left
  cleared : tally.cleared = countDoor .cleared left

namespace ConservationLemmas

variable {s : Lru}

theorem books_same (s : Lru) : Books s s {} [] :=
  ⟨List.Perm.refl _, rfl, rfl, rfl, rfl⟩

theorem perm_touch (h : s.WF) {e e' : Entry} (hf : s.find e.key = some e') :
    (s.items.map Entry.key).Perm ((s.touch e).items.map Entry.key) := by
  have hp := (Keyed.perm_without h.nodup hf).map Entry.key
  rw [List.map_cons, (Keyed.find_some hf).2] at hp
  exact hp

/-- An overwrite and a move to the front. -/
theorem books_touch (h : s.WF) {e e' : Entry} (hf : s.find e.key = some e') :
    Books s (s.touch e) {} [] := by
  refine ⟨?_, rfl, rfl, rfl, rfl⟩
  rw [List.map_nil, List.append_nil, List.append_nil]
  exact perm_touch h hf

/-- A new entry comes in, and if the cache is full one entry is evicted. -/
theorem books_insert (h : s.WF) {e : Entry} (hf : s.find e.key = none) :
    ∃ left, Books s (s.store e) { inserted := [e.key] } left := by
  have hperm : (s.items.map Entry.key ++ [e.key]).Perm ((e :: s.items).map Entry.key) :=
    List.perm_append_singleton _ _
  rcases Lru.store_cases h e with ⟨-, hitems, hev⟩ | ⟨-, hitems, hev⟩
  · refine ⟨[(((e :: s.items).getLast (List.cons_ne_nil _ _)).key, .evicted)], ?_, hev, rfl, rfl,
      rfl⟩
    have hlast := congrArg (List.map Entry.key)
      (List.dropLast_concat_getLast (List.cons_ne_nil e s.items))
    rw [List.map_append] at hlast
    rw [hitems]
    exact hperm.trans (List.Perm.of_eq hlast.symm)
  · refine ⟨[], ?_, hev, rfl, rfl, rfl⟩
    rw [hitems, Keyed.front, Keyed.without_eq_self (Keyed.find_none.mp hf), List.map_nil,
      List.append_nil]
    exact hperm

theorem books_store (h : s.WF) (e : Entry) :
    ∃ left, Books s (s.store e)
      { inserted := if (s.find e.key).isNone then [e.key] else [] } left := by
  cases hf : s.find e.key with
  | none => exact books_insert h hf
  | some e' =>
    rw [Lru.store_present h hf]
    exact ⟨[], books_touch h hf⟩

theorem perm_drop (h : s.WF) {k : Bytes} {e : Entry} (hf : s.find k = some e) (door : Door) :
    (s.items.map Entry.key ++ []).Perm
      ((s.drop k).items.map Entry.key ++ [(k, door)].map Prod.fst) := by
  have hp := (Keyed.perm_without h.nodup hf).map Entry.key
  rw [List.map_cons, (Keyed.find_some hf).2] at hp
  rw [List.append_nil]
  exact hp.trans (List.perm_append_singleton _ _).symm

theorem books_drop (h : s.WF) {k : Bytes} {e : Entry} (hf : s.find k = some e) :
    Books s (s.drop k) { erased := 1 } [(k, .erased)] :=
  ⟨perm_drop h hf _, rfl, rfl, rfl, rfl⟩

theorem books_expire (h : s.WF) {k : Bytes} {e : Entry} (hf : s.find k = some e) :
    Books s (s.expire k) {} [(k, .expired)] :=
  ⟨perm_drop h hf _, rfl, rfl, rfl, rfl⟩

theorem books_reclaim (h : s.WF) (now : Time) (k : Bytes) :
    ∃ left, Books s (s.reclaim now k) {} left := by
  cases hf : s.find k with
  | none =>
    rw [Lru.reclaim_absent hf]
    exact ⟨[], books_same s⟩
  | some e =>
    cases hx : isExpired now e with
    | true =>
      rw [Lru.reclaim_expired hf hx]
      exact ⟨_, books_expire h hf⟩
    | false =>
      rw [Lru.reclaim_live hf hx]
      exact ⟨[], books_same s⟩

theorem books_erase (h : s.WF) (now : Time) (k : Bytes) :
    ∃ left, Books s (s.erase now k).1 { erased := if s.contains now k then 1 else 0 } left := by
  cases hf : s.find k with
  | none =>
    rw [Lru.erase_absent hf, Lru.contains_absent hf]
    exact ⟨[], books_same s⟩
  | some e =>
    rw [Lru.contains_present hf]
    cases hx : isExpired now e with
    | true =>
      rw [Lru.erase_expired hf hx]
      exact ⟨_, books_expire h hf⟩
    | false =>
      rw [Lru.erase_live hf hx]
      exact ⟨_, books_drop h hf⟩

theorem books_get (h : s.WF) (now : Time) (k : Bytes) :
    ∃ left, Books s (s.get now k).1 {} left := by
  cases hf : s.find k with
  | none =>
    rw [Lru.get_absent hf]
    exact ⟨[], books_same s⟩
  | some e =>
    cases hx : isExpired now e with
    | true =>
      rw [Lru.get_expired hf hx]
      exact ⟨_, books_expire h hf⟩
    | false =>
      rw [Lru.get_live hf hx]
      obtain ⟨-, rfl⟩ := Keyed.find_some hf
      exact ⟨[], books_touch h hf⟩

theorem books_clear (s : Lru) :
    Books s { s with items := [] } { cleared := s.items.length }
      (s.items.map fun e => (e.key, .cleared)) := by
  have hcount : ∀ door, countDoor door (s.items.map fun e => (e.key, Door.cleared))
      = if door = .cleared then s.items.length else 0 := by
    intro door
    unfold countDoor
    rw [List.map_map]
    show (s.items.map fun _ => Door.cleared).count door = _
    rw [List.map_const', List.count_replicate]
    by_cases hd : door = .cleared
    · rw [if_pos hd, if_pos (by rw [hd]; rfl)]
    · rw [if_neg hd, if_neg (by simpa using Ne.symm hd)]
  refine ⟨?_, ?_, ?_, ?_, ?_⟩
  · rw [List.append_nil, List.map_map]
    exact List.Perm.refl _
  · rw [hcount]
    rfl
  · rw [hcount]
    rfl
  · rw [hcount]
    rfl
  · rw [hcount]
    rfl

/-- The tally of a call that stores an entry. -/
theorem tally_stored {call : Time × Op} {e : Entry} (h : stored call = some e) :
    s.tally call = { inserted := if (s.find e.key).isNone then [e.key] else [] } := by
  obtain ⟨now, op⟩ := call
  cases op with
  | set k v =>
    cases h
    rfl
  | setTtl k v ttl =>
    by_cases hpos : ttl ≤ 0
    · simp only [stored, if_pos hpos] at h
      cases h
    · simp only [Lru.tally, h, hpos, false_and, if_false]
  | _ => cases h

end ConservationLemmas

open ConservationLemmas

/-- Every call has its books: each entry that leaves does so by one door. -/
theorem books_step {s : Lru} (h : s.WF) (call : Time × Op) :
    ∃ left, Books s (s.step call).1 (s.tally call) left := by
  cases hst : stored call with
  | some e =>
    rw [Lru.step_stored hst, tally_stored hst]
    exact books_store h e
  | none =>
    obtain ⟨now, op⟩ := call
    cases op with
    | set k v => cases hst
    | setTtl k v ttl =>
      have hpos : ttl ≤ 0 := by
        by_contra hpos
        simp only [stored, if_neg hpos] at hst
        cases hst
      have htally : s.tally (now, .setTtl k v ttl)
          = { erased := if s.contains now k then 1 else 0 } := by
        simp only [Lru.tally, hst, hpos, true_and]
      have hstep : (s.step (now, .setTtl k v ttl)).1 = (s.erase now k).1 := by
        simp only [Lru.step, Lru.setTtl, if_pos hpos]
      rw [htally, hstep]
      exact books_erase h now k
    | get k => exact books_get h now k
    | getInto k out =>
      rw [Lru.step_getInto]
      exact books_get h now k
    | ttl k =>
      show ∃ left, Books s (s.ttl now k).1 {} left
      rw [Lru.ttl_reclaims]
      exact books_reclaim h now k
    | erase k => exact books_erase h now k
    | contains k => exact ⟨[], books_same s⟩
    | clear => exact ⟨_, books_clear s⟩
    | exportEntries => exact ⟨[], books_same s⟩

/-! ## Runs -/

/-- The tallies of a run. -/
def Tally.total (tallies : List Tally) : Tally where
  inserted := tallies.flatMap Tally.inserted
  erased := (tallies.map Tally.erased).sum
  cleared := (tallies.map Tally.cleared).sum

namespace ConservationLemmas

theorem countDoor_append (door : Door) (left left' : List (Bytes × Door)) :
    countDoor door (left ++ left') = countDoor door left + countDoor door left' := by
  unfold countDoor
  rw [List.map_append, List.count_append]

/-- Each key that has left has done so by one of the doors. -/
theorem length_eq_doors (left : List (Bytes × Door)) :
    left.length = countDoor .evicted left + countDoor .expired left + countDoor .erased left
      + countDoor .cleared left := by
  induction left with
  | nil => rfl
  | cons x left ih =>
    have hcons : ∀ door, countDoor door (x :: left)
        = countDoor door left + if x.2 = door then 1 else 0 := fun door => by
      unfold countDoor
      rw [List.map_cons, List.count_cons]
      simp only [beq_iff_eq]
    rw [List.length_cons, ih, hcons, hcons, hcons, hcons]
    cases x.2 <;> simp <;> omega

/-- The books of a call and of the calls after it. -/
theorem books_cons {s s' s'' : Lru} {tally : Tally} {tallies : List Tally}
    {left left' : List (Bytes × Door)} (h : Books s s' tally left)
    (h' : Books s' s'' (Tally.total tallies) left') :
    Books s s'' (Tally.total (tally :: tallies)) (left' ++ left) := by
  refine ⟨?_, ?_, ?_, ?_, ?_⟩
  · have hbefore := h.keys.append_right (Tally.total tallies).inserted
    have hswap :
        (s'.items.map Entry.key ++ left.map Prod.fst ++ (Tally.total tallies).inserted).Perm
          (s'.items.map Entry.key ++ (Tally.total tallies).inserted ++ left.map Prod.fst) := by
      rw [List.append_assoc, List.append_assoc]
      exact List.perm_append_comm.append_left _
    have hafter := h'.keys.append_right (left.map Prod.fst)
    rw [List.map_append, ← List.append_assoc]
    refine List.Perm.trans (List.Perm.of_eq ?_) ((hbefore.trans hswap).trans hafter)
    rw [List.append_assoc]
    rfl
  · rw [h'.evictions, h.evictions, countDoor_append, Nat.add_assoc, Nat.add_comm (countDoor _ left)]
  · rw [h'.expiredRemovals, h.expiredRemovals, countDoor_append, Nat.add_assoc,
      Nat.add_comm (countDoor _ left)]
  · rw [countDoor_append, ← h.erased, ← h'.erased]
    exact Nat.add_comm _ _
  · rw [countDoor_append, ← h.cleared, ← h'.cleared]
    exact Nat.add_comm _ _

theorem tally_abs {c : Cache} (h : c.WF) (call : Time × Op) : c.tally call = c.abs.tally call := by
  have hnone : ∀ k, (c.index.lookup k).isNone = (c.abs.find k).isNone := by
    intro k
    rcases lookup_cases h k with ⟨hk, hf⟩ | ⟨node, e, hk, -, -, hf⟩
    · rw [hk, hf]
      rfl
    · rw [hk, hf]
      rfl
  have hcontains : ∀ now k, (c.contains now k = some true) = (c.abs.contains now k = true) := by
    intro now k
    rw [contains_spec h]
    exact propext ⟨fun he => Option.some.inj he, fun he => congrArg some he⟩
  have hsize : c.size = c.abs.items.length := linked_size h.linked
  unfold Cache.tally Lru.tally
  simp only [hnone, hcontains, hsize]

theorem run_books {c : Cache} (h : c.WF) (calls : List (Time × Op)) :
    ∃ c' outs left, Machine.run Cache.audit c calls = some (c', outs) ∧
      c.run calls = some (c', outs.map Prod.fst) ∧ c'.WF ∧
      Books c.abs c'.abs (Tally.total (outs.map Prod.snd)) left := by
  induction calls generalizing c with
  | nil => exact ⟨c, [], [], rfl, rfl, h, books_same c.abs⟩
  | cons call calls ih =>
    obtain ⟨c₁, hstep, hwf, habs⟩ := step_refines h call
    obtain ⟨left, hbooks⟩ := books_step (abs_wf h) call
    obtain ⟨c', outs, left', haudit, hrun, hwf', hbooks'⟩ := ih hwf
    rw [← habs, ← tally_abs h] at hbooks
    have hone : c.audit call = some (c₁, (c.abs.step call).2, c.tally call) := by
      rw [Cache.audit, hstep]
      rfl
    exact ⟨c', _, _, Machine.run_cons_some hone haudit, Machine.run_cons_some hstep hrun, hwf',
      books_cons hbooks hbooks'⟩

end ConservationLemmas

/-- **Conservation.** Whatever the capacity, the calls and their clock readings, the number of
`set`s that found their key absent is the size, the evictions, the expired removals, the live
entries that were erased and the sizes before the `clear`s. Each of these insertions is a resident
key or one that has left by one door. A `set` of a resident key, also one that has run out, changes
no count. -/
theorem conservation (capacity : Option Nat) (calls : List (Time × Op)) :
    ∃ c outs left, Machine.run Cache.audit (Cache.new capacity) calls = some (c, outs) ∧
      (Cache.new capacity).run calls = some (c, outs.map Prod.fst) ∧
      (Tally.total (outs.map Prod.snd)).inserted.length
        = c.size + c.evictions + c.expiredRemovals + (Tally.total (outs.map Prod.snd)).erased
          + (Tally.total (outs.map Prod.snd)).cleared ∧
      (Tally.total (outs.map Prod.snd)).inserted.Perm (c.keysByRecency ++ left.map Prod.fst) ∧
      countDoor .evicted left = c.evictions ∧ countDoor .expired left = c.expiredRemovals ∧
      countDoor .erased left = (Tally.total (outs.map Prod.snd)).erased ∧
      countDoor .cleared left = (Tally.total (outs.map Prod.snd)).cleared ∧
      ∀ call e, stored call = some e → (c.index.lookup e.key).isSome = true →
        ∃ c' r, c.step call = some (c', r) ∧ c.tally call = {} ∧ c'.size = c.size ∧
          c'.evictions = c.evictions ∧ c'.expiredRemovals = c.expiredRemovals := by
  obtain ⟨c, outs, left, haudit, hrun, hwf, hbooks⟩ := run_books (wf_new capacity) calls
  have hev : c.evictions = countDoor .evicted left := hbooks.evictions.trans (Nat.zero_add _)
  have hexp : c.expiredRemovals = countDoor .expired left :=
    hbooks.expiredRemovals.trans (Nat.zero_add _)
  have hkeys : (Tally.total (outs.map Prod.snd)).inserted.Perm
      (c.keysByRecency ++ left.map Prod.fst) := hbooks.keys
  refine ⟨c, outs, left, haudit, hrun, ?_, hkeys, hev.symm, hexp.symm, hbooks.erased.symm,
    hbooks.cleared.symm, fun call e hst hk => ?_⟩
  · have hlen := hkeys.length_eq
    have hsize : c.size = c.keysByRecency.length :=
      (linked_size hwf.linked).trans (List.length_map _).symm
    rw [List.length_append, List.length_map, length_eq_doors] at hlen
    rw [hlen, hsize, hev, hexp, hbooks.erased, hbooks.cleared]
    omega
  · obtain ⟨c', hstep, hwf', habs⟩ := step_refines hwf call
    rcases lookup_cases hwf e.key with ⟨hnone, -⟩ | ⟨node, e', -, -, -, hf⟩
    · rw [hnone] at hk
      cases hk
    · rw [Lru.step_stored hst, Lru.store_present (abs_wf hwf) hf] at habs
      refine ⟨c', _, hstep, ?_, ?_, congrArg Lru.evictions habs, congrArg Lru.expiredRemovals habs⟩
      · rw [tally_abs hwf, tally_stored hst, hf]
        rfl
      · have hlen := congrArg (fun s : Lru => (s.items.map Entry.key).length) habs
        rw [← (perm_touch (abs_wf hwf) hf).length_eq, List.length_map, List.length_map] at hlen
        exact (linked_size hwf'.linked).trans (hlen.trans (linked_size hwf.linked).symm)

end CacheX
