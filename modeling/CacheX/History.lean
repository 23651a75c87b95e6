import CacheX.Invariant

/-!
# The recency list is the history

The order of the recency list against a definition of LRU that only looks at the calls made so far
and their replies. A call is a *use* of a key when it sets the key (without a ttl or with a
positive one) or is a `get` or `get_into` that hits it. `lastUse k` is the position of the last
use of `k`.

* `step_cases`: a call either puts one entry in front, and is a use of exactly that key, or is no
  use of any key and only drops entries.
* `ordered_step`: so the order by last use is kept by every call.
* `exact_lru`: after any calls the recency list holds the resident keys by decreasing last use, and
  the next call evicts only if it inserts a new key into a full cache, and then exactly the key with
  the smallest last use.
-/

namespace CacheX

/-- Whether a call with its reply is a use of the key `k`. -/
def usesKey (k : Bytes) : Op × Reply → Bool
  | (.set k' _, _) => decide (k' = k)
  | (.setTtl k' _ ttl, _) => decide (k' = k) && decide (0 < ttl)
  | (.get k', .value (some _)) => decide (k' = k)
  | (.getInto k' _, .into true _) => decide (k' = k)
  | _ => false

/-- The calls made so far with their replies, oldest first. -/
abbrev Trace := List (Op × Reply)

/-- The position of the last use of `k`. -/
def lastUse (k : Bytes) (trace : Trace) : Option Nat :=
  ((trace.zipIdx.filter fun p => usesKey k p.1).getLast?).map fun p => p.2

/-- Both keys have been used, and the last use of `a` comes before that of `b`. -/
def UsedBefore (trace : Trace) (a b : Bytes) : Prop :=
  ∃ i j, lastUse a trace = some i ∧ lastUse b trace = some j ∧ i < j

open InvariantLemmas

namespace HistoryLemmas

theorem lastUse_snoc (k : Bytes) (trace : Trace) (x : Op × Reply) :
    lastUse k (trace ++ [x]) = if usesKey k x then some trace.length else lastUse k trace := by
  unfold lastUse
  rw [List.zipIdx_append, List.filter_append]
  cases hx : usesKey k x with
  | true => simp [hx]
  | false => simp [hx]

theorem key_of_usesKey {k : Bytes} {x : Op × Reply} (h : usesKey k x = true) :
    x.1.key = some k := by
  unfold usesKey at h
  split at h
  · exact congrArg some (of_decide_eq_true h)
  · simp only [Bool.and_eq_true, decide_eq_true_eq] at h
    exact congrArg some h.1
  · exact congrArg some (of_decide_eq_true h)
  · exact congrArg some (of_decide_eq_true h)
  · cases h

theorem lastUse_lt {k : Bytes} {trace : Trace} {i : Nat} (h : lastUse k trace = some i) :
    i < trace.length := by
  obtain ⟨p, hp, rfl⟩ := Option.map_eq_some_iff.mp h
  have hmem := (List.mem_filter.mp (List.mem_of_getLast? hp)).1
  obtain ⟨-, hlt, -⟩ := List.mem_zipIdx hmem
  simpa using hlt

end HistoryLemmas

open HistoryLemmas

/-! ## One call -/

namespace Lru

/-- A store into a full cache of a key it does not hold evicts one entry, the last of the list. Any
other store evicts nothing. -/
theorem store_cases {s : Lru} (h : s.WF) (e : Entry) :
    ((∃ n, s.capacity = some n ∧ s.items.length = n ∧ s.find e.key = none) ∧
      (s.store e).items = (e :: s.items).dropLast ∧ (s.store e).evictions = s.evictions + 1) ∨
    (¬ (∃ n, s.capacity = some n ∧ s.items.length = n ∧ s.find e.key = none) ∧
      (s.store e).items = Keyed.front Entry.key e s.items ∧
      (s.store e).evictions = s.evictions) := by
  by_cases hfull : ∃ n, s.capacity = some n ∧ s.items.length = n ∧ s.find e.key = none
  · refine Or.inl ⟨hfull, ?_⟩
    obtain ⟨n, hcap, hlen, hf⟩ := hfull
    have hfront : Keyed.front Entry.key e s.items = e :: s.items := by
      rw [Keyed.front, Keyed.without_eq_self (Keyed.find_none.mp hf)]
    have htake : Keyed.atMost s.capacity (e :: s.items) = (e :: s.items).dropLast := by
      rw [hcap, List.dropLast_eq_take, List.length_cons, hlen]
      rfl
    simp only [store, touch, cut, hfront, htake, List.length_dropLast, List.length_cons, true_and]
    omega
  · refine Or.inr ⟨hfull, ?_⟩
    have hfits : ∀ n ∈ (s.touch e).capacity, (s.touch e).items.length ≤ n := by
      intro n hn
      have hle := h.bounded n hn
      cases hf : s.find e.key with
      | none =>
        show (Keyed.front Entry.key e s.items).length ≤ n
        rw [Keyed.front, List.length_cons]
        have hne : s.items.length ≠ n := fun he => hfull ⟨n, hn, he, hf⟩
        have hsub : (Keyed.without Entry.key e.key s.items).length ≤ s.items.length :=
          (Keyed.without_sublist e.key s.items).length_le
        omega
      | some e' => exact touch_fits h hf n hn
    rw [store, cut_of_fits hfits]
    exact ⟨rfl, rfl⟩

end Lru

/-- The entry that a call stores: a `set` without a ttl or with a positive one. -/
def stored : Time × Op → Option Entry
  | (_, .set key value) => some ⟨key, value, none⟩
  | (now, .setTtl key value ttl) =>
    if ttl ≤ 0 then none else some ⟨key, value, some (now + ttl * nanosPerMilli)⟩
  | _ => none

/-- The calls that look without using: `contains`, `ttl`, `erase`, `export_entries`, and a `get` or
`get_into` that misses. -/
def passive : Op × Reply → Bool
  | (.contains _, _) => true
  | (.ttl _, _) => true
  | (.erase _, _) => true
  | (.exportEntries, _) => true
  | (.get _, .value none) => true
  | (.getInto _ _, .into false _) => true
  | _ => false

namespace Lru

theorem step_stored {s : Lru} {call : Time × Op} {e : Entry} (h : stored call = some e) :
    s.step call = (s.store e, .unit) := by
  obtain ⟨now, op⟩ := call
  cases op with
  | set k v =>
    cases h
    rfl
  | setTtl k v ttl =>
    simp only [stored] at h
    split at h
    · cases h
    · next hpos =>
      cases h
      simp only [step, setTtl, if_neg hpos]
  | _ => cases h

/-- What the lookup of a key without a hit leaves of the list. -/
def Forgets (s s' : Lru) (k : Bytes) : Prop :=
  (s'.items = s.items ∨ s'.items = Keyed.without Entry.key k s.items) ∧ s'.evictions = s.evictions

theorem reclaim_forgets (s : Lru) (now : Time) (k : Bytes) : Forgets s (s.reclaim now k) k := by
  unfold reclaim
  split
  · exact ⟨Or.inr rfl, rfl⟩
  · exact ⟨Or.inl rfl, rfl⟩

theorem erase_forgets (s : Lru) (now : Time) (k : Bytes) : Forgets s (s.erase now k).1 k := by
  unfold erase
  split
  · exact ⟨Or.inl rfl, rfl⟩
  · split
    · exact ⟨Or.inr rfl, rfl⟩
    · exact ⟨Or.inr rfl, rfl⟩

theorem ttl_forgets (s : Lru) (now : Time) (k : Bytes) : Forgets s (s.ttl now k).1 k := by
  rw [ttl_reclaims]
  exact reclaim_forgets s now k

/-- A lookup hits and moves the entry to the front, or misses and forgets at most its key. -/
theorem get_cases {s : Lru} (h : s.WF) (now : Time) (k : Bytes) :
    (∃ e, e.key = k ∧ s.find k = some e ∧ (s.get now k).1 = s.store e ∧
      (s.store e).evictions = s.evictions ∧ (s.get now k).2 = some e.value) ∨
    ((s.get now k).2 = none ∧ Forgets s (s.get now k).1 k) := by
  cases hf : s.find k with
  | none =>
    rw [get_absent hf]
    exact Or.inr ⟨rfl, Or.inl rfl, rfl⟩
  | some e =>
    obtain ⟨-, rfl⟩ := Keyed.find_some hf
    cases hx : isExpired now e with
    | false =>
      have hstore := store_present h hf
      rw [get_live hf hx]
      exact Or.inl ⟨e, rfl, rfl, hstore.symm, by rw [hstore]; rfl, rfl⟩
    | true =>
      rw [get_expired hf hx]
      exact Or.inr ⟨rfl, Or.inr rfl, rfl⟩

theorem Forgets.sublist {s s' : Lru} {k : Bytes} (h : Forgets s s' k) :
    s'.items.Sublist s.items := by
  rcases h.1 with he | he
  · rw [he]
  · rw [he]
    exact Keyed.without_sublist _ _

/-- A call either puts one entry in front, is a use of exactly that key, and evicts only if it
stores; or it is no use of any key, drops some entries and evicts none. -/
theorem step_cases {s : Lru} (h : s.WF) (call : Time × Op) :
    (∃ e, (s.step call).1 = s.store e ∧
      (∀ k, usesKey k (call.2, (s.step call).2) = decide (e.key = k)) ∧
      (stored call = some e ∨ (stored call = none ∧ (s.store e).evictions = s.evictions))) ∨
    ((∀ k, usesKey k (call.2, (s.step call).2) = false) ∧ stored call = none ∧
      (s.step call).1.items.Sublist s.items ∧ (s.step call).1.evictions = s.evictions) := by
  obtain ⟨now, op⟩ := call
  cases op with
  | set k v => exact Or.inl ⟨⟨k, v, none⟩, rfl, fun _ => rfl, Or.inl rfl⟩
  | setTtl k v ttl =>
    by_cases hpos : ttl ≤ 0
    · have hstep : (s.step (now, .setTtl k v ttl)).1 = (s.erase now k).1 := by
        simp only [step, setTtl, if_pos hpos]
      have hforget := erase_forgets s now k
      refine Or.inr ⟨fun k' => ?_, by simp only [stored, if_pos hpos], ?_, ?_⟩
      · simp [usesKey, hpos]
      · rw [hstep]
        exact hforget.sublist
      · rw [hstep]
        exact hforget.2
    · have hst : stored (now, .setTtl k v ttl) = some ⟨k, v, some (now + ttl * nanosPerMilli)⟩ := by
        simp only [stored, if_neg hpos]
      refine Or.inl ⟨_, by rw [step_stored hst], fun k' => ?_, Or.inl hst⟩
      simp [usesKey, Int.not_le.mp hpos]
  | get k =>
    rcases get_cases h now k with ⟨e, rfl, -, hs, hev, hr⟩ | ⟨hr, hforget⟩
    · exact Or.inl ⟨e, hs, fun k' => by simp only [step, hr, usesKey], Or.inr ⟨rfl, hev⟩⟩
    · exact Or.inr ⟨fun k' => by simp only [step, hr, usesKey], rfl, hforget.sublist, hforget.2⟩
  | getInto k out =>
    rcases get_cases h now k with ⟨e, rfl, -, hs, hev, hr⟩ | ⟨hr, hforget⟩
    · exact Or.inl ⟨e, by simp only [step, hr, hs], fun k' => by simp only [step, hr, usesKey],
        Or.inr ⟨rfl, hev⟩⟩
    · refine Or.inr ⟨fun k' => by simp only [step, hr, usesKey], rfl, ?_, ?_⟩
      · simp only [step, hr]
        exact hforget.sublist
      · simp only [step, hr]
        exact hforget.2
  | ttl k =>
    exact Or.inr ⟨fun _ => rfl, rfl, (ttl_forgets s now k).sublist, (ttl_forgets s now k).2⟩
  | erase k =>
    exact Or.inr ⟨fun _ => rfl, rfl, (erase_forgets s now k).sublist, (erase_forgets s now k).2⟩
  | contains k => exact Or.inr ⟨fun _ => rfl, rfl, List.Sublist.refl _, rfl⟩
  | clear => exact Or.inr ⟨fun _ => rfl, rfl, List.nil_sublist _, rfl⟩
  | exportEntries => exact Or.inr ⟨fun _ => rfl, rfl, List.Sublist.refl _, rfl⟩

/-- A call brings no key into the list but its own. -/
theorem step_keys {s : Lru} (h : s.WF) (call : Time × Op) {e : Entry}
    (he : e ∈ (s.step call).1.items) : e ∈ s.items ∨ call.2.key = some e.key := by
  rcases step_cases h call with ⟨e₀, hs, huse, -⟩ | ⟨-, -, hsub, -⟩
  · rw [hs] at he
    rcases List.mem_cons.mp ((Keyed.atMost_sublist _ _).subset he) with rfl | he
    · exact Or.inr (key_of_usesKey ((huse e.key).trans (decide_eq_true rfl)))
    · exact Or.inl (Keyed.mem_without.mp he).1
  · exact Or.inl (hsub.subset he)

/-- A passive call forgets at most its own key. -/
theorem step_passive {s : Lru} (h : s.WF) {call : Time × Op}
    (hp : passive (call.2, (s.step call).2) = true) :
    (s.step call).1.items = s.items ∨
    ∃ k, call.2.key = some k ∧ (s.step call).1.items = Keyed.without Entry.key k s.items := by
  obtain ⟨now, op⟩ := call
  cases op with
  | set k v => cases hp
  | setTtl k v ttl => cases hp
  | get k =>
    rcases get_cases h now k with ⟨e, rfl, -, hs, hev, hr⟩ | ⟨hr, hforget⟩
    · simp only [step, hr] at hp
      cases hp
    · exact hforget.1.imp id fun he => ⟨k, rfl, he⟩
  | getInto k out =>
    rcases get_cases h now k with ⟨e, rfl, -, hs, hev, hr⟩ | ⟨hr, hforget⟩
    · simp only [step, hr] at hp
      cases hp
    · simp only [step, hr]
      exact hforget.1.imp id fun he => ⟨k, rfl, he⟩
  | ttl k => exact (ttl_forgets s now k).1.imp id fun he => ⟨k, rfl, he⟩
  | erase k => exact (erase_forgets s now k).1.imp id fun he => ⟨k, rfl, he⟩
  | contains k => exact Or.inl rfl
  | clear => cases hp
  | exportEntries => exact Or.inl rfl

end Lru

/-! ## The order by last use -/

/-- Every entry has been used, and the entries stand by decreasing last use. -/
structure Ordered (items : List Entry) (trace : Trace) : Prop where
  used : ∀ e ∈ items, ∃ i, lastUse e.key trace = some i
  sorted : items.Pairwise fun a b => UsedBefore trace b.key a.key

namespace HistoryLemmas

theorem ordered_sublist {items items' : List Entry} {trace : Trace} {x : Op × Reply}
    (h : Ordered items trace) (hs : items'.Sublist items) (hx : ∀ k, usesKey k x = false) :
    Ordered items' (trace ++ [x]) := by
  have hlast : ∀ k, lastUse k (trace ++ [x]) = lastUse k trace := by
    intro k
    rw [lastUse_snoc, hx k]
    rfl
  constructor
  · intro e he
    rw [hlast]
    exact h.used e (hs.subset he)
  · refine (h.sorted.sublist hs).imp fun hab => ?_
    unfold UsedBefore at hab ⊢
    rwa [hlast, hlast]

theorem ordered_front {items : List Entry} {trace : Trace} {x : Op × Reply} {e : Entry}
    (h : Ordered items trace) (hx : ∀ k, usesKey k x = decide (e.key = k)) :
    Ordered (Keyed.front Entry.key e items) (trace ++ [x]) := by
  have hself : lastUse e.key (trace ++ [x]) = some trace.length := by
    rw [lastUse_snoc, hx]
    simp
  have hother : ∀ a ∈ Keyed.without Entry.key e.key items,
      lastUse a.key (trace ++ [x]) = lastUse a.key trace := by
    intro a ha
    have hne : e.key ≠ a.key := Ne.symm (Keyed.mem_without.mp ha).2
    rw [lastUse_snoc, hx]
    simp [hne]
  have hused : ∀ a ∈ Keyed.without Entry.key e.key items,
      ∃ i, lastUse a.key (trace ++ [x]) = some i ∧ i < trace.length := by
    intro a ha
    obtain ⟨i, hi⟩ := h.used a (Keyed.mem_without.mp ha).1
    exact ⟨i, by rw [hother a ha, hi], lastUse_lt hi⟩
  constructor
  · intro a ha
    rcases List.mem_cons.mp ha with rfl | ha
    · exact ⟨_, hself⟩
    · obtain ⟨i, hi, -⟩ := hused a ha
      exact ⟨i, hi⟩
  · refine List.pairwise_cons.mpr ⟨fun a ha => ?_, ?_⟩
    · obtain ⟨i, hi, hlt⟩ := hused a ha
      exact ⟨i, trace.length, hi, hself, hlt⟩
    · refine (h.sorted.sublist (Keyed.without_sublist _ _)).imp_of_mem fun ha hb hab => ?_
      unfold UsedBefore at hab ⊢
      rwa [hother _ ha, hother _ hb]

theorem ordered_step {s : Lru} (h : s.WF) {trace : Trace} (ho : Ordered s.items trace)
    (call : Time × Op) :
    Ordered (s.step call).1.items (trace ++ [(call.2, (s.step call).2)]) := by
  rcases Lru.step_cases h call with ⟨e, hs, hx, -⟩ | ⟨hx, -, hsub, -⟩
  · rw [hs]
    have hfront := ordered_front ho hx
    have hcut : (s.store e).items.Sublist (Keyed.front Entry.key e s.items) :=
      Keyed.atMost_sublist _ _
    exact ⟨fun a ha => hfront.used a (hcut.subset ha), hfront.sorted.sublist hcut⟩
  · exact ordered_sublist ho hsub hx

theorem run_ordered (capacity : Option Nat) (calls : List (Time × Op)) :
    ∃ c rs, (Cache.new capacity).run calls = some (c, rs) ∧ c.WF ∧
      Ordered c.abs.items ((calls.map Prod.snd).zip rs) := by
  obtain ⟨c, rs, hrun, hwf, ho⟩ := Machine.run_of_traceInvariant
    (P := fun (c : Cache) tr => c.WF ∧ Ordered c.abs.items (tr.map fun p => (p.1.2, p.2)))
    (fun c tr call hinv => by
      obtain ⟨c', hc', hwf', habs⟩ := step_refines hinv.1 call
      refine ⟨c', _, hc', hwf', ?_⟩
      rw [habs, List.map_append]
      exact ordered_step (abs_wf hinv.1) hinv.2 call)
    (s := Cache.new capacity)
    ⟨wf_new capacity, fun e he => absurd he List.not_mem_nil, List.Pairwise.nil⟩ calls
  refine ⟨c, rs, hrun, hwf, ?_⟩
  rw [List.zip_map_left]
  exact ho

theorem keys_eq (c : Cache) : c.keysByRecency = c.abs.items.map Entry.key := rfl

theorem mem_keysByRecency {c : Cache} (h : c.WF) {k : Bytes} :
    k ∈ c.keysByRecency ↔ ∃ node, c.index.lookup k = some node := by
  constructor
  · intro hk
    obtain ⟨e, he, rfl⟩ := List.mem_map.mp hk
    obtain ⟨node, hn⟩ := mem_toList.mp he
    exact ⟨node, (linked_lookup h.linked).mpr ⟨e, hn, rfl⟩⟩
  · rintro ⟨node, hn⟩
    obtain ⟨e, he, rfl⟩ := (linked_lookup h.linked).mp hn
    exact List.mem_map_of_mem (mem_toList.mpr ⟨node, he⟩)

theorem map_key_without {k : Bytes} {items : List Entry} (h : Keyed.NodupBy Entry.key items) :
    (Keyed.without Entry.key k items).map Entry.key = (items.map Entry.key).erase k := by
  rw [List.Nodup.erase_eq_filter h, List.filter_map, Keyed.without]
  congr 1
  apply List.filter_congr
  intro e _
  rw [Bool.eq_iff_iff]
  simp

theorem erase_getLast {l : List Bytes} (h : l.Nodup) (hne : l ≠ []) :
    l.erase (l.getLast hne) = l.dropLast := by
  have hl := List.dropLast_concat_getLast hne
  generalize l.getLast hne = x at hl
  rw [← hl] at h
  rw [← hl, List.dropLast_concat]
  have hx : x ∉ l.dropLast := by
    rw [List.nodup_append] at h
    exact fun hmem => h.2.2 x hmem x (List.mem_singleton.mpr rfl) rfl
  rw [List.erase_append_right _ hx]
  simp

/-- The last key of an ordered list is the one with the smallest last use. -/
theorem last_usedBefore {items : List Entry} {trace : Trace} (h : Ordered items trace)
    (hne : items.map Entry.key ≠ []) :
    ∀ k ∈ items.map Entry.key, k ≠ (items.map Entry.key).getLast hne →
      UsedBefore trace ((items.map Entry.key).getLast hne) k := by
  have hs : (items.map Entry.key).Pairwise fun a b => UsedBefore trace b a :=
    List.pairwise_map.mpr h.sorted
  have hl := List.dropLast_concat_getLast hne
  generalize (items.map Entry.key).getLast hne = x at hl
  intro k hk hkx
  rw [← hl] at hs hk
  rcases List.mem_append.mp hk with hk | hk
  · exact (List.pairwise_append.mp hs).2.2 k hk x (List.mem_singleton.mpr rfl)
  · exact absurd (List.mem_singleton.mp hk) hkx

end HistoryLemmas

/-- The call stores an entry whose key is not in the index into a cache that holds as many entries
as its capacity allows. -/
def InsertsAtCapacity (c : Cache) (call : Time × Op) (e : Entry) : Prop :=
  stored call = some e ∧ c.index.lookup e.key = none ∧ c.capacity = some c.size

namespace HistoryLemmas

theorem insertsAtCapacity_iff {c : Cache} (h : c.WF) {call : Time × Op} {e : Entry}
    (hst : stored call = some e) :
    InsertsAtCapacity c call e ↔
      ∃ n, c.abs.capacity = some n ∧ c.abs.items.length = n ∧ c.abs.find e.key = none := by
  have hsize : c.size = c.abs.items.length := linked_size h.linked
  have hlook : c.index.lookup e.key = none ↔ c.abs.find e.key = none := by
    rcases lookup_cases h e.key with ⟨hk, hf⟩ | ⟨node, e', hk, -, -, hf⟩
    · rw [hk, hf]
      exact iff_of_true rfl rfl
    · rw [hk, hf]
      exact iff_of_false (fun h => nomatch h) (fun h => nomatch h)
  unfold InsertsAtCapacity
  rw [hlook, hsize]
  constructor
  · rintro ⟨-, hf, hcap⟩
    exact ⟨_, hcap, rfl, hf⟩
  · rintro ⟨n, hcap, rfl, hf⟩
    exact ⟨hst, hf, hcap⟩

/-- An insert at capacity 0 removes the new entry again. -/
theorem evicting_call_zero {s : Lru} (h : s.WF) {call : Time × Op} {e : Entry}
    (hst : stored call = some e) (hf : s.find e.key = none) (hcap : s.capacity = some 0) :
    (s.step call).1.items.map Entry.key = s.items.map Entry.key := by
  have hnil : s.items = [] := List.length_eq_zero_iff.mp (Nat.le_zero.mp (h.bounded 0 hcap))
  rw [Lru.step_stored hst]
  rcases Lru.store_cases h e with ⟨-, hitems, -⟩ | ⟨hno, -, -⟩
  · rw [hitems, hnil]
    rfl
  · exact absurd ⟨0, hcap, by rw [hnil]; rfl, hf⟩ hno

/-- An insert at a positive capacity removes the key with the smallest last use. -/
theorem evicting_call {s : Lru} (h : s.WF) {trace : Trace} (ho : Ordered s.items trace)
    {call : Time × Op} {e : Entry} (hst : stored call = some e)
    (hfull : ∃ n, s.capacity = some n ∧ s.items.length = n ∧ s.find e.key = none)
    (hpos : s.capacity ≠ some 0) :
    ∃ victim ∈ s.items.map Entry.key,
      (∀ k ∈ s.items.map Entry.key, k ≠ victim → UsedBefore trace victim k) ∧
      (s.step call).1.items.map Entry.key = e.key :: (s.items.map Entry.key).erase victim := by
  have hne : s.items.map Entry.key ≠ [] := by
    intro hnil
    obtain ⟨n, hcap, hlen, -⟩ := hfull
    rw [List.map_eq_nil_iff] at hnil
    rw [hnil] at hlen
    exact hpos (hcap.trans (congrArg some hlen.symm))
  refine ⟨_, List.getLast_mem hne, last_usedBefore ho hne, ?_⟩
  rw [Lru.step_stored hst]
  rcases Lru.store_cases h e with ⟨-, hitems, -⟩ | ⟨hno, -, -⟩
  · rw [hitems, erase_getLast h.nodup hne, List.map_dropLast, List.map_cons,
      List.dropLast_cons_of_ne_nil hne]
  · exact absurd hfull hno

theorem evictions_of_full {s : Lru} (h : s.WF) {call : Time × Op} {e : Entry}
    (hst : stored call = some e)
    (hfull : ∃ n, s.capacity = some n ∧ s.items.length = n ∧ s.find e.key = none) :
    (s.step call).1.evictions = s.evictions + 1 := by
  rw [Lru.step_stored hst]
  rcases Lru.store_cases h e with ⟨-, -, hev⟩ | ⟨hno, -, -⟩
  · exact hev
  · exact absurd hfull hno

/-- A call that is not an insert at capacity evicts nothing. -/
theorem evictions_of_not_full {s : Lru} (h : s.WF) {call : Time × Op}
    (hno : ∀ e, stored call = some e →
      ¬ ∃ n, s.capacity = some n ∧ s.items.length = n ∧ s.find e.key = none) :
    (s.step call).1.evictions = s.evictions ∧
      ∀ e, stored call = some e →
        (s.step call).1.items.map Entry.key = e.key :: (s.items.map Entry.key).erase e.key := by
  constructor
  · rcases Lru.step_cases h call with ⟨e, hs, -, hst | ⟨-, hev⟩⟩ | ⟨-, -, -, hev⟩
    · rw [hs]
      rcases Lru.store_cases h e with ⟨hfull, -, -⟩ | ⟨-, -, hev⟩
      · exact absurd hfull (hno e hst)
      · exact hev
    · rw [hs, hev]
    · exact hev
  · intro e hst
    rw [Lru.step_stored hst]
    rcases Lru.store_cases h e with ⟨hfull, -, -⟩ | ⟨-, hitems, -⟩
    · exact absurd hfull (hno e hst)
    · rw [hitems, Keyed.front, List.map_cons, map_key_without h.nodup]

theorem passive_call {s : Lru} (h : s.WF) {call : Time × Op}
    (hp : passive (call.2, (s.step call).2) = true) :
    ((s.step call).1.items.map Entry.key).Sublist (s.items.map Entry.key) ∧
      ∀ k ∈ s.items.map Entry.key, call.2.key ≠ some k →
        k ∈ (s.step call).1.items.map Entry.key := by
  rcases Lru.step_passive h hp with he | ⟨k', hk', he⟩
  · rw [he]
    exact ⟨List.Sublist.refl _, fun k hk _ => hk⟩
  · rw [he, map_key_without h.nodup]
    refine ⟨List.erase_sublist, fun k hk hne => ?_⟩
    exact (List.mem_erase_of_ne fun heq => hne (hk'.trans (congrArg some heq.symm))).mpr hk

theorem get_hit {s : Lru} (h : s.WF) {now : Time} {k v : Bytes} (hr : (s.get now k).2 = some v) :
    k ∈ s.items.map Entry.key ∧
      (s.get now k).1.items.map Entry.key = k :: (s.items.map Entry.key).erase k := by
  rcases Lru.get_cases h now k with ⟨e, rfl, hf, hs, -⟩ | ⟨hmiss, -⟩
  · refine ⟨List.mem_map_of_mem (Keyed.find_some hf).1, ?_⟩
    rw [hs, Lru.store_present h hf, Lru.touch, Keyed.front, List.map_cons, map_key_without h.nodup]
  · cases hmiss.symm.trans hr

/-- A hit moves its key to the front and drops no entry. -/
theorem hit_call {s : Lru} (h : s.WF) {call : Time × Op} {k : Bytes} (hst : stored call = none)
    (huse : usesKey k (call.2, (s.step call).2) = true) :
    k ∈ s.items.map Entry.key ∧
      (s.step call).1.items.map Entry.key = k :: (s.items.map Entry.key).erase k := by
  obtain ⟨now, op⟩ := call
  cases op with
  | set k' v => cases hst
  | setTtl k' v ttl =>
    obtain ⟨-, hpos⟩ := Bool.and_eq_true_iff.mp huse
    simp only [stored, if_neg (Int.not_le.mpr (of_decide_eq_true hpos))] at hst
    cases hst
  | get k' =>
    cases hr : (s.get now k').2 with
    | none =>
      simp only [Lru.step, hr, usesKey] at huse
      cases huse
    | some v =>
      simp only [Lru.step, hr, usesKey] at huse
      cases of_decide_eq_true huse
      exact get_hit h hr
  | getInto k' out =>
    cases hr : (s.get now k').2 with
    | none =>
      simp only [Lru.step, hr, usesKey] at huse
      cases huse
    | some v =>
      simp only [Lru.step, hr, usesKey] at huse
      cases of_decide_eq_true huse
      simp only [Lru.step, hr]
      exact get_hit h hr
  | _ => cases huse

/-- A `set` whose ttl is not positive is an `erase`. -/
theorem erasing_call {s : Lru} (h : s.WF) (now : Time) (k v : Bytes) {ttl : Millis}
    (httl : ttl ≤ 0) :
    (s.step (now, .setTtl k v ttl)).1.items.map Entry.key = (s.items.map Entry.key).erase k := by
  simp only [Lru.step, Lru.setTtl, if_pos httl, Lru.erase_items]
  exact map_key_without h.nodup

end HistoryLemmas

/-- Exact LRU. After any calls on a cache of any capacity, `keys_by_recency` lists the resident
keys by strictly decreasing last use. The next call evicts exactly when it inserts a new key at
capacity; then one entry goes, the one with the smallest last use (the new one itself at capacity
0), and the counter grows by one. Any other call leaves no key out but the one it erases: a `set` or
a hit moves its key to the front, a `set` whose ttl is not positive drops its key, a passive call
drops its key at most and leaves the order of the others as it is, and `clear` drops all. -/
theorem exact_lru (capacity : Option Nat) (calls : List (Time × Op)) :
    ∃ c rs, (Cache.new capacity).run calls = some (c, rs) ∧
      (∀ k, k ∈ c.keysByRecency ↔ ∃ node, c.index.lookup k = some node) ∧
      (∀ k ∈ c.keysByRecency, ∃ i, lastUse k ((calls.map Prod.snd).zip rs) = some i) ∧
      c.keysByRecency.Pairwise (fun a b => UsedBefore ((calls.map Prod.snd).zip rs) b a) ∧
      ∀ call, ∃ c' r, c.step call = some (c', r) ∧
        (∀ e, InsertsAtCapacity c call e → c'.evictions = c.evictions + 1 ∧
          (c.capacity = some 0 → c'.keysByRecency = c.keysByRecency) ∧
          (c.capacity ≠ some 0 → ∃ victim ∈ c.keysByRecency,
            (∀ k ∈ c.keysByRecency, k ≠ victim →
              UsedBefore ((calls.map Prod.snd).zip rs) victim k) ∧
            c'.keysByRecency = e.key :: c.keysByRecency.erase victim)) ∧
        ((¬ ∃ e, InsertsAtCapacity c call e) → c'.evictions = c.evictions ∧
          ∀ e, stored call = some e → c'.keysByRecency = e.key :: c.keysByRecency.erase e.key) ∧
        (passive (call.2, r) = true → c'.keysByRecency.Sublist c.keysByRecency ∧
          ∀ k ∈ c.keysByRecency, call.2.key ≠ some k → k ∈ c'.keysByRecency) ∧
        (∀ k, stored call = none → usesKey k (call.2, r) = true → k ∈ c.keysByRecency ∧
          c'.keysByRecency = k :: c.keysByRecency.erase k) ∧
        (∀ k v ttl, call.2 = .setTtl k v ttl → ttl ≤ 0 →
          c'.keysByRecency = c.keysByRecency.erase k) ∧
        (call.2 = .clear → c'.keysByRecency = []) := by
  obtain ⟨c, rs, hrun, hwf, ho⟩ := run_ordered capacity calls
  have hwf' := abs_wf hwf
  refine ⟨c, rs, hrun, fun k => mem_keysByRecency hwf, ?_, List.pairwise_map.mpr ho.sorted,
    fun call => ?_⟩
  · intro k hk
    obtain ⟨e, he, rfl⟩ := List.mem_map.mp hk
    exact ho.used e he
  · obtain ⟨c', hc', -, habs⟩ := step_refines hwf call
    have hkeys : c'.keysByRecency = (c.abs.step call).1.items.map Entry.key := by
      rw [keys_eq, habs]
    have hev : c'.evictions = (c.abs.step call).1.evictions := congrArg Lru.evictions habs
    refine ⟨c', _, hc', fun e hins => ?_, fun hno => ?_, fun hp => ?_, fun k hst huse => ?_,
      fun k v ttl hop httl => ?_, fun hop => ?_⟩
    · have hfull := (insertsAtCapacity_iff hwf hins.1).mp hins
      rw [hkeys, hev]
      refine ⟨evictions_of_full hwf' hins.1 hfull, fun hcap => ?_, fun hpos => ?_⟩
      · obtain ⟨-, -, -, hf⟩ := hfull
        exact evicting_call_zero hwf' hins.1 hf hcap
      · exact evicting_call hwf' ho hins.1 hfull hpos
    · rw [hkeys, hev]
      refine evictions_of_not_full hwf' fun e hst hfull => hno ⟨e, ?_⟩
      exact (insertsAtCapacity_iff hwf hst).mpr hfull
    · rw [hkeys]
      exact passive_call hwf' hp
    · rw [hkeys]
      exact hit_call hwf' hst huse
    · obtain ⟨now, op⟩ := call
      cases hop
      rw [hkeys]
      exact erasing_call hwf' now k v httl
    · obtain ⟨now, op⟩ := call
      cases hop
      rw [hkeys]
      rfl

end CacheX
