import CacheX.View

/-!
# A larger cache does no worse

Two caches make the same calls, and one has the larger capacity. The calls leave different entries
in them: a lookup can miss in the smaller one and hit, and reorder, in the larger one. What they
keep is `Keyed.Within`: the entries of the smaller cache are entries of the larger one, in the same
order, and the larger one has no more entries besides than the capacities differ by. So an insertion
that evicts an entry from the larger cache that both hold evicts it from the smaller one too.

* `within_step`: every call keeps it.
* `hit_step`: what hits in the smaller cache hits in the larger one, with the same reply.
* `lru_inclusion`: both for any calls.
-/

namespace CacheX

open InvariantLemmas

/-- Whether a call found its key. -/
def Reply.hit : Reply → Bool
  | .value v => v.isSome
  | .into hit _ => hit
  | .ttl info => decide (info.state ≠ .missing)
  | .bool b => b
  | _ => false

/-- The entries of `s` are entries of `t`. -/
abbrev Lru.Within (s t : Lru) : Prop := Keyed.Within s.capacity t.capacity s.items t.items

namespace InclusionLemmas

variable {s t : Lru}

theorem within_erase (h : s.Within t) (now : Time) (k : Bytes) :
    (s.erase now k).1.Within (t.erase now k).1 := by
  unfold Lru.Within
  rw [Lru.erase_capacity, Lru.erase_capacity, Lru.erase_items, Lru.erase_items]
  exact Keyed.within_without h k

theorem within_store (h : s.Within t) (e : Entry) : (s.store e).Within (t.store e) :=
  Keyed.within_atMost (Keyed.within_front h e)

/-- The lookup of a key in both caches: the smaller one finds what the larger one finds, or
nothing. -/
theorem find_cases (ht : t.WF) (h : s.Within t) (k : Bytes) :
    s.find k = none ∨ s.find k = t.find k := by
  cases hs : s.find k with
  | none => exact Or.inl rfl
  | some e => exact Or.inr (Keyed.find_sublist ht.nodup h.sublist hs).symm

/-- Both caches drop the entry of a key if it has run out. -/
theorem within_reclaim (ht : t.WF) (h : s.Within t) (now : Time) (k : Bytes) :
    (s.reclaim now k).Within (t.reclaim now k) := by
  unfold Lru.Within
  rw [Lru.reclaim_capacity, Lru.reclaim_capacity]
  have hw : Keyed.Within s.capacity t.capacity (Keyed.without Entry.key k s.items)
      (Keyed.without Entry.key k t.items) := Keyed.within_without h k
  rcases find_cases ht h k with hnone | hsame
  · rw [Keyed.without_eq_self (Keyed.find_none.mp hnone)] at hw
    rw [Lru.reclaim_absent hnone]
    unfold Lru.reclaim
    split
    · exact hw
    · exact h
  · unfold Lru.reclaim Lru.stale
    rw [hsame]
    split
    · exact hw
    · exact h

/-- A lookup hits in both caches, or in the larger one only, or in none. -/
theorem within_get (ht : t.WF) (h : s.Within t) (now : Time) (k : Bytes) :
    (s.get now k).1.Within (t.get now k).1 := by
  have hr := within_reclaim ht h now k
  have hnodup : Keyed.NodupBy Entry.key (t.reclaim now k).items :=
    ht.nodup.sublist (Lru.reclaim_forgets t now k).sublist
  unfold Lru.get
  cases hs : (s.reclaim now k).find k with
  | none =>
    cases hf : (t.reclaim now k).find k with
    | none => exact hr
    | some e => exact Keyed.within_front_right hnodup hr hs hf
  | some e =>
    have hf : (t.reclaim now k).find k = some e := Keyed.find_sublist hnodup hr.sublist hs
    rw [hf]
    exact Keyed.within_front hr e

/-- Every call keeps the entries of the smaller cache among those of the larger one. -/
theorem within_step (ht : t.WF) (h : s.Within t) (call : Time × Op) :
    (s.step call).1.Within (t.step call).1 := by
  obtain ⟨now, op⟩ := call
  cases op with
  | set k v => exact within_store h _
  | setTtl k v ttl =>
    show (s.setTtl now k v ttl).Within (t.setTtl now k v ttl)
    unfold Lru.setTtl
    split
    · exact within_erase h now k
    · exact within_store h _
  | get k => exact within_get ht h now k
  | getInto k out =>
    rw [Lru.step_getInto, Lru.step_getInto]
    exact within_get ht h now k
  | ttl k =>
    show (s.ttl now k).1.Within (t.ttl now k).1
    rw [Lru.ttl_reclaims, Lru.ttl_reclaims]
    exact within_reclaim ht h now k
  | erase k => exact within_erase h now k
  | contains k => exact h
  | clear => exact Keyed.within_nil fun n hn => (h.gap n hn).imp fun m hm => ⟨hm.1, hm.2.1⟩
  | exportEntries => exact h

/-- A call that does not find its key has no hit. -/
theorem hit_of_none (now : Time) (op : Op) : (cellStep now op none).2.hit = false := by
  cases op <;> rfl

/-- A hit in the smaller cache is a hit in the larger one, with the same reply. -/
theorem hit_step (ht : t.WF) (h : s.Within t) (call : Time × Op)
    (hhit : (s.step call).2.hit = true) : (t.step call).2 = (s.step call).2 := by
  obtain ⟨now, op⟩ := call
  cases hk : op.key with
  | some k =>
    rw [Lru.step_reply s hk] at hhit ⊢
    rw [Lru.step_reply t hk]
    rcases find_cases ht h k with hnone | hsame
    · rw [Lru.view_absent hnone, hit_of_none] at hhit
      cases hhit
    · rw [Lru.view, Lru.view, hsame]
  | none =>
    cases op with
    | clear => cases hhit
    | exportEntries => cases hhit
    | _ => cases hk

end InclusionLemmas

open InclusionLemmas

/-- **Inclusion.** Two new caches make the same calls, and the second one has no capacity or one
that is at least as large. Afterwards the recency list of the first is a sublist of that of the
second, and a key in the index of the first is in the index of the second with the same entry. Every
reply of the first that is a hit is the reply of the second. -/
theorem lru_inclusion {capacity capacity' : Option Nat}
    (hcap : ∀ n ∈ capacity', ∃ m ∈ capacity, m ≤ n) (calls : List (Time × Op)) :
    ∃ c c' rs rs', (Cache.new capacity).run calls = some (c, rs) ∧
      (Cache.new capacity').run calls = some (c', rs') ∧
      c.entries.toList.Sublist c'.entries.toList ∧
      c.keysByRecency.Sublist c'.keysByRecency ∧
      (∀ k node, c.index.lookup k = some node → ∃ node', c'.index.lookup k = some node' ∧
        c'.entries.deref node' = c.entries.deref node) ∧
      List.Forall₂ (fun r r' => r.hit = true → r' = r) rs rs' := by
  obtain ⟨c, c', rs, rs', hrun, hrun', ⟨hwf, hwf', hw⟩, hreplies⟩ := Machine.run_coupled
    (R := fun c c' : Cache => c.WF ∧ c'.WF ∧ c.abs.Within c'.abs)
    (Q := fun r r' : Reply => r.hit = true → r' = r) (fun c c' call h => by
      obtain ⟨hwf, hwf', hw⟩ := h
      obtain ⟨c₁, hc₁, hwf₁, habs⟩ := step_refines hwf call
      obtain ⟨c₂, hc₂, hwf₂, habs'⟩ := step_refines hwf' call
      refine ⟨c₁, c₂, _, _, hc₁, hc₂, ⟨hwf₁, hwf₂, ?_⟩, hit_step (abs_wf hwf') hw call⟩
      rw [habs, habs']
      exact within_step (abs_wf hwf') hw call)
    (show (Cache.new capacity).WF ∧ (Cache.new capacity').WF ∧
        (Cache.new capacity).abs.Within (Cache.new capacity').abs from
      ⟨wf_new capacity, wf_new capacity', Keyed.within_nil hcap⟩) calls
  refine ⟨c, c', rs, rs', hrun, hrun', hw.sublist, hw.sublist.map _, fun k node hk => ?_, hreplies⟩
  obtain ⟨e, he, -, hf⟩ := find_of_lookup hwf.linked hk
  have hf' : c'.abs.find k = some e := Keyed.find_sublist (abs_wf hwf').nodup hw.sublist hf
  rcases lookup_cases hwf' k with ⟨-, hnone⟩ | ⟨node', e', hk', he', -, hsome⟩
  · cases hnone.symm.trans hf'
  · cases hsome.symm.trans hf'
    exact ⟨node', hk', he'.trans he.symm⟩

/-- With the capacities one and two a lookup hits in the larger cache only, and reorders it. -/
theorem lru_inclusion_two :
    ∃ c c' rs rs',
      (Cache.new (some 1)).run [(0, .set [1] [7]), (0, .set [2] [8]), (0, .get [1])]
        = some (c, rs) ∧
      (Cache.new (some 2)).run [(0, .set [1] [7]), (0, .set [2] [8]), (0, .get [1])]
        = some (c', rs') ∧
      c.keysByRecency.Sublist c'.keysByRecency ∧ c'.keysByRecency = [[1], [2]] := by
  obtain ⟨c, c', rs, rs', hrun, hrun', -, hsub, -⟩ := lru_inclusion
    (show ∀ n ∈ some 2, ∃ m ∈ some 1, m ≤ n from fun n hn => ⟨1, rfl, by cases hn; decide⟩)
    [(0, .set [1] [7]), (0, .set [2] [8]), (0, .get [1])]
  refine ⟨c, c', rs, rs', hrun, hrun', hsub, ?_⟩
  have hkeys : ((Cache.new (some 2)).run
      [(0, .set [1] [7]), (0, .set [2] [8]), (0, .get [1])]).map (fun p => p.1.keysByRecency)
      = some [[1], [2]] := by decide
  rw [hrun'] at hkeys
  exact Option.some.inj hkeys

end CacheX
