import CacheX.Lru

/-!
# The map and the list stay in step

The representation invariant of `Cache` and its refinement to `Lru`.

* `Linked`: the index entries are, in some order, the pairs (key, node) of the list's nodes. Each
  list primitive keeps it together with the matching index update (`linked_markUsed`,
  `linked_overwrite`, `linked_insert`, `linked_erase`, `linked_popOldest`).
* `trim_eq`, `trim_spec`: the trimming loop is the source's `while`, it ends, and it cuts the list
  back to the capacity without ever asking an empty list for its oldest entry.
* `step_refines`: from a well-formed cache every call is defined, keeps the invariant and does to
  the entries what `Lru.step` does.
* `run_refines`, `run_repInv`: so does every sequence of calls, at any clock readings.
-/

namespace CacheX

/-- The index entry that points at a node. -/
def link (node : Σ _ : NodeId, Entry) : Σ _ : Bytes, NodeId := ⟨node.2.key, node.1⟩

/-- The index holds exactly one entry per node: the node's key, pointing at the node. -/
def Linked (index : Index) (entries : RecencyList) : Prop :=
  index.entries.Perm (entries.nodes.entries.map link)

namespace InvariantLemmas

/-! ## Lists with distinct ids -/

theorem kerase_eq_filter {α : Type} {β : α → Type} [DecidableEq α] {a : α} {l : List (Sigma β)}
    (h : l.NodupKeys) : l.kerase a = l.filter fun s => decide (s.1 ≠ a) := by
  induction l with
  | nil => rfl
  | cons s l ih =>
    obtain ⟨hs, hl⟩ := List.nodupKeys_cons.mp h
    by_cases ha : a = s.1
    · subst ha
      rw [List.kerase_cons_eq rfl, List.filter_cons_of_neg (by simp), List.filter_eq_self.mpr]
      intro t ht
      exact decide_eq_true fun he => hs (he ▸ List.mem_keys_of_mem ht)
    · rw [List.kerase_cons_ne ha, List.filter_cons_of_pos (by simpa using Ne.symm ha), ih hl]

theorem kerase_kreplace (a : NodeId) (b : Entry) :
    ∀ l : List (Σ _ : NodeId, Entry), (List.kreplace a b l).kerase a = l.kerase a
  | [] => rfl
  | s :: l => by
    by_cases ha : a = s.1
    · have hr : List.kreplace a b (s :: l) = ⟨a, b⟩ :: l := List.lookmap_cons_some _ l (if_pos ha)
      rw [hr, List.kerase_cons_eq ha]
      exact List.kerase_cons_eq rfl
    · have hr : List.kreplace a b (s :: l) = s :: List.kreplace a b l :=
        List.lookmap_cons_none _ l (if_neg ha)
      rw [hr, List.kerase_cons_ne ha, List.kerase_cons_ne ha, kerase_kreplace a b l]

theorem mem_of_lookup {α : Type} {β : α → Type} [DecidableEq α] {m : AList β} {a : α} {b : β a} :
    m.lookup a = some b ↔ ⟨a, b⟩ ∈ m.entries :=
  AList.mem_lookup_iff

/-- A map without `a` is the map's entries with `a` taken out at the front. -/
theorem perm_cons_erase {α : Type} {β : α → Type} [DecidableEq α] {m : AList β} {a : α} {b : β a}
    (h : m.lookup a = some b) : m.entries.Perm (⟨a, b⟩ :: (m.erase a).entries) := by
  obtain ⟨b', l₁, l₂, hl, he, hk⟩ :=
    List.exists_of_kerase (List.mem_keys.mpr ⟨b, mem_of_lookup.mp h⟩)
  have hb : b' = b := by
    have hmem : (⟨a, b'⟩ : Sigma β) ∈ m.entries := by
      rw [he]
      exact List.mem_append_right _ List.mem_cons_self
    exact m.nodupKeys.eq_of_mk_mem hmem (mem_of_lookup.mp h)
  subst hb
  show m.entries.Perm (⟨a, b'⟩ :: List.kerase a m.entries)
  rw [hk, he]
  exact List.perm_middle

/-! ## What the invariant says -/

theorem linked_lookup {index : Index} {l : RecencyList} (h : Linked index l) {k : Bytes}
    {node : NodeId} :
    index.lookup k = some node ↔ ∃ e, l.deref node = some e ∧ e.key = k := by
  rw [mem_of_lookup, h.mem_iff, List.mem_map]
  constructor
  · rintro ⟨n, hn, he⟩
    cases he
    exact ⟨n.2, mem_of_lookup.mpr hn, rfl⟩
  · rintro ⟨e, he, rfl⟩
    exact ⟨⟨node, e⟩, mem_of_lookup.mp he, rfl⟩

theorem keys_map_link (l : RecencyList) :
    (l.nodes.entries.map link).keys = l.toList.map Entry.key := by
  simp only [List.keys, RecencyList.toList, List.map_map]
  rfl

theorem linked_nodup {index : Index} {l : RecencyList} (h : Linked index l) :
    Keyed.NodupBy Entry.key l.toList := by
  have hk : (l.nodes.entries.map link).NodupKeys := (List.perm_nodupKeys h).mp index.nodupKeys
  rw [List.NodupKeys, keys_map_link] at hk
  exact hk

theorem linked_size {index : Index} {l : RecencyList} (h : Linked index l) :
    Index.size index = l.toList.length := by
  rw [Index.size, h.length_eq, List.length_map, RecencyList.toList, List.length_map]

theorem mem_toList {l : RecencyList} {e : Entry} :
    e ∈ l.toList ↔ ∃ node, l.deref node = some e := by
  constructor
  · intro he
    obtain ⟨n, hn, rfl⟩ := List.mem_map.mp he
    exact ⟨n.1, mem_of_lookup.mpr hn⟩
  · rintro ⟨node, hn⟩
    exact List.mem_map.mpr ⟨⟨node, e⟩, mem_of_lookup.mp hn, rfl⟩

theorem find_of_lookup {index : Index} {l : RecencyList} (h : Linked index l) {k : Bytes}
    {node : NodeId} (hk : index.lookup k = some node) :
    ∃ e, l.deref node = some e ∧ e.key = k ∧ Keyed.find Entry.key k l.toList = some e := by
  obtain ⟨e, he, rfl⟩ := (linked_lookup h).mp hk
  exact ⟨e, he, rfl, Keyed.find_of_mem (linked_nodup h) (mem_toList.mpr ⟨node, he⟩)⟩

theorem find_of_lookup_none {index : Index} {l : RecencyList} (h : Linked index l) {k : Bytes}
    (hk : index.lookup k = none) : Keyed.find Entry.key k l.toList = none := by
  refine Keyed.find_none.mpr fun e he hek => ?_
  obtain ⟨node, hn⟩ := mem_toList.mp he
  rw [(linked_lookup h).mpr ⟨e, hn, hek⟩] at hk
  cases hk

/-- Taking the node of a key out of the list takes the entry of that key out of the contents. -/
theorem map_kerase {index : Index} {l : RecencyList} (h : Linked index l) {k : Bytes}
    {node : NodeId} (hk : index.lookup k = some node) :
    (List.kerase node l.nodes.entries).map (fun n => n.2) = Keyed.without Entry.key k l.toList := by
  rw [kerase_eq_filter l.nodes.nodupKeys, RecencyList.toList, Keyed.without, List.filter_map]
  congr 1
  apply List.filter_congr
  intro n hn
  have hiff : n.1 = node ↔ n.2.key = k := by
    constructor
    · intro he
      obtain ⟨e, hd, rfl⟩ := (linked_lookup h).mp hk
      have hn' : l.deref node = some n.2 := mem_of_lookup.mpr (he ▸ hn)
      rw [hd] at hn'
      cases hn'
      rfl
    · intro he
      have hn' := (linked_lookup h).mpr ⟨n.2, mem_of_lookup.mpr hn, he⟩
      rw [hk] at hn'
      cases hn'
      rfl
  simp only [Function.comp, ne_eq, hiff]

/-! ## The list primitives -/

theorem linked_empty : Linked ∅ RecencyList.empty := List.Perm.refl _

theorem linked_clear (l : RecencyList) : Linked ∅ l.clear := List.Perm.refl _

theorem linked_markUsed {index : Index} {l : RecencyList} (h : Linked index l) {k : Bytes}
    {node : NodeId} {e : Entry} (hk : index.lookup k = some node) (he : l.deref node = some e) :
    ∃ l', l.markUsed node = some l' ∧ Linked index l' ∧ l'.deref node = some e ∧
      l'.toList = Keyed.front Entry.key e l.toList := by
  obtain ⟨l', hl', hn, hd⟩ := RecencyList.markUsed_of_deref he
  refine ⟨l', hl', ?_, hd, ?_⟩
  · rw [Linked, hn]
    exact h.trans ((perm_cons_erase he).map link)
  · obtain ⟨e', he', hkey⟩ := (linked_lookup h).mp hk
    rw [he] at he'
    cases he'
    rw [RecencyList.toList, hn, Keyed.front, hkey, ← map_kerase h hk]
    rfl

/-- An overwrite followed by a move to the front. The node keeps its key, so the index stays right
although it is not written. -/
theorem linked_overwrite {index : Index} {l : RecencyList} (h : Linked index l) {k : Bytes}
    {node : NodeId} {e : Entry} (hk : index.lookup k = some node) (hek : e.key = k) :
    ∃ l₁ l₂, l.assign node e = some l₁ ∧ l₁.markUsed node = some l₂ ∧ Linked index l₂ ∧
      l₂.toList = Keyed.front Entry.key e l.toList := by
  obtain ⟨e₀, he₀, hk₀⟩ := (linked_lookup h).mp hk
  obtain ⟨l₁, hl₁, hn₁, hd₁⟩ := RecencyList.assign_of_deref he₀ e
  obtain ⟨l₂, hl₂, hn₂, -⟩ := RecencyList.markUsed_of_deref hd₁
  have hent : l₂.nodes.entries = ⟨node, e⟩ :: List.kerase node l.nodes.entries := by
    rw [hn₂, AList.entries_insert, hn₁]
    exact congrArg _ (kerase_kreplace node e l.nodes.entries)
  refine ⟨l₁, l₂, hl₁, hl₂, ?_, ?_⟩
  · rw [Linked, hent]
    have hp := h.trans ((perm_cons_erase he₀).map link)
    rw [List.map_cons, show link ⟨node, e₀⟩ = link ⟨node, e⟩ by rw [link, link, hk₀, hek]] at hp
    exact hp
  · rw [RecencyList.toList, hent, Keyed.front, hek, ← map_kerase h hk]
    rfl

theorem linked_insert {index : Index} {l : RecencyList} (h : Linked index l) {e : Entry}
    (hk : index.lookup e.key = none) :
    Linked (Index.emplace index e.key l.fresh) (l.insertNewest e).1 ∧
      (l.insertNewest e).1.toList = e :: l.toList := by
  have hnot : e.key ∉ index := AList.lookup_eq_none.mp hk
  constructor
  · rw [Linked, Index.emplace, if_neg hnot, AList.entries_insert_of_notMem hnot,
      RecencyList.insertNewest_entries, List.map_cons]
    exact h.cons _
  · rw [RecencyList.toList, RecencyList.insertNewest_entries]
    rfl

theorem linked_erase {index : Index} {l : RecencyList} (h : Linked index l) {k : Bytes}
    {node : NodeId} (hk : index.lookup k = some node) :
    ∃ l', l.erase node = some l' ∧ Linked (index.erase k) l' ∧
      l'.toList = Keyed.without Entry.key k l.toList := by
  obtain ⟨e, he, hek⟩ := (linked_lookup h).mp hk
  obtain ⟨l', hl', hn⟩ := RecencyList.erase_of_deref he
  refine ⟨l', hl', ?_, ?_⟩
  · have hp := ((perm_cons_erase hk).symm.trans h).trans ((perm_cons_erase he).map link)
    rw [List.map_cons, show link ⟨node, e⟩ = ⟨k, node⟩ by rw [link, hek]] at hp
    rw [Linked, hn]
    exact (List.perm_cons _).mp hp
  · rw [RecencyList.toList, hn, ← map_kerase h hk]
    rfl

/-- The oldest node goes, and with it the index entry found through the key in the node. -/
theorem linked_popOldest {index : Index} {l : RecencyList} (h : Linked index l)
    (hne : l.toList ≠ []) :
    ∃ victim l', l.oldest = some victim ∧ l.popOldest = some l' ∧
      Linked (index.erase victim.key) l' ∧ l'.toList = l.toList.dropLast := by
  have hne' : l.nodes.entries ≠ [] := fun h0 => hne (by rw [RecencyList.toList, h0]; rfl)
  obtain ⟨l', hl', hn⟩ := RecencyList.popOldest_of_ne_nil hne'
  have hlast := List.dropLast_concat_getLast hne'
  generalize l.nodes.entries.getLast hne' = last at hlast
  have hold : l.oldest = some last.2 := by
    rw [RecencyList.oldest, RecencyList.toList, ← hlast]
    simp
  have hmem : ⟨last.1, last.2⟩ ∈ l.nodes.entries := by
    rw [← hlast]
    simp
  have hk : index.lookup last.2.key = some last.1 :=
    (linked_lookup h).mpr ⟨last.2, mem_of_lookup.mpr hmem, rfl⟩
  refine ⟨last.2, l', hold, hl', ?_, ?_⟩
  · have hp := (perm_cons_erase hk).symm.trans h
    rw [← hlast, List.map_append, List.map_singleton] at hp
    rw [Linked, hn]
    exact (List.perm_cons _).mp (hp.trans (List.perm_append_singleton _ _))
  · rw [RecencyList.toList, hn, List.map_dropLast]
    rfl

/-! ## The trimming loop -/

theorem evictOldest_size {c c' : Cache} (h : c.evictOldest = some c') :
    c'.entries.size + 1 = c.entries.size := by
  unfold Cache.evictOldest at h
  obtain ⟨victim, -, h⟩ := Option.bind_eq_some_iff.mp h
  obtain ⟨l, hl, h⟩ := Option.bind_eq_some_iff.mp h
  cases h
  unfold RecencyList.popOldest at hl
  split at hl
  · cases hl
  · next hne =>
    cases hl
    have hpos := List.length_pos_iff.mpr hne
    simp only [RecencyList.size, List.length_dropLast]
    omega

theorem evictOldest_of_size_zero {c : Cache} (h : c.entries.size = 0) : c.evictOldest = none := by
  have hnil : c.entries.nodes.entries = [] := List.length_eq_zero_iff.mp h
  simp [Cache.evictOldest, RecencyList.oldest, RecencyList.toList, hnil]

end InvariantLemmas

open InvariantLemmas

/-- The trimming loop is the source's `while` loop: the fuel of `trim` is never what ends it. -/
theorem trim_eq (c : Cache) :
    c.trim = if c.overCapacity then c.evictOldest.bind Cache.trim else some c := by
  unfold Cache.trim
  cases hs : c.entries.size with
  | zero => simp only [Cache.trimLoop, evictOldest_of_size_zero hs, Option.bind_none]
  | succ m =>
    simp only [Cache.trimLoop]
    split
    · cases he : c.evictOldest with
      | none => rfl
      | some c' =>
        have hsz := evictOldest_size he
        rw [Option.bind_some, Option.bind_some, show m = c'.entries.size by omega]
    · rfl

/-- The cache without its two structures. -/
def Cache.abs (c : Cache) : Lru := ⟨c.capacity, c.entries.toList, c.evictions, c.expiredRemovals⟩

/-- A cache between two calls: map and list agree, and the capacity is kept. -/
structure Cache.WF (c : Cache) : Prop where
  linked : Linked c.index c.entries
  bounded : ∀ n ∈ c.capacity, c.size ≤ n

theorem wf_new (capacity : Option Nat) : (Cache.new capacity).WF :=
  ⟨linked_empty, fun n _ => Nat.zero_le n⟩

theorem overCapacity_iff {c : Cache} : c.overCapacity = true ↔ ∃ n ∈ c.capacity, n < c.size := by
  unfold Cache.overCapacity
  cases c.capacity with
  | none => simp
  | some n => simp

theorem not_overCapacity {c : Cache} (h : c.overCapacity = false) :
    ∀ n ∈ c.capacity, c.size ≤ n := by
  intro n hc
  by_contra hlt
  rw [overCapacity_iff.mpr ⟨n, hc, Nat.lt_of_not_le hlt⟩] at h
  cases h

/-- One round of the trimming loop: the list is not empty and its last entry goes. -/
theorem evictOldest_spec {c : Cache} (h : Linked c.index c.entries)
    (hover : c.overCapacity = true) :
    ∃ c', c.evictOldest = some c' ∧ Linked c'.index c'.entries ∧
      c'.abs = { c.abs with items := c.abs.items.dropLast, evictions := c.evictions + 1 } := by
  obtain ⟨n, -, hlt⟩ := overCapacity_iff.mp hover
  have hlen : n < c.entries.toList.length := by
    rw [← linked_size h]
    exact hlt
  have hne : c.entries.toList ≠ [] := List.length_pos_iff.mp (Nat.zero_lt_of_lt hlen)
  obtain ⟨victim, l, hold, hpop, hlinked, hlist⟩ := linked_popOldest h hne
  refine ⟨{ c with
    entries := l, index := c.index.erase victim.key, evictions := c.evictions + 1 }, ?_,
    hlinked, ?_⟩
  · simp only [Cache.evictOldest, hold, hpop, Option.bind_eq_bind, Option.bind_some]
  · simp only [Cache.abs, hlist]

/-- From a linked cache the trimming loop ends, is defined throughout, and cuts the list back to
the capacity. -/
theorem trim_spec {c : Cache} (h : Linked c.index c.entries) :
    ∃ c', c.trim = some c' ∧ c'.WF ∧ c'.abs = c.abs.cut := by
  induction hn : c.entries.toList.length generalizing c with
  | zero =>
    have hsize : c.size = 0 := (linked_size h).trans hn
    have hover : c.overCapacity = false := by
      rw [Bool.eq_false_iff]
      intro ho
      obtain ⟨n, -, hlt⟩ := overCapacity_iff.mp ho
      omega
    refine ⟨c, by rw [trim_eq, hover]; rfl, ⟨h, not_overCapacity hover⟩, ?_⟩
    exact (Lru.cut_of_fits fun n _ => hn ▸ Nat.zero_le n).symm
  | succ m ih =>
    cases hover : c.overCapacity with
    | false =>
      refine ⟨c, by rw [trim_eq, hover]; rfl, ⟨h, not_overCapacity hover⟩, ?_⟩
      refine (Lru.cut_of_fits fun n hc => ?_).symm
      exact Nat.le_trans (Nat.le_of_eq (linked_size h).symm) (not_overCapacity hover n hc)
    | true =>
      obtain ⟨n, hc, hlt⟩ := overCapacity_iff.mp hover
      obtain ⟨c₁, hevict, hlinked, habs⟩ := evictOldest_spec h hover
      have hlen : c₁.entries.toList.length = m := by
        rw [show c₁.entries.toList = c₁.abs.items from rfl, habs]
        show c.entries.toList.dropLast.length = m
        rw [List.length_dropLast, hn]
        rfl
      obtain ⟨c', htrim, hwf, habs'⟩ := ih hlinked hlen
      refine ⟨c', by rw [trim_eq, hover, if_pos rfl, hevict, Option.bind_some, htrim], hwf, ?_⟩
      rw [habs', habs]
      exact Lru.cut_evict hc (Nat.lt_of_lt_of_eq hlt (linked_size h))

/-! ## The operations -/

theorem abs_wf {c : Cache} (h : c.WF) : c.abs.WF :=
  ⟨linked_nodup h.linked, fun n hn =>
    Nat.le_trans (Nat.le_of_eq (linked_size h.linked).symm) (h.bounded n hn)⟩

theorem wf_of_linked {c : Cache} (hl : Linked c.index c.entries)
    (hb : ∀ n ∈ c.abs.capacity, c.abs.items.length ≤ n) : c.WF :=
  ⟨hl, fun n hn => Nat.le_trans (Nat.le_of_eq (linked_size hl)) (hb n hn)⟩

/-- The lookup in the index, as seen from the list. -/
theorem lookup_cases {c : Cache} (h : c.WF) (k : Bytes) :
    (c.index.lookup k = none ∧ c.abs.find k = none) ∨
    ∃ node e, c.index.lookup k = some node ∧ c.entries.deref node = some e ∧ e.key = k ∧
      c.abs.find k = some e := by
  cases hk : c.index.lookup k with
  | none => exact Or.inl ⟨rfl, find_of_lookup_none h.linked hk⟩
  | some node =>
    obtain ⟨e, he, hek, hf⟩ := find_of_lookup h.linked hk
    exact Or.inr ⟨node, e, rfl, he, hek, hf⟩

theorem remove_spec {c : Cache} (h : c.WF) {k : Bytes} {node : NodeId}
    (hk : c.index.lookup k = some node) :
    ∃ c', c.remove k node = some c' ∧ c'.WF ∧ c'.abs = c.abs.drop k := by
  obtain ⟨l, hl, hlinked, hlist⟩ := linked_erase h.linked hk
  have habs : { c with entries := l, index := c.index.erase k : Cache }.abs = c.abs.drop k := by
    simp only [Cache.abs, hlist, Lru.drop]
  refine ⟨_, by simp only [Cache.remove, hl, Option.bind_eq_bind, Option.bind_some], ?_, habs⟩
  refine wf_of_linked hlinked fun n hn => ?_
  rw [habs]
  exact Nat.le_trans (Keyed.without_sublist _ _).length_le ((abs_wf h).bounded n hn)

theorem store_spec {c : Cache} (h : c.WF) (k v : Bytes) (d : Option Time) :
    ∃ c', c.store k v d = some c' ∧ c'.WF ∧ c'.abs = c.abs.store ⟨k, v, d⟩ := by
  rcases lookup_cases h k with ⟨hk, hf⟩ | ⟨node, e, hk, he, hek, hf⟩
  · -- a new key: insert in front, then trim
    obtain ⟨hlinked, hlist⟩ := linked_insert (e := ⟨k, v, d⟩) h.linked hk
    obtain ⟨c', htrim, hwf, habs⟩ := trim_spec (c := c.insertNew ⟨k, v, d⟩) hlinked
    refine ⟨c', by simp only [Cache.store, hk, htrim], hwf, ?_⟩
    rw [habs, Lru.store, Lru.touch, Keyed.front, Keyed.without_eq_self (Keyed.find_none.mp hf)]
    simp only [Cache.abs, Cache.insertNew, hlist]
  · -- a present key: overwrite in place, the number of entries stays
    subst hek
    obtain ⟨l₁, l₂, hl₁, hl₂, hlinked, hlist⟩ :=
      linked_overwrite (e := { e with value := v, expiresAt := d }) h.linked hk rfl
    have habs : { c with entries := l₂ : Cache }.abs = c.abs.touch ⟨e.key, v, d⟩ := by
      simp only [Cache.abs, hlist, Lru.touch]
    have hfits := Lru.touch_fits (e := ⟨e.key, v, d⟩) (abs_wf h) hf
    refine ⟨{ c with entries := l₂ }, ?_, wf_of_linked hlinked (by rw [habs]; exact hfits), ?_⟩
    · simp only [Cache.store, hk, he, hl₁, hl₂, Option.bind_eq_bind, Option.bind_some]
    · rw [habs, Lru.store_present (e := ⟨e.key, v, d⟩) (abs_wf h) hf]

theorem wf_expired {c : Cache} (h : c.WF) (n : Nat) : { c with expiredRemovals := n : Cache }.WF :=
  ⟨h.linked, h.bounded⟩

theorem erase_spec {c : Cache} (h : c.WF) (now : Time) (k : Bytes) :
    ∃ c', c.erase now k = some (c', (c.abs.erase now k).2) ∧ c'.WF ∧
      c'.abs = (c.abs.erase now k).1 := by
  rcases lookup_cases h k with ⟨hk, hf⟩ | ⟨node, e, hk, he, hek, hf⟩
  · rw [Lru.erase_absent hf]
    exact ⟨c, by simp only [Cache.erase, hk], h, rfl⟩
  · cases hx : isExpired now e with
    | false =>
      obtain ⟨c', hc', hwf, habs⟩ := remove_spec h hk
      rw [Lru.erase_live hf hx]
      exact ⟨c', by simp [Cache.erase, hk, he, hx, hc'], hwf, habs⟩
    | true =>
      obtain ⟨c', hc', hwf, habs⟩ := remove_spec (wf_expired h (c.expiredRemovals + 1)) hk
      rw [Lru.erase_expired hf hx]
      exact ⟨c', by simp [Cache.erase, hk, he, hx, hc'], hwf, habs⟩

theorem setTtl_spec {c : Cache} (h : c.WF) (now : Time) (k v : Bytes) (ttl : Millis) :
    ∃ c', c.setTtl now k v ttl = some c' ∧ c'.WF ∧ c'.abs = c.abs.setTtl now k v ttl := by
  unfold Cache.setTtl Lru.setTtl
  split
  · obtain ⟨c', hc', hwf, habs⟩ := erase_spec h now k
    exact ⟨c', by rw [hc']; rfl, hwf, habs⟩
  · exact store_spec h k v _

/-- The reclaiming branch shared by `find_live` and `ttl`. -/
theorem reclaim_spec {c : Cache} (h : c.WF) {k : Bytes} {node : NodeId}
    (hk : c.index.lookup k = some node) :
    ∃ c', c.remove k node = some c' ∧
      { c' with expiredRemovals := c'.expiredRemovals + 1 : Cache }.WF ∧
      { c' with expiredRemovals := c'.expiredRemovals + 1 : Cache }.abs = c.abs.expire k := by
  obtain ⟨c', hc', hwf, habs⟩ := remove_spec h hk
  refine ⟨c', hc', wf_expired hwf _, ?_⟩
  have hitems : c'.entries.toList = (c.abs.drop k).items := congrArg Lru.items habs
  have hcap : c'.capacity = c.capacity := congrArg Lru.capacity habs
  have hev : c'.evictions = c.evictions := congrArg Lru.evictions habs
  have hexp : c'.expiredRemovals = c.expiredRemovals := congrArg Lru.expiredRemovals habs
  simp only [Cache.abs, Lru.expire, hitems, hcap, hev, hexp]
  rfl

theorem get_spec {c : Cache} (h : c.WF) (now : Time) (k : Bytes) :
    ∃ c', c.get now k = some (c', (c.abs.get now k).2) ∧ c'.WF ∧ c'.abs = (c.abs.get now k).1 := by
  rcases lookup_cases h k with ⟨hk, hf⟩ | ⟨node, e, hk, he, hek, hf⟩
  · rw [Lru.get_absent hf]
    exact ⟨c, by simp [Cache.get, Cache.use, Cache.findLive, hk], h, rfl⟩
  · cases hx : isExpired now e with
    | false =>
      obtain ⟨l, hl, hlinked, hd, hlist⟩ := linked_markUsed h.linked hk he
      rw [Lru.get_live hf hx]
      have habs : { c with entries := l : Cache }.abs = c.abs.touch e := by
        simp only [Cache.abs, hlist, Lru.touch]
      refine ⟨{ c with entries := l }, ?_, ⟨hlinked, h.bounded⟩, habs⟩
      simp [Cache.get, Cache.use, Cache.findLive, hk, he, hx, hl, hd]
    | true =>
      obtain ⟨c', hc', hwf, habs⟩ := reclaim_spec h hk
      rw [Lru.get_expired hf hx]
      exact ⟨_, by simp [Cache.get, Cache.use, Cache.findLive, hk, he, hx, hc'], hwf, habs⟩

theorem ttl_spec {c : Cache} (h : c.WF) (now : Time) (k : Bytes) :
    ∃ c', c.ttl now k = some (c', (c.abs.ttl now k).2) ∧ c'.WF ∧ c'.abs = (c.abs.ttl now k).1 := by
  rcases lookup_cases h k with ⟨hk, hf⟩ | ⟨node, e, hk, he, hek, hf⟩
  · rw [Lru.ttl_absent hf]
    exact ⟨c, by simp [Cache.ttl, hk], h, rfl⟩
  · cases hd : e.expiresAt with
    | none =>
      have hx : isExpired now e = false := by simp [isExpired, hd]
      rw [Lru.ttl_live hf hx]
      exact ⟨c, by simp [Cache.ttl, hk, he, hd, Lru.ttlOf], h, rfl⟩
    | some deadline =>
      by_cases hle : deadline ≤ now
      · have hx : isExpired now e = true := by simp [isExpired, hd, hle]
        obtain ⟨c', hc', hwf, habs⟩ := reclaim_spec h hk
        rw [Lru.ttl_expired hf hx]
        exact ⟨_, by simp [Cache.ttl, hk, he, hd, hle, hc'], hwf, habs⟩
      · have hx : isExpired now e = false := by simp [isExpired, hd, hle]
        rw [Lru.ttl_live hf hx]
        exact ⟨c, by simp [Cache.ttl, hk, he, hd, hle, Lru.ttlOf], h, rfl⟩

theorem contains_spec {c : Cache} (h : c.WF) (now : Time) (k : Bytes) :
    c.contains now k = some (c.abs.contains now k) := by
  rcases lookup_cases h k with ⟨hk, hf⟩ | ⟨node, e, hk, he, hek, hf⟩
  · rw [Lru.contains_absent hf]
    simp only [Cache.contains, hk]
  · rw [Lru.contains_present hf]
    simp [Cache.contains, hk, he]

/-! ## Calls and runs -/

/-- Every call on a well-formed cache is defined, keeps it well-formed, and does what the call does
to the list of entries. -/
theorem step_refines {c : Cache} (h : c.WF) (call : Time × Op) :
    ∃ c', c.step call = some (c', (c.abs.step call).2) ∧ c'.WF ∧ c'.abs = (c.abs.step call).1 := by
  obtain ⟨now, op⟩ := call
  cases op with
  | set k v =>
    obtain ⟨c', hc', hwf, habs⟩ := store_spec h k v none
    exact ⟨c', by simp only [Cache.step, Cache.set, hc']; rfl, hwf, habs⟩
  | setTtl k v ttl =>
    obtain ⟨c', hc', hwf, habs⟩ := setTtl_spec h now k v ttl
    exact ⟨c', by simp only [Cache.step, hc']; rfl, hwf, habs⟩
  | get k =>
    obtain ⟨c', hc', hwf, habs⟩ := get_spec h now k
    exact ⟨c', by simp only [Cache.step, hc']; rfl, hwf, habs⟩
  | getInto k out =>
    obtain ⟨c', hc', hwf, habs⟩ := get_spec h now k
    have hc'' : c.use now k = some (c', (c.abs.get now k).2) := hc'
    cases hv : (c.abs.get now k).2 with
    | none =>
      refine ⟨c', ?_, hwf, ?_⟩
      · simp [Cache.step, Cache.getInto, hc'', hv, Lru.step]
      · simp [Lru.step, hv, habs]
    | some v =>
      refine ⟨c', ?_, hwf, ?_⟩
      · simp [Cache.step, Cache.getInto, hc'', hv, Lru.step]
      · simp [Lru.step, hv, habs]
  | ttl k =>
    obtain ⟨c', hc', hwf, habs⟩ := ttl_spec h now k
    exact ⟨c', by simp only [Cache.step, hc']; rfl, hwf, habs⟩
  | erase k =>
    obtain ⟨c', hc', hwf, habs⟩ := erase_spec h now k
    exact ⟨c', by simp only [Cache.step, hc']; rfl, hwf, habs⟩
  | contains k =>
    exact ⟨c, by simp only [Cache.step, contains_spec h now k]; rfl, h, rfl⟩
  | clear =>
    exact ⟨c.clear, rfl, ⟨linked_clear c.entries, fun n _ => Nat.zero_le n⟩, rfl⟩
  | exportEntries => exact ⟨c, rfl, h, rfl⟩

/-- A sequence of calls on a well-formed cache does what it does to the list of entries. -/
theorem run_refines {c : Cache} (h : c.WF) (calls : List (Time × Op)) :
    ∃ c', c.run calls = some (c', (Machine.runTotal Lru.step c.abs calls).2) ∧ c'.WF ∧
      c'.abs = (Machine.runTotal Lru.step c.abs calls).1 := by
  refine Machine.run_simulates (R := fun (c : Cache) (s : Lru) => c.WF ∧ c.abs = s) ?_
    ⟨h, rfl⟩ calls
  rintro c s call ⟨hwf, rfl⟩
  obtain ⟨c', hc', hwf', habs⟩ := step_refines hwf call
  exact ⟨c', hc', hwf', habs⟩

/-- The representation invariant in the terms of the two structures. -/
structure Cache.RepInv (c : Cache) : Prop where
  /-- an index entry points at a node that is in the list and has its key -/
  index_points : ∀ k node, c.index.lookup k = some node →
    ∃ e, c.entries.deref node = some e ∧ e.key = k
  /-- a node is referenced by exactly one index entry -/
  node_referenced : ∀ node e, c.entries.deref node = some e →
    ∃! k, c.index.lookup k = some node
  keys_distinct : c.keysByRecency.Nodup
  size_eq : Index.size c.index = c.entries.size
  bounded : ∀ n, c.capacity = some n → c.size ≤ n

theorem repInv_of_wf {c : Cache} (h : c.WF) : c.RepInv where
  index_points := fun _ _ hk => (linked_lookup h.linked).mp hk
  node_referenced := by
    intro node e he
    refine ⟨e.key, (linked_lookup h.linked).mpr ⟨e, he, rfl⟩, fun k hk => ?_⟩
    obtain ⟨e', he', rfl⟩ := (linked_lookup h.linked).mp hk
    rw [he] at he'
    cases he'
    rfl
  keys_distinct := linked_nodup h.linked
  size_eq := by rw [linked_size h.linked, RecencyList.toList, List.length_map, RecencyList.size]
  bounded := h.bounded

/-- The states in which the trimming loop, started from `c`, calls `evict_oldest`. -/
inductive EvictsAt (c : Cache) : Cache → Prop
  | first : c.overCapacity = true → EvictsAt c c
  | next {c₁ c₂ : Cache} : EvictsAt c c₁ → c₁.evictOldest = some c₂ → c₂.overCapacity = true →
      EvictsAt c c₂

theorem evictsAt_linked {c c' : Cache} (h : Linked c.index c.entries) (he : EvictsAt c c') :
    Linked c'.index c'.entries ∧ c'.overCapacity = true := by
  induction he with
  | first hover => exact ⟨h, hover⟩
  | next _ hev hover ih =>
    obtain ⟨c₂, hc₂, hlinked, -⟩ := evictOldest_spec ih.1 ih.2
    rw [hev] at hc₂
    cases hc₂
    exact ⟨hlinked, hover⟩

theorem evictsAt_nonempty {c c' : Cache} (h : Linked c.index c.entries) (he : EvictsAt c c') :
    (∃ victim, c'.entries.oldest = some victim) ∧ ∃ l, c'.entries.popOldest = some l := by
  obtain ⟨hlinked, hover⟩ := evictsAt_linked h he
  obtain ⟨n, -, hlt⟩ := overCapacity_iff.mp hover
  have hpos : 0 < c'.entries.toList.length :=
    Nat.lt_of_lt_of_eq (Nat.zero_lt_of_lt hlt) (linked_size hlinked)
  obtain ⟨victim, l, hold, hpop, -⟩ := linked_popOldest hlinked (List.length_pos_iff.mp hpos)
  exact ⟨⟨victim, hold⟩, l, hpop⟩

/-- Whatever the capacity, the calls and their clock readings: starting from an empty cache every
call is defined and the representation invariant holds at the end. From there, when a `store` of a
new key starts the trimming loop, each round finds a non-empty list, and the loop ends. -/
theorem run_repInv (capacity : Option Nat) (calls : List (Time × Op)) :
    ∃ c rs, (Cache.new capacity).run calls = some (c, rs) ∧ c.capacity = capacity ∧ c.RepInv ∧
      ∀ e : Entry, c.index.lookup e.key = none →
        (∀ c₁, EvictsAt (c.insertNew e) c₁ →
          (∃ victim, c₁.entries.oldest = some victim) ∧ ∃ l, c₁.entries.popOldest = some l) ∧
        ∃ c', (c.insertNew e).trim = some c' ∧ c'.RepInv := by
  obtain ⟨c, hrun, hwf, habs⟩ := run_refines (wf_new capacity) calls
  refine ⟨c, _, hrun, ?_, repInv_of_wf hwf, fun e hk => ?_⟩
  · have hcap : c.abs.capacity = capacity := by
      rw [habs]
      exact Machine.runTotal_invariant (P := fun s : Lru => s.capacity = capacity)
        (fun s call hs => (Lru.step_capacity s call).trans hs) rfl calls
    exact hcap
  · have hlinked := (linked_insert hwf.linked hk).1
    obtain ⟨c', htrim, hwf', -⟩ := trim_spec (c := c.insertNew e) hlinked
    exact ⟨fun c₁ he => evictsAt_nonempty hlinked he, c', htrim, repInv_of_wf hwf'⟩

end CacheX
