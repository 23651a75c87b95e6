import Mathlib.Algebra.Order.Ring.Int
import Mathlib.Data.List.AList

/-!
# The recency list

`RecencyList` of `recency_list.hpp`: a `std::list<Entry>`, most recently used first. The list owns
its nodes and everything else holds iterators into it, so a node has an identity that survives
reordering. Here an iterator is a `NodeId` and the list is an `AList` from node ids to entries, in
list order. Two nodes of a `std::list` are never the same node; the `AList` carries that fact.
A new node gets the id `fresh`, which no node of the list has.

An operation through an iterator that is not in the list, and `oldest` and `popOldest` of an empty
list, are undefined in the source. They are `none` here.
-/

namespace CacheX

/-- The contents of a `std::string`: bytes, NUL and newline included. -/
abbrev Bytes := List UInt8

/-- A `steady_clock` time point in nanoseconds. -/
abbrev Time := Int

/-- A `std::chrono::milliseconds` count. -/
abbrev Millis := Int

/-- The clock's ticks in one millisecond. -/
def nanosPerMilli : Int := 1000000

/-- One cached key-value pair. `expiresAt = none` is an entry that never expires. -/
structure Entry where
  key : Bytes
  value : Bytes
  expiresAt : Option Time := none
deriving DecidableEq, Repr

/-- The identity of a list node, which is what an iterator denotes. -/
abbrev NodeId := Nat

/-- The recency ordering: most recently used at the front. -/
@[ext]
structure RecencyList where
  nodes : AList (fun _ : NodeId => Entry)
  fresh : NodeId
  fresh_gt : ∀ id ∈ nodes, id < fresh

namespace RecencyList

def empty : RecencyList := ⟨∅, 0, fun id h => absurd h (AList.notMem_empty id)⟩

/-- The entries front to back. -/
def toList (l : RecencyList) : List Entry := l.nodes.entries.map fun node => node.2

def size (l : RecencyList) : Nat := l.nodes.entries.length

/-- The entry an iterator refers to. -/
def deref (l : RecencyList) (it : NodeId) : Option Entry := l.nodes.lookup it

/-- `push_front`, and the iterator to the new node. -/
def insertNewest (l : RecencyList) (entry : Entry) : RecencyList × NodeId :=
  (⟨l.nodes.insert l.fresh entry, l.fresh + 1, fun id h => by
      rcases (AList.mem_insert l.nodes).mp h with rfl | h
      · exact Nat.lt_succ_self _
      · exact Nat.lt_succ_of_lt (l.fresh_gt id h)⟩, l.fresh)

/-- An assignment through an iterator: the node keeps its place and its identity. -/
def assign (l : RecencyList) (it : NodeId) (entry : Entry) : Option RecencyList :=
  if it ∈ l.nodes then
    some ⟨l.nodes.replace it entry, l.fresh, fun id h => l.fresh_gt id (AList.mem_replace.mp h)⟩
  else none

/-- `splice` to the front: the node itself moves, so `it` stays valid. -/
def markUsed (l : RecencyList) (it : NodeId) : Option RecencyList :=
  match h : l.nodes.lookup it with
  | none => none
  | some entry => some ⟨l.nodes.insert it entry, l.fresh, fun id hid => by
      rcases (AList.mem_insert l.nodes).mp hid with rfl | hid
      · exact l.fresh_gt id (AList.lookup_isSome.mp (by rw [h]; rfl))
      · exact l.fresh_gt id hid⟩

def erase (l : RecencyList) (it : NodeId) : Option RecencyList :=
  if it ∈ l.nodes then
    some ⟨l.nodes.erase it, l.fresh, fun id h => l.fresh_gt id (AList.mem_erase.mp h).2⟩
  else none

/-- The least recently used entry. -/
def oldest (l : RecencyList) : Option Entry := l.toList.getLast?

/-- `pop_back`. -/
def popOldest (l : RecencyList) : Option RecencyList :=
  if l.nodes.entries = [] then none
  else some ⟨⟨l.nodes.entries.dropLast, l.nodes.nodupKeys.sublist (List.dropLast_sublist _)⟩,
    l.fresh, fun id h => l.fresh_gt id (((List.dropLast_sublist _).map _).subset h)⟩

def clear (l : RecencyList) : RecencyList :=
  ⟨∅, l.fresh, fun id h => absurd h (AList.notMem_empty id)⟩

/-! ## What an operation does to the nodes -/

theorem dlookup_kreplace {a : NodeId} (b : Entry) :
    ∀ {l : List (Σ _ : NodeId, Entry)}, a ∈ l.keys →
      (List.kreplace a b l).dlookup a = some b
  | [], h => absurd h List.not_mem_nil
  | s :: l, h => by
    by_cases ha : a = s.1
    · have hr : List.kreplace a b (s :: l) = ⟨a, b⟩ :: l := List.lookmap_cons_some _ l (if_pos ha)
      rw [hr, List.dlookup_cons_eq]
    · have hr : List.kreplace a b (s :: l) = s :: List.kreplace a b l :=
        List.lookmap_cons_none _ l (if_neg ha)
      rw [hr, List.dlookup_cons_ne _ _ ha]
      refine dlookup_kreplace b ?_
      rw [List.keys_cons, List.mem_cons] at h
      exact h.resolve_left ha

theorem mem_of_deref {l : RecencyList} {it : NodeId} {e : Entry} (h : l.deref it = some e) :
    it ∈ l.nodes :=
  AList.lookup_isSome.mp (by rw [show l.nodes.lookup it = some e from h]; rfl)

theorem fresh_notMem (l : RecencyList) : l.fresh ∉ l.nodes :=
  fun h => absurd (l.fresh_gt _ h) (Nat.lt_irrefl _)

theorem insertNewest_entries (l : RecencyList) (e : Entry) :
    (l.insertNewest e).1.nodes.entries = ⟨l.fresh, e⟩ :: l.nodes.entries :=
  AList.entries_insert_of_notMem l.fresh_notMem

theorem assign_of_deref {l : RecencyList} {it : NodeId} {e₀ : Entry} (h : l.deref it = some e₀)
    (e : Entry) :
    ∃ l', l.assign it e = some l' ∧ l'.nodes = l.nodes.replace it e ∧ l'.deref it = some e :=
  ⟨_, if_pos (mem_of_deref h), rfl, dlookup_kreplace e (AList.mem_keys.mp (mem_of_deref h))⟩

theorem markUsed_of_deref {l : RecencyList} {it : NodeId} {e : Entry} (h : l.deref it = some e) :
    ∃ l', l.markUsed it = some l' ∧ l'.nodes = l.nodes.insert it e ∧ l'.deref it = some e := by
  have hl : l.nodes.lookup it = some e := h
  unfold markUsed
  split
  · next hn =>
    rw [hl] at hn
    cases hn
  · next e' hn =>
    rw [hl] at hn
    cases hn
    exact ⟨_, rfl, rfl, AList.lookup_insert _⟩

theorem erase_of_deref {l : RecencyList} {it : NodeId} {e : Entry} (h : l.deref it = some e) :
    ∃ l', l.erase it = some l' ∧ l'.nodes = l.nodes.erase it :=
  ⟨_, if_pos (mem_of_deref h), rfl⟩

theorem popOldest_of_ne_nil {l : RecencyList} (h : l.nodes.entries ≠ []) :
    ∃ l', l.popOldest = some l' ∧ l'.nodes.entries = l.nodes.entries.dropLast :=
  ⟨_, if_neg h, rfl⟩

end RecencyList

end CacheX
