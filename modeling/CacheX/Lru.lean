import CacheX.Lib.Keyed
import CacheX.Cache

/-!
# What the cache is for

The cache without its two structures: a list of entries with distinct keys, most recently used
first, cut back to the capacity. Each operation is one list operation of `CacheX.Lib.Keyed`. This
is the abstract model that `CacheX.Invariant` shows the code to implement.
-/

namespace CacheX

/-- An LRU cache as a list, most recently used first. -/
structure Lru where
  capacity : Option Nat
  items : List Entry
  evictions : Nat
  expiredRemovals : Nat
deriving DecidableEq, Repr

namespace Lru

def new (capacity : Option Nat) : Lru := ⟨capacity, [], 0, 0⟩

def find (s : Lru) (key : Bytes) : Option Entry := Keyed.find Entry.key key s.items

def touch (s : Lru) (entry : Entry) : Lru :=
  { s with items := Keyed.front Entry.key entry s.items }

/-- Evicts whatever does not fit, the least recently used first. -/
def cut (s : Lru) : Lru :=
  { s with
    items := Keyed.atMost s.capacity s.items
    evictions := s.evictions + (s.items.length - (Keyed.atMost s.capacity s.items).length) }

/-- Puts an entry in front and evicts whatever no longer fits. -/
def store (s : Lru) (entry : Entry) : Lru := (s.touch entry).cut

def drop (s : Lru) (key : Bytes) : Lru := { s with items := Keyed.without Entry.key key s.items }

/-- Drops the entry of a key and counts it as expired. -/
def expire (s : Lru) (key : Bytes) : Lru :=
  { s.drop key with expiredRemovals := s.expiredRemovals + 1 }

/-- Whether the entry of `key`, if there is one, has run out. -/
def stale (s : Lru) (now : Time) (key : Bytes) : Bool := (s.find key).any (isExpired now)

/-- Drops the entry of `key` if it has run out. -/
def reclaim (s : Lru) (now : Time) (key : Bytes) : Lru :=
  if s.stale now key then s.expire key else s

def erase (s : Lru) (now : Time) (key : Bytes) : Lru × Bool :=
  match s.find key with
  | none => (s, false)
  | some entry => if isExpired now entry then (s.expire key, false) else (s.drop key, true)

def setTtl (s : Lru) (now : Time) (key value : Bytes) (ttl : Millis) : Lru :=
  if ttl ≤ 0 then (s.erase now key).1
  else s.store ⟨key, value, some (now + ttl * nanosPerMilli)⟩

/-- A lookup that counts as a use. -/
def get (s : Lru) (now : Time) (key : Bytes) : Lru × Option Bytes :=
  match (s.reclaim now key).find key with
  | none => (s.reclaim now key, none)
  | some entry => ((s.reclaim now key).touch entry, some entry.value)

/-- The time-to-live of an entry that has not run out. -/
def ttlOf (now : Time) (entry : Entry) : TtlInfo :=
  match entry.expiresAt with
  | none => ⟨.persistent, 0⟩
  | some deadline => ⟨.expiring, toMillis (deadline - now)⟩

def ttl (s : Lru) (now : Time) (key : Bytes) : Lru × TtlInfo :=
  match (s.reclaim now key).find key with
  | none => (s.reclaim now key, ⟨.missing, 0⟩)
  | some entry => (s.reclaim now key, ttlOf now entry)

def contains (s : Lru) (now : Time) (key : Bytes) : Bool :=
  (s.find key).any fun entry => !isExpired now entry

def exportEntries (s : Lru) (now : Time) : List EntrySnapshot :=
  s.items.filterMap (Cache.exportEntry now)

def step (s : Lru) (call : Time × Op) : Lru × Reply :=
  match call.2 with
  | .set key value => (s.store ⟨key, value, none⟩, .unit)
  | .setTtl key value ttl => (s.setTtl call.1 key value ttl, .unit)
  | .get key => ((s.get call.1 key).1, .value (s.get call.1 key).2)
  | .getInto key out =>
    match (s.get call.1 key).2 with
    | none => ((s.get call.1 key).1, .into false out)
    | some value => ((s.get call.1 key).1, .into true value)
  | .ttl key => ((s.ttl call.1 key).1, .ttl (s.ttl call.1 key).2)
  | .erase key => ((s.erase call.1 key).1, .bool (s.erase call.1 key).2)
  | .contains key => (s, .bool (s.contains call.1 key))
  | .clear => ({ s with items := [] }, .unit)
  | .exportEntries => (s, .exported (s.exportEntries call.1))

/-- Distinct keys, and no more entries than the capacity. -/
structure WF (s : Lru) : Prop where
  nodup : Keyed.NodupBy Entry.key s.items
  bounded : ∀ n ∈ s.capacity, s.items.length ≤ n

/-! ## The three cases of a lookup -/

theorem erase_absent {s : Lru} {now : Time} {k : Bytes} (h : s.find k = none) :
    s.erase now k = (s, false) := by
  simp only [erase, h]

theorem erase_live {s : Lru} {now : Time} {k : Bytes} {e : Entry} (h : s.find k = some e)
    (hx : isExpired now e = false) : s.erase now k = (s.drop k, true) := by
  simp [erase, h, hx]

theorem erase_expired {s : Lru} {now : Time} {k : Bytes} {e : Entry} (h : s.find k = some e)
    (hx : isExpired now e = true) : s.erase now k = (s.expire k, false) := by
  simp [erase, h, hx]

/-- A deletion leaves the entries of the other keys, whether or not the key was there. -/
theorem erase_items (s : Lru) (now : Time) (k : Bytes) :
    (s.erase now k).1.items = Keyed.without Entry.key k s.items := by
  cases hf : s.find k with
  | none =>
    rw [erase_absent hf]
    exact (Keyed.without_eq_self (Keyed.find_none.mp hf)).symm
  | some e =>
    cases hx : isExpired now e with
    | true =>
      rw [erase_expired hf hx]
      rfl
    | false =>
      rw [erase_live hf hx]
      rfl

theorem reclaim_absent {s : Lru} {now : Time} {k : Bytes} (h : s.find k = none) :
    s.reclaim now k = s := by
  simp [reclaim, stale, h]

theorem reclaim_live {s : Lru} {now : Time} {k : Bytes} {e : Entry} (h : s.find k = some e)
    (hx : isExpired now e = false) : s.reclaim now k = s := by
  simp [reclaim, stale, h, hx]

theorem reclaim_expired {s : Lru} {now : Time} {k : Bytes} {e : Entry} (h : s.find k = some e)
    (hx : isExpired now e = true) : s.reclaim now k = s.expire k := by
  simp [reclaim, stale, h, hx]

theorem find_expire (s : Lru) (k : Bytes) : (s.expire k).find k = none :=
  Keyed.find_without_self k s.items

theorem get_absent {s : Lru} {now : Time} {k : Bytes} (h : s.find k = none) :
    s.get now k = (s, none) := by
  simp only [get, reclaim_absent h, h]

theorem get_live {s : Lru} {now : Time} {k : Bytes} {e : Entry} (h : s.find k = some e)
    (hx : isExpired now e = false) : s.get now k = (s.touch e, some e.value) := by
  simp only [get, reclaim_live h hx, h]

theorem get_expired {s : Lru} {now : Time} {k : Bytes} {e : Entry} (h : s.find k = some e)
    (hx : isExpired now e = true) : s.get now k = (s.expire k, none) := by
  simp only [get, reclaim_expired h hx, find_expire]

theorem ttl_absent {s : Lru} {now : Time} {k : Bytes} (h : s.find k = none) :
    s.ttl now k = (s, ⟨.missing, 0⟩) := by
  simp only [ttl, reclaim_absent h, h]

theorem ttl_live {s : Lru} {now : Time} {k : Bytes} {e : Entry} (h : s.find k = some e)
    (hx : isExpired now e = false) : s.ttl now k = (s, ttlOf now e) := by
  simp only [ttl, reclaim_live h hx, h]

theorem ttl_expired {s : Lru} {now : Time} {k : Bytes} {e : Entry} (h : s.find k = some e)
    (hx : isExpired now e = true) : s.ttl now k = (s.expire k, ⟨.missing, 0⟩) := by
  simp only [ttl, reclaim_expired h hx, find_expire]

theorem contains_absent {s : Lru} {now : Time} {k : Bytes} (h : s.find k = none) :
    s.contains now k = false := by
  simp [contains, h]

theorem contains_present {s : Lru} {now : Time} {k : Bytes} {e : Entry} (h : s.find k = some e) :
    s.contains now k = !isExpired now e := by
  simp [contains, h]

/-- A stored entry is found where there is room for one. -/
theorem find_store_self {s : Lru} (hcap : s.capacity ≠ some 0) (e : Entry) :
    (s.store e).find e.key = some e := by
  show Keyed.find Entry.key e.key (Keyed.atMost s.capacity (Keyed.front Entry.key e s.items)) = _
  cases hc : s.capacity with
  | none => exact Keyed.find_cons_self e _
  | some n =>
    cases n with
    | zero => exact absurd hc hcap
    | succ n => exact Keyed.find_cons_self e _

/-- `get_into` does to the cache what `get` does. -/
theorem step_getInto (s : Lru) (now : Time) (k out : Bytes) :
    (s.step (now, .getInto k out)).1 = (s.get now k).1 := by
  simp only [step]
  split <;> rfl

/-- `ttl` does nothing to the cache but to drop an entry that has run out. -/
theorem ttl_reclaims (s : Lru) (now : Time) (k : Bytes) : (s.ttl now k).1 = s.reclaim now k := by
  unfold ttl
  split <;> rfl

/-! ## The capacity never changes -/

theorem reclaim_capacity (s : Lru) (now : Time) (k : Bytes) :
    (s.reclaim now k).capacity = s.capacity := by
  unfold reclaim
  split <;> rfl

theorem erase_capacity (s : Lru) (now : Time) (k : Bytes) :
    (s.erase now k).1.capacity = s.capacity := by
  unfold erase
  split
  · rfl
  · split <;> rfl

theorem get_capacity (s : Lru) (now : Time) (k : Bytes) :
    (s.get now k).1.capacity = s.capacity := by
  unfold get
  split
  · exact reclaim_capacity s now k
  · exact reclaim_capacity s now k

theorem step_capacity (s : Lru) (call : Time × Op) : (s.step call).1.capacity = s.capacity := by
  obtain ⟨now, op⟩ := call
  cases op with
  | set k v => rfl
  | setTtl k v ttl =>
    show (s.setTtl now k v ttl).capacity = s.capacity
    unfold setTtl
    split
    · exact erase_capacity s now k
    · rfl
  | get k => exact get_capacity s now k
  | getInto k out =>
    rw [step_getInto]
    exact get_capacity s now k
  | ttl k =>
    show (s.ttl now k).1.capacity = s.capacity
    rw [ttl_reclaims]
    exact reclaim_capacity s now k
  | erase k => exact erase_capacity s now k
  | contains k => rfl
  | clear => rfl
  | exportEntries => rfl

/-! ## The cut -/

theorem cut_of_fits {s : Lru} (h : ∀ n ∈ s.capacity, s.items.length ≤ n) : s.cut = s := by
  rw [cut, Keyed.atMost_eq_self h, Nat.sub_self]
  rfl

/-- Evicting the oldest entry of an overfull cache first does not change the cut. -/
theorem cut_evict {s : Lru} {n : Nat} (hn : n ∈ s.capacity) (h : n < s.items.length) :
    { s with items := s.items.dropLast, evictions := s.evictions + 1 : Lru }.cut = s.cut := by
  have hcap : s.capacity = some n := hn
  simp only [cut, hcap, Keyed.atMost, List.dropLast_eq_take, List.take_take, List.length_take]
  rw [Nat.min_eq_left (by omega : n ≤ s.items.length - 1)]
  congr 1
  omega

/-- Putting a resident key in front does not change the number of entries. -/
theorem touch_fits {s : Lru} (h : s.WF) {e e' : Entry} (hf : s.find e.key = some e') :
    ∀ n ∈ (s.touch e).capacity, (s.touch e).items.length ≤ n := by
  intro n hn
  show (Keyed.front Entry.key e s.items).length ≤ n
  rw [Keyed.front, List.length_cons, Keyed.length_without h.nodup hf]
  exact h.bounded n hn

theorem store_present {s : Lru} (h : s.WF) {e e' : Entry} (hf : s.find e.key = some e') :
    s.store e = s.touch e :=
  cut_of_fits (touch_fits h hf)

end Lru

end CacheX
