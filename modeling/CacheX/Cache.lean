import CacheX.Lib.Machine
import CacheX.RecencyList

/-!
# The cache

`Cache` of `cache.hpp` and `cache.cpp`: a hash map of iterators (`index`) over a recency list that
owns the entries (`entries`). Each operation is the source's, statement by statement. A result of
`none` is undefined behaviour: a dangling iterator was used, or the oldest entry of an empty list
was asked for. `Cache.step` runs one call of the public interface, and a clock reading comes with
every call: no operation reads `steady_clock::now()` more than once.

`std::unordered_map` has one value per key and its order is not used, so it is an `AList`. The
two `size_t` counters are natural numbers.
-/

namespace CacheX

/-- The three states of a key's time-to-live. -/
inductive TtlState
  | missing
  | persistent
  | expiring
deriving DecidableEq, Repr

/-- `remaining` is zero unless the state is `expiring`. -/
structure TtlInfo where
  state : TtlState
  remaining : Millis
deriving DecidableEq, Repr

/-- One entry as an outside observer sees it: a remaining duration, not a deadline. -/
structure EntrySnapshot where
  key : Bytes
  value : Bytes
  remainingTtl : Option Millis
deriving DecidableEq, Repr

/-- Whether an entry's deadline has passed at the clock reading `now`. -/
def isExpired (now : Time) (entry : Entry) : Bool :=
  match entry.expiresAt with
  | none => false
  | some deadline => decide (deadline ≤ now)

/-- `duration_cast<milliseconds>`: truncation toward zero. -/
def toMillis (nanos : Int) : Millis := nanos.tdiv nanosPerMilli

/-- `unordered_map<key, iterator>`. -/
abbrev Index := AList (fun _ : Bytes => NodeId)

namespace Index

def size (m : Index) : Nat := m.entries.length

/-- `emplace` leaves an existing entry alone. -/
def emplace (m : Index) (key : Bytes) (node : NodeId) : Index :=
  if key ∈ m then m else m.insert key node

end Index

/-- `capacity = none` is an unbounded cache. -/
structure Cache where
  entries : RecencyList
  index : Index
  capacity : Option Nat
  evictions : Nat
  expiredRemovals : Nat

namespace Cache

/-- A new cache: `Cache()` for `none`, `Cache(n)` for `some n`. -/
def new (capacity : Option Nat) : Cache := ⟨.empty, ∅, capacity, 0, 0⟩

def size (c : Cache) : Nat := Index.size c.index

/-- Removes an index entry `(key, node)` from both structures. -/
def remove (c : Cache) (key : Bytes) (node : NodeId) : Option Cache := do
  let entries ← c.entries.erase node
  some { c with entries := entries, index := c.index.erase key }

/-- Removes the least recently used entry: from the list to the map, through the key in the node. -/
def evictOldest (c : Cache) : Option Cache := do
  let victim ← c.entries.oldest
  let entries ← c.entries.popOldest
  some { c with
    entries := entries, index := c.index.erase victim.key, evictions := c.evictions + 1 }

/-- The test of the trimming loop: `capacity_.has_value() && index_.size() > *capacity_`. -/
def overCapacity (c : Cache) : Bool :=
  match c.capacity with
  | none => false
  | some n => decide (n < c.size)

/-- At most `fuel` rounds of `while (overCapacity) evict_oldest();`. -/
def trimLoop : Nat → Cache → Option Cache
  | 0, c => if c.overCapacity then none else some c
  | fuel + 1, c => if c.overCapacity then c.evictOldest.bind (trimLoop fuel) else some c

/-- The trimming loop. A round pops one list node, so after as many rounds as there are nodes the
next round would ask for the oldest entry of an empty list: the fuel is never what ends the loop
(`trim_eq`). -/
def trim (c : Cache) : Option Cache := trimLoop c.entries.size c

/-- A new node in front, and its index entry. -/
def insertNew (c : Cache) (entry : Entry) : Cache :=
  let inserted := c.entries.insertNewest entry
  { c with entries := inserted.1, index := Index.emplace c.index entry.key inserted.2 }

/-- The shared body of both `set` overloads. -/
def store (c : Cache) (key value : Bytes) (expiresAt : Option Time) : Option Cache :=
  match c.index.lookup key with
  | some node => do
    -- overwrite in place, expiry included, then move to the front
    let entry ← c.entries.deref node
    let entries ← c.entries.assign node { entry with value := value, expiresAt := expiresAt }
    let entries ← entries.markUsed node
    some { c with entries := entries }
  | none => (c.insertNew ⟨key, value, expiresAt⟩).trim

/-- `erase(key)`: an expired entry is reclaimed but reported as absent. -/
def erase (c : Cache) (now : Time) (key : Bytes) : Option (Cache × Bool) :=
  match c.index.lookup key with
  | none => some (c, false)
  | some node => do
    let entry ← c.entries.deref node
    let wasVisible := !isExpired now entry
    let c := if wasVisible then c else { c with expiredRemovals := c.expiredRemovals + 1 }
    let c ← c.remove key node
    some (c, wasVisible)

/-- `set(key, value)`. -/
def set (c : Cache) (key value : Bytes) : Option Cache := c.store key value none

/-- `set(key, value, ttl)`: a `ttl` of zero or less erases. -/
def setTtl (c : Cache) (now : Time) (key value : Bytes) (ttl : Millis) : Option Cache :=
  if ttl ≤ 0 then (c.erase now key).map Prod.fst
  else c.store key value (some (now + ttl * nanosPerMilli))

/-- Looks up a key that is present and not expired; an expired entry is reclaimed on the way. -/
def findLive (c : Cache) (now : Time) (key : Bytes) : Option (Cache × Option NodeId) :=
  match c.index.lookup key with
  | none => some (c, none)
  | some node => do
    let entry ← c.entries.deref node
    if isExpired now entry then
      let c ← c.remove key node
      some ({ c with expiredRemovals := c.expiredRemovals + 1 }, none)
    else some (c, some node)

/-- The common body of `get` and `get_into`: a hit moves the entry to the front. -/
def use (c : Cache) (now : Time) (key : Bytes) : Option (Cache × Option Bytes) := do
  let found ← c.findLive now key
  match found.2 with
  | none => some (found.1, none)
  | some node =>
    let entries ← found.1.entries.markUsed node
    let entry ← entries.deref node
    some ({ found.1 with entries := entries }, some entry.value)

def get (c : Cache) (now : Time) (key : Bytes) : Option (Cache × Option Bytes) := c.use now key

/-- `get_into(key, out)`: on a miss `out` is left untouched. -/
def getInto (c : Cache) (now : Time) (key out : Bytes) : Option (Cache × Bool × Bytes) := do
  let found ← c.use now key
  match found.2 with
  | none => some (found.1, false, out)
  | some value => some (found.1, true, value)

def ttl (c : Cache) (now : Time) (key : Bytes) : Option (Cache × TtlInfo) :=
  match c.index.lookup key with
  | none => some (c, ⟨.missing, 0⟩)
  | some node => do
    let entry ← c.entries.deref node
    match entry.expiresAt with
    | none => some (c, ⟨.persistent, 0⟩)
    | some deadline =>
      if deadline ≤ now then
        let c ← c.remove key node
        some ({ c with expiredRemovals := c.expiredRemovals + 1 }, ⟨.missing, 0⟩)
      else some (c, ⟨.expiring, toMillis (deadline - now)⟩)

def contains (c : Cache) (now : Time) (key : Bytes) : Option Bool :=
  match c.index.lookup key with
  | none => some false
  | some node => do
    let entry ← c.entries.deref node
    some (!isExpired now entry)

def clear (c : Cache) : Cache := { c with index := ∅, entries := c.entries.clear }

/-- The snapshot of one entry, unless its deadline has passed. -/
def exportEntry (now : Time) (entry : Entry) : Option EntrySnapshot :=
  match entry.expiresAt with
  | none => some ⟨entry.key, entry.value, none⟩
  | some deadline =>
    if deadline ≤ now then none
    else some ⟨entry.key, entry.value, some (toMillis (deadline - now))⟩

/-- Every live entry, most recently used first. -/
def exportEntries (c : Cache) (now : Time) : List EntrySnapshot :=
  c.entries.toList.filterMap (exportEntry now)

def keysByRecency (c : Cache) : List Bytes := c.entries.toList.map Entry.key

end Cache

/-! ## Calls -/

/-- One call of the public interface. `out` is the content of the caller's buffer. -/
inductive Op
  | set (key value : Bytes)
  | setTtl (key value : Bytes) (ttl : Millis)
  | get (key : Bytes)
  | getInto (key out : Bytes)
  | ttl (key : Bytes)
  | erase (key : Bytes)
  | contains (key : Bytes)
  | clear
  | exportEntries
deriving DecidableEq, Repr

/-- The key of a single-key call. -/
def Op.key : Op → Option Bytes
  | .set key _ => some key
  | .setTtl key _ _ => some key
  | .get key => some key
  | .getInto key _ => some key
  | .ttl key => some key
  | .erase key => some key
  | .contains key => some key
  | .clear => none
  | .exportEntries => none

/-- What a call returns. `into hit out` has the buffer after `get_into`. -/
inductive Reply
  | unit
  | value (v : Option Bytes)
  | into (hit : Bool) (out : Bytes)
  | ttl (info : TtlInfo)
  | bool (b : Bool)
  | exported (entries : List EntrySnapshot)
deriving DecidableEq, Repr

/-- One call on the cache at the clock reading `now`. -/
def Cache.step (c : Cache) (call : Time × Op) : Option (Cache × Reply) :=
  match call.2 with
  | .set key value => (c.set key value).map fun c => (c, .unit)
  | .setTtl key value ttl => (c.setTtl call.1 key value ttl).map fun c => (c, .unit)
  | .get key => (c.get call.1 key).map fun p => (p.1, .value p.2)
  | .getInto key out => (c.getInto call.1 key out).map fun p => (p.1, .into p.2.1 p.2.2)
  | .ttl key => (c.ttl call.1 key).map fun p => (p.1, .ttl p.2)
  | .erase key => (c.erase call.1 key).map fun p => (p.1, .bool p.2)
  | .contains key => (c.contains call.1 key).map fun b => (c, .bool b)
  | .clear => some (c.clear, .unit)
  | .exportEntries => some (c, .exported (c.exportEntries call.1))

/-- A sequence of calls, each with its clock reading. -/
def Cache.run : Cache → List (Time × Op) → Option (Cache × List Reply) := Machine.run Cache.step

end CacheX
