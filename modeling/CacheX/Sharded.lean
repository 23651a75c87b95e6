import CacheX.History
import Mathlib.Algebra.Order.BigOperators.Group.List
import Mathlib.Algebra.Order.Group.Nat

/-!
# The sharded cache

`ShardedCache` of `sharded_cache.cpp`: independent caches, each behind its own mutex
(`SyncCache`), and a hash that says which one owns a key. A call on a key is a call on the shard
that owns it; `clear`, `size`, `export_entries` and the counters go over all shards. The
specification of `std::hash<std::string>` says nothing about its values, so `stdHash` is any
function.

Main results: `step_spec`, a call on a key changes the shard that owns it as the abstract cache of
that shard changes, and no other shard; `wf_run`, after any calls every shard is well formed and
every resident key is in the shard that owns it; `capacity_split`, how the shards of a bounded cache
share its capacity.
-/

namespace CacheX

section Hash

variable (stdHash : Bytes → UInt64)

/-- `shard_hash`: the finalizer of splitmix64 on top of `std::hash`. -/
def shardHash (key : Bytes) : UInt64 :=
  let h := stdHash key
  let h := h ^^^ (h >>> 30)
  let h := h * 0xbf58476d1ce4e5b9
  let h := h ^^^ (h >>> 27)
  let h := h * 0x94d049bb133111eb
  h ^^^ (h >>> 31)

end Hash

def saneShardCount (requested : Nat) : Nat := if requested = 0 then 1 else requested

/-- The shards. There is always at least one. -/
structure ShardedCache where
  shards : List Cache
  nonempty : 0 < shards.length

open InvariantLemmas

namespace ShardedCache

/-- The constructor without a capacity. -/
def unbounded (shardCount : Nat) : ShardedCache where
  shards := List.replicate (saneShardCount shardCount) (Cache.new none)
  nonempty := by
    rw [List.length_replicate]
    unfold saneShardCount
    split <;> omega

/-- How many shards a bounded cache has: no shard is left with capacity 0 unless the total is 0. -/
def boundedCount (shardCount totalCapacity : Nat) : Nat :=
  let count := saneShardCount shardCount
  if totalCapacity < count then max 1 totalCapacity else count

theorem boundedCount_pos (shardCount totalCapacity : Nat) :
    0 < boundedCount shardCount totalCapacity := by
  simp only [boundedCount, saneShardCount]
  split <;> split <;> omega

/-- The constructor with a capacity. The first few shards take the remainder. -/
def bounded (shardCount totalCapacity : Nat) : ShardedCache where
  shards :=
    let count := boundedCount shardCount totalCapacity
    let base := totalCapacity / count
    let remainder := totalCapacity % count
    (List.range count).map fun i => Cache.new (some (base + if i < remainder then 1 else 0))
  nonempty := by
    rw [List.length_map, List.length_range]
    exact boundedCount_pos _ _

def size (sc : ShardedCache) : Nat := (sc.shards.map Cache.size).sum

def evictions (sc : ShardedCache) : Nat := (sc.shards.map Cache.evictions).sum

def expiredRemovals (sc : ShardedCache) : Nat := (sc.shards.map Cache.expiredRemovals).sum

/-- The first shard says whether the cache is bounded: all shards are created alike. -/
def capacity (sc : ShardedCache) : Option Nat :=
  match (sc.shards.head (List.ne_nil_of_length_pos sc.nonempty)).capacity with
  | none => none
  | some _ => some (sc.shards.map fun c => c.capacity.getD 0).sum

def clear (sc : ShardedCache) : ShardedCache :=
  ⟨sc.shards.map Cache.clear, by rw [List.length_map]; exact sc.nonempty⟩

/-- One shard after the other; each one reads the clock for itself. -/
def exportEntries (sc : ShardedCache) (clock : Nat → Time) : List EntrySnapshot :=
  sc.shards.zipIdx.flatMap fun p => p.1.exportEntries (clock p.2)

/-- The cache with another shard at position `i`. -/
def setShard (sc : ShardedCache) (i : Nat) (c : Cache) : ShardedCache :=
  ⟨sc.shards.set i c, by rw [List.length_set]; exact sc.nonempty⟩

section Hash

variable (stdHash : Bytes → UInt64)

def shardIndexFor (sc : ShardedCache) (key : Bytes) : Nat :=
  (shardHash stdHash key).toNat % sc.shards.length

theorem shardIndexFor_lt (sc : ShardedCache) (key : Bytes) :
    sc.shardIndexFor stdHash key < sc.shards.length :=
  Nat.mod_lt _ sc.nonempty

def shardFor (sc : ShardedCache) (key : Bytes) : Cache :=
  sc.shards.get ⟨sc.shardIndexFor stdHash key, sc.shardIndexFor_lt stdHash key⟩

/-- A call on the shard that owns a key. -/
def onShard {ρ : Type} (sc : ShardedCache) (key : Bytes) (f : Cache → Option (Cache × ρ)) :
    Option (ShardedCache × ρ) :=
  (f (sc.shardFor stdHash key)).map fun p => (sc.setShard (sc.shardIndexFor stdHash key) p.1, p.2)

def set (sc : ShardedCache) (key value : Bytes) : Option ShardedCache :=
  (sc.onShard stdHash key fun c => (c.set key value).map fun c => (c, ())).map Prod.fst

def setTtl (sc : ShardedCache) (now : Time) (key value : Bytes) (ttl : Millis) :
    Option ShardedCache :=
  (sc.onShard stdHash key fun c => (c.setTtl now key value ttl).map fun c => (c, ())).map Prod.fst

def get (sc : ShardedCache) (now : Time) (key : Bytes) : Option (ShardedCache × Option Bytes) :=
  sc.onShard stdHash key fun c => c.get now key

def getInto (sc : ShardedCache) (now : Time) (key out : Bytes) :
    Option (ShardedCache × Bool × Bytes) :=
  sc.onShard stdHash key fun c => c.getInto now key out

def erase (sc : ShardedCache) (now : Time) (key : Bytes) : Option (ShardedCache × Bool) :=
  sc.onShard stdHash key fun c => c.erase now key

def contains (sc : ShardedCache) (now : Time) (key : Bytes) : Option Bool :=
  (sc.shardFor stdHash key).contains now key

def ttl (sc : ShardedCache) (now : Time) (key : Bytes) : Option (ShardedCache × TtlInfo) :=
  sc.onShard stdHash key fun c => c.ttl now key

/-- One call of the public interface. -/
def step (sc : ShardedCache) (call : Time × Op) : Option (ShardedCache × Reply) :=
  match call.2 with
  | .set key value => (sc.set stdHash key value).map fun sc => (sc, .unit)
  | .setTtl key value ttl => (sc.setTtl stdHash call.1 key value ttl).map fun sc => (sc, .unit)
  | .get key => (sc.get stdHash call.1 key).map fun p => (p.1, .value p.2)
  | .getInto key out =>
    (sc.getInto stdHash call.1 key out).map fun p => (p.1, .into p.2.1 p.2.2)
  | .ttl key => (sc.ttl stdHash call.1 key).map fun p => (p.1, .ttl p.2)
  | .erase key => (sc.erase stdHash call.1 key).map fun p => (p.1, .bool p.2)
  | .contains key => (sc.contains stdHash call.1 key).map fun b => (sc, .bool b)
  | .clear => some (sc.clear, .unit)
  | .exportEntries => some (sc, .exported (sc.exportEntries fun _ => call.1))

def run (sc : ShardedCache) : List (Time × Op) → Option (ShardedCache × List Reply) :=
  Machine.run (step stdHash) sc

end Hash

/-! ## The abstract shards -/

/-- The shards as abstract caches. -/
def abs (sc : ShardedCache) : List Lru := sc.shards.map Cache.abs

theorem length_abs (sc : ShardedCache) : sc.abs.length = sc.shards.length :=
  List.length_map _

variable {stdHash : Bytes → UInt64}

/-- The abstract cache that owns a key. -/
def lru (stdHash : Bytes → UInt64) (sc : ShardedCache) (key : Bytes) : Lru :=
  (sc.shardFor stdHash key).abs

/-- Every shard is well formed and every resident key is in the shard that owns it. -/
structure WF (stdHash : Bytes → UInt64) (sc : ShardedCache) : Prop where
  shard : ∀ c ∈ sc.shards, c.WF
  placed : ∀ j s, sc.abs[j]? = some s → ∀ e ∈ s.items, sc.shardIndexFor stdHash e.key = j

theorem shardFor_mem (sc : ShardedCache) (k : Bytes) : sc.shardFor stdHash k ∈ sc.shards :=
  List.get_mem _ _

theorem shardFor_eq (sc : ShardedCache) (k : Bytes) :
    sc.shards[sc.shardIndexFor stdHash k]? = some (sc.shardFor stdHash k) :=
  List.getElem?_eq_getElem (sc.shardIndexFor_lt stdHash k)

theorem abs_shard {sc : ShardedCache} {i : Nat} {c : Cache} (h : sc.shards[i]? = some c) :
    sc.abs[i]? = some c.abs := by
  rw [abs, List.getElem?_map, h]
  rfl

theorem abs_shardIndexFor (sc : ShardedCache) (k : Bytes) :
    sc.abs[sc.shardIndexFor stdHash k]? = some (sc.lru stdHash k) :=
  abs_shard (sc.shardFor_eq k)

/-- The shard that holds an entry is the shard of its key. -/
theorem WF.owner {sc : ShardedCache} (h : sc.WF stdHash) {i : Nat} {c : Cache}
    (hi : sc.shards[i]? = some c) {e : Entry} (he : e ∈ c.entries.toList) :
    sc.shardIndexFor stdHash e.key = i :=
  h.placed i c.abs (abs_shard hi) e he

theorem WF.lru_wf {sc : ShardedCache} (h : sc.WF stdHash) (k : Bytes) : (sc.lru stdHash k).WF :=
  abs_wf (h.shard _ (sc.shardFor_mem k))

/-- The abstract cache of a key depends on the abstract shards only. -/
theorem lru_eq {sc : ShardedCache} {k : Bytes} {s : Lru}
    (h : sc.abs[sc.shardIndexFor stdHash k]? = some s) : sc.lru stdHash k = s := by
  rw [abs_shardIndexFor] at h
  exact Option.some.inj h

/-- The owner of a key depends on the number of shards only. -/
theorem shardIndexFor_of_length {sc sc' : ShardedCache} (h : sc'.shards.length = sc.shards.length)
    (k : Bytes) : sc'.shardIndexFor stdHash k = sc.shardIndexFor stdHash k := by
  unfold shardIndexFor
  rw [h]

theorem shardIndexFor_congr {sc sc' : ShardedCache} (h : sc'.abs.length = sc.abs.length)
    (k : Bytes) : sc'.shardIndexFor stdHash k = sc.shardIndexFor stdHash k := by
  rw [length_abs, length_abs] at h
  exact shardIndexFor_of_length h k

theorem setShard_self (sc : ShardedCache) (k : Bytes) :
    sc.setShard (sc.shardIndexFor stdHash k) (sc.shardFor stdHash k) = sc := by
  obtain ⟨shards, hne⟩ := sc
  simp only [setShard, shardFor, List.get_eq_getElem, List.set_getElem_self]

theorem wf_unbounded (shardCount : Nat) : (unbounded shardCount).WF stdHash where
  shard := by
    intro c hc
    rw [List.eq_of_mem_replicate hc]
    exact wf_new none
  placed := by
    intro j s hs e he
    obtain ⟨c, hc, rfl⟩ := List.mem_map.mp (List.mem_of_getElem? hs)
    rw [List.eq_of_mem_replicate hc] at he
    cases he

theorem wf_bounded (shardCount totalCapacity : Nat) :
    (bounded shardCount totalCapacity).WF stdHash where
  shard := by
    intro c hc
    obtain ⟨i, -, rfl⟩ := List.mem_map.mp hc
    exact wf_new _
  placed := by
    intro j s hs e he
    obtain ⟨c, hc, rfl⟩ := List.mem_map.mp (List.mem_of_getElem? hs)
    obtain ⟨i, -, rfl⟩ := List.mem_map.mp hc
    cases he

/-- A new cache with or without a total capacity. -/
def new (shardCount : Nat) : Option Nat → ShardedCache
  | none => .unbounded shardCount
  | some totalCapacity => .bounded shardCount totalCapacity

theorem wf_shardedNew (shardCount : Nat) (capacity : Option Nat) :
    (new shardCount capacity).WF stdHash := by
  cases capacity with
  | none => exact wf_unbounded shardCount
  | some n => exact wf_bounded shardCount n

theorem items_shardedNew {shardCount : Nat} {capacity : Option Nat} {s : Lru}
    (h : s ∈ (new shardCount capacity).abs) : s.items = [] := by
  cases capacity with
  | none =>
    obtain ⟨c, hc, rfl⟩ := List.mem_map.mp h
    rw [List.eq_of_mem_replicate hc]
    rfl
  | some n =>
    obtain ⟨c, hc, rfl⟩ := List.mem_map.mp h
    obtain ⟨i, -, rfl⟩ := List.mem_map.mp hc
    rfl

/-! ## One call -/

/-- A call on the shard that owns `k`, which brings no key but `k` into it. -/
theorem onShard_spec {ρ : Type} {sc : ShardedCache} (h : sc.WF stdHash) {k : Bytes}
    {f : Cache → Option (Cache × ρ)} {r : ρ} {c' : Cache}
    (hf : f (sc.shardFor stdHash k) = some (c', r)) (hc' : c'.WF)
    (hkeys : ∀ e ∈ c'.abs.items, e ∈ (sc.lru stdHash k).items ∨ e.key = k) :
    ∃ sc', sc.onShard stdHash k f = some (sc', r) ∧ sc'.WF stdHash ∧
      sc'.abs = sc.abs.set (sc.shardIndexFor stdHash k) c'.abs := by
  have habs : (sc.setShard (sc.shardIndexFor stdHash k) c').abs
      = sc.abs.set (sc.shardIndexFor stdHash k) c'.abs := List.map_set
  refine ⟨_, by rw [onShard, hf]; rfl, ⟨?_, ?_⟩, habs⟩
  · intro c hc
    rcases List.mem_or_eq_of_mem_set hc with hc | rfl
    · exact h.shard c hc
    · exact hc'
  · intro j s hs e he
    have hidx := @shardIndexFor_congr stdHash _ _
      (show (sc.setShard (sc.shardIndexFor stdHash k) c').abs.length = sc.abs.length by
        rw [habs, List.length_set]) e.key
    rw [hidx]
    rw [habs, List.getElem?_set] at hs
    split at hs
    · next hj =>
      split at hs
      · cases hs
        rcases hkeys e he with hold | rfl
        · exact hj ▸ h.placed _ _ (sc.abs_shardIndexFor k) e hold
        · exact hj
      · cases hs
    · exact h.placed j s hs e he

/-- A call on a key is a call on the shard that owns the key. -/
theorem step_eq_onShard {sc : ShardedCache} {call : Time × Op} {k : Bytes}
    (hk : call.2.key = some k) :
    sc.step stdHash call = sc.onShard stdHash k fun c => c.step call := by
  obtain ⟨now, op⟩ := call
  cases op with
  | set k' v =>
    cases hk
    simp only [step, set, onShard, Cache.step, Option.map_map]
    rfl
  | setTtl k' v ttl =>
    cases hk
    simp only [step, setTtl, onShard, Cache.step, Option.map_map]
    rfl
  | get k' =>
    cases hk
    simp only [step, get, onShard, Cache.step, Option.map_map]
    rfl
  | getInto k' out =>
    cases hk
    simp only [step, getInto, onShard, Cache.step, Option.map_map]
    rfl
  | ttl k' =>
    cases hk
    simp only [step, ttl, onShard, Cache.step, Option.map_map]
    rfl
  | erase k' =>
    cases hk
    simp only [step, erase, onShard, Cache.step, Option.map_map]
    rfl
  | contains k' =>
    cases hk
    simp only [step, contains, onShard, Cache.step, Option.map_map]
    congr 1
    funext b
    show (sc, Reply.bool b) = (sc.setShard _ _, Reply.bool b)
    rw [setShard_self]
  | clear => cases hk
  | exportEntries => cases hk

theorem step_spec {sc : ShardedCache} (h : sc.WF stdHash) {call : Time × Op} {k : Bytes}
    (hk : call.2.key = some k) :
    ∃ sc', sc.step stdHash call = some (sc', ((sc.lru stdHash k).step call).2) ∧
      sc'.WF stdHash ∧
      sc'.abs = sc.abs.set (sc.shardIndexFor stdHash k) ((sc.lru stdHash k).step call).1 := by
  obtain ⟨c', hc', hwf, habs⟩ := step_refines (h.shard _ (sc.shardFor_mem k)) call
  rw [step_eq_onShard hk, lru, ← habs]
  refine onShard_spec h hc' hwf fun e he => ?_
  rw [habs] at he
  refine (Lru.step_keys (h.lru_wf k) call he).imp id fun hek => ?_
  rw [hk] at hek
  exact (Option.some.inj hek).symm

theorem lru_congr {sc : ShardedCache} {k k' : Bytes}
    (h : sc.shardIndexFor stdHash k' = sc.shardIndexFor stdHash k) :
    sc.lru stdHash k' = sc.lru stdHash k :=
  lru_eq (by rw [h]; exact sc.abs_shardIndexFor k)

/-- The abstract cache of any key after a change of the shard that owns `k`. -/
theorem lru_set {sc sc' : ShardedCache} {k : Bytes} {s' : Lru}
    (h : sc'.abs = sc.abs.set (sc.shardIndexFor stdHash k) s') (k' : Bytes) :
    sc'.lru stdHash k' = if sc.shardIndexFor stdHash k' = sc.shardIndexFor stdHash k then s'
      else sc.lru stdHash k' := by
  have hlen : sc'.abs.length = sc.abs.length := by rw [h, List.length_set]
  refine lru_eq ?_
  rw [shardIndexFor_congr hlen, h, List.getElem?_set]
  split
  · next hi =>
    rw [if_pos (by rw [length_abs]; exact sc.shardIndexFor_lt stdHash k), if_pos hi.symm]
  · next hi => rw [if_neg (Ne.symm hi), abs_shardIndexFor]

theorem capacity_set {sc sc' : ShardedCache} {k : Bytes} {s' : Lru}
    (h : sc'.abs = sc.abs.set (sc.shardIndexFor stdHash k) s')
    (hcap : s'.capacity = (sc.lru stdHash k).capacity) :
    sc'.abs.map Lru.capacity = sc.abs.map Lru.capacity := by
  have hget : (sc.abs.map Lru.capacity)[sc.shardIndexFor stdHash k]?
      = some (sc.lru stdHash k).capacity := by
    rw [List.getElem?_map, abs_shardIndexFor]
    rfl
  obtain ⟨hlt, hold⟩ := List.getElem?_eq_some_iff.mp hget
  rw [h, List.map_set, hcap, ← hold, List.set_getElem_self]

theorem abs_clear (sc : ShardedCache) :
    sc.clear.abs = sc.abs.map fun s => { s with items := [] } := by
  simp only [abs, clear, List.map_map]
  rfl

theorem wf_clear (sc : ShardedCache) : sc.clear.WF stdHash where
  shard := by
    intro c hc
    obtain ⟨c₀, hc₀, rfl⟩ := List.mem_map.mp hc
    exact ⟨linked_clear _, fun n _ => Nat.zero_le n⟩
  placed := by
    intro j s hs e he
    rw [abs_clear] at hs
    obtain ⟨s₀, -, rfl⟩ := List.mem_map.mp (List.mem_of_getElem? hs)
    cases he

/-- Every call keeps the shards well formed and their capacities what they are. -/
theorem wf_step {sc : ShardedCache} (h : sc.WF stdHash) (call : Time × Op) :
    ∃ sc' r, sc.step stdHash call = some (sc', r) ∧ sc'.WF stdHash ∧
      sc'.abs.map Lru.capacity = sc.abs.map Lru.capacity := by
  cases hk : call.2.key with
  | some k =>
    obtain ⟨sc', hs, hwf, habs⟩ := step_spec h hk
    exact ⟨sc', _, hs, hwf, capacity_set habs (Lru.step_capacity _ _)⟩
  | none =>
    obtain ⟨now, op⟩ := call
    cases op with
    | clear =>
      refine ⟨sc.clear, .unit, rfl, sc.wf_clear, ?_⟩
      rw [abs_clear, List.map_map]
      rfl
    | exportEntries => exact ⟨sc, _, rfl, h, rfl⟩
    | _ => cases hk

theorem wf_run {sc : ShardedCache} (h : sc.WF stdHash) (calls : List (Time × Op)) :
    ∃ sc' rs, sc.run stdHash calls = some (sc', rs) ∧ sc'.WF stdHash ∧
      sc'.abs.map Lru.capacity = sc.abs.map Lru.capacity := by
  refine Machine.run_of_invariant
    (P := fun sc' : ShardedCache =>
      sc'.WF stdHash ∧ sc'.abs.map Lru.capacity = sc.abs.map Lru.capacity)
    (fun sc₁ call h₁ => ?_) ⟨h, rfl⟩ calls
  obtain ⟨sc₂, r, hs, hwf, hcap⟩ := wf_step h₁.1 call
  exact ⟨sc₂, r, hs, hwf, hcap.trans h₁.2⟩

/-! ## Capacities -/

theorem sum_range_split (base remainder count : Nat) :
    ((List.range count).map fun i => base + if i < remainder then 1 else 0).sum
      = count * base + min count remainder := by
  induction count with
  | zero => simp
  | succ n ih =>
    rw [List.range_succ, List.map_append, List.sum_append, ih, List.map_singleton,
      List.sum_singleton, Nat.succ_mul]
    split <;> omega

/-- No more entries than the capacities of the shards allow. -/
theorem size_le_sum {sc : ShardedCache} (h : sc.WF stdHash)
    (hbounded : ∀ s ∈ sc.abs, s.capacity ≠ none) :
    sc.size ≤ (sc.abs.map fun s => s.capacity.getD 0).sum := by
  unfold size ShardedCache.abs
  rw [List.map_map]
  refine List.sum_le_sum fun c hc => ?_
  cases hcap : c.capacity with
  | none => exact absurd hcap (hbounded c.abs (List.mem_map_of_mem hc))
  | some n =>
    have hle := (h.shard c hc).bounded n hcap
    show c.size ≤ c.capacity.getD 0
    rw [hcap]
    exact hle

/-- The capacities of the shards add up to the total. -/
theorem sum_capacity (shardCount totalCapacity : Nat) :
    ((bounded shardCount totalCapacity).abs.map fun s => s.capacity.getD 0).sum
      = totalCapacity := by
  have hpos := boundedCount_pos shardCount totalCapacity
  have hmod := Nat.mod_lt totalCapacity hpos
  have hsum := sum_range_split (totalCapacity / boundedCount shardCount totalCapacity)
    (totalCapacity % boundedCount shardCount totalCapacity) (boundedCount shardCount totalCapacity)
  rw [Nat.min_eq_right (Nat.le_of_lt hmod), Nat.div_add_mod] at hsum
  refine Eq.trans ?_ hsum
  simp only [abs, bounded, List.map_map]
  rfl

theorem length_bounded (shardCount totalCapacity : Nat) :
    (bounded shardCount totalCapacity).shards.length = boundedCount shardCount totalCapacity := by
  simp only [bounded, List.length_map, List.length_range]

/-- The capacity of shard `i`. -/
theorem shard_bounded {shardCount totalCapacity i : Nat} {c : Cache}
    (h : (bounded shardCount totalCapacity).shards[i]? = some c) :
    c.capacity = some (totalCapacity / boundedCount shardCount totalCapacity +
      if i < totalCapacity % boundedCount shardCount totalCapacity then 1 else 0) := by
  simp only [bounded, List.getElem?_map] at h
  obtain ⟨j, hj, rfl⟩ := Option.map_eq_some_iff.mp h
  obtain ⟨-, rfl⟩ := List.getElem?_eq_some_iff.mp hj
  rw [List.getElem_range]
  rfl

theorem capacity_bounded (shardCount totalCapacity : Nat) :
    (bounded shardCount totalCapacity).capacity = some totalCapacity := by
  have hhead := shard_bounded (List.getElem?_eq_getElem
    (bounded shardCount totalCapacity).nonempty)
  rw [← List.head_eq_getElem
    (List.ne_nil_of_length_pos (bounded shardCount totalCapacity).nonempty)] at hhead
  have hsum := sum_capacity shardCount totalCapacity
  rw [abs, List.map_map] at hsum
  rw [capacity, hhead]
  exact congrArg some hsum

/-- A shard is left with nothing only if there is nothing to share. -/
theorem share_pos {shardCount totalCapacity : Nat} (h : 0 < totalCapacity) :
    0 < totalCapacity / boundedCount shardCount totalCapacity := by
  refine Nat.div_pos ?_ (boundedCount_pos _ _)
  simp only [boundedCount]
  split <;> omega

/-- **Sharing the capacity.** For any number of shards and any total, zeros included: how many
shards there are; their capacities add up to the total, differ by at most one, do not grow with the
index, and are not zero unless the total is; and every key has a shard. -/
theorem capacity_split (stdHash : Bytes → UInt64) (shardCount totalCapacity : Nat) :
    let sc := bounded shardCount totalCapacity
    1 ≤ sc.shards.length ∧ sc.shards.length ≤ max 1 shardCount ∧
    (max 1 shardCount ≤ totalCapacity → sc.shards.length = max 1 shardCount) ∧
    (totalCapacity < max 1 shardCount → sc.shards.length = max 1 totalCapacity) ∧
    (sc.shards.map fun c => c.capacity.getD 0).sum = totalCapacity ∧
    sc.capacity = some totalCapacity ∧
    (∀ (i : Nat) (c : Cache), sc.shards[i]? = some c →
      ∃ n, c.capacity = some n ∧ (n = 0 → totalCapacity = 0) ∧
      ∀ (j : Nat) (c' : Cache), sc.shards[j]? = some c' →
        ∃ n', c'.capacity = some n' ∧ n' ≤ n + 1 ∧ (i ≤ j → n' ≤ n)) ∧
    ∀ key, sc.shardIndexFor stdHash key < sc.shards.length := by
  intro sc
  have hlen : sc.shards.length = boundedCount shardCount totalCapacity :=
    length_bounded shardCount totalCapacity
  have hsane : saneShardCount shardCount = max 1 shardCount := by
    unfold saneShardCount
    split <;> omega
  have hcount : boundedCount shardCount totalCapacity
      = if totalCapacity < max 1 shardCount then max 1 totalCapacity else max 1 shardCount := by
    simp only [boundedCount, hsane]
  have hsum := sum_capacity shardCount totalCapacity
  rw [abs, List.map_map] at hsum
  refine ⟨sc.nonempty, ?_, ?_, ?_, hsum, capacity_bounded _ _, fun i c hi => ?_,
    sc.shardIndexFor_lt stdHash⟩
  · rw [hlen, hcount]
    split <;> omega
  · intro hle
    rw [hlen, hcount, if_neg (Nat.not_lt.mpr hle)]
  · intro hlt
    rw [hlen, hcount, if_pos hlt]
  · refine ⟨_, shard_bounded hi, fun hzero => ?_, fun j c' hj => ⟨_, shard_bounded hj, ?_, ?_⟩⟩
    · by_contra hne
      have := @share_pos shardCount _ (Nat.pos_of_ne_zero hne)
      omega
    · split <;> split <;> omega
    · intro hij
      split <;> split <;> omega

end ShardedCache

end CacheX
