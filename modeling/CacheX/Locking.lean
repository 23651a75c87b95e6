import CacheX.Lib.Monitor
import CacheX.TimedMap
import Mathlib.Data.Int.ConditionallyCompleteOrder
import Mathlib.Order.ConditionallyCompleteLattice.Basic

/-!
# The cache behind its mutexes

Every method of `SyncCache` takes the mutex, calls the method of `Cache` and releases the mutex.
Here the methods of `Cache` are written out as critical sections, access by access in the order of
`cache.cpp`, with the one place where each reads `steady_clock::now()`: an entry without a deadline
does not read it at all. Any number of threads call the shards of a `ShardedCache`, and their steps
are interleaved in any way.

* `exec_body`: run alone, a critical section is the call of the sequential cache.
* `sharded_linearizable`: what the threads see is explained by one sequence of calls on the
  sequential sharded cache.
* `timed_map_linearizable`: without a capacity it is explained by one timed map.
* `mutex_progress`: the threads exclude each other per shard, nothing they do is undefined, and they
  never deadlock.
-/

namespace CacheX

open Monitor (Tail Body)

/-! ## The critical sections -/

namespace SyncCache

/-- `index_.find(key)`: the node, if the key is there. -/
def find (key : Bytes) (c : Cache) : Option (Cache × Option NodeId) := some (c, c.index.lookup key)

/-- `*it->second`. -/
def deref (node : NodeId) (c : Cache) : Option (Cache × Entry) :=
  (c.entries.deref node).map fun entry => (c, entry)

/-- A change of the list alone. -/
def onEntries (f : RecencyList → Option RecencyList) : Tail Cache Unit :=
  .change fun c => (f c.entries).map fun entries => { c with entries := entries }

/-- A change of the index alone. -/
def onIndex (f : Index → Index) : Tail Cache Unit :=
  .change fun c => some { c with index := f c.index }

/-- `++expired_removals_`. -/
def countExpired : Tail Cache Unit :=
  .change fun c => some { c with expiredRemovals := c.expiredRemovals + 1 }

/-- `is_expired(*it->second)`: the clock is read if there is a deadline. -/
def isExpired (node : NodeId) : Body Cache Time Bool :=
  .act (deref node) fun entry =>
    match entry.expiresAt with
    | none => .tail (.done false)
    | some deadline => .read fun now => .done (decide (deadline ≤ now))

/-- `remove(it)`: the list node first, then the index entry. -/
def remove (key : Bytes) (node : NodeId) : Tail Cache Unit :=
  (onEntries fun entries => entries.erase node).bind fun _ => onIndex fun index => index.erase key

/-- `evict_oldest()`: the index entry goes first, through the key in the node. -/
def evictOldest : Tail Cache Unit :=
  (Tail.once fun c => c.entries.oldest.map fun victim => (c, victim.key)).bind fun victimKey =>
  (onIndex fun index => index.erase victimKey).bind fun _ =>
  (onEntries RecencyList.popOldest).bind fun _ =>
  .change fun c => some { c with evictions := c.evictions + 1 }

/-- At most `fuel` rounds of the trimming loop. -/
def trimLoop : Nat → Tail Cache Unit
  | 0 => .change fun c => if c.overCapacity then none else some c
  | fuel + 1 =>
    (Tail.once fun c => some (c, c.overCapacity)).bind fun full =>
      if full then evictOldest.bind fun _ => trimLoop fuel else .done ()

/-- An assignment to a field of `*it->second`. -/
def assign (node : NodeId) (f : Entry → Entry) : Tail Cache Unit :=
  onEntries fun entries => (entries.deref node).bind fun entry => entries.assign node (f entry)

/-- `store(key, value, expires_at)`. -/
def store (key value : Bytes) (expiresAt : Option Time) : Tail Cache Unit :=
  (Tail.once (find key)).bind fun
    | some node =>
      (assign node fun entry => { entry with value := value }).bind fun _ =>
      (assign node fun entry => { entry with expiresAt := expiresAt }).bind fun _ =>
      onEntries fun entries => entries.markUsed node
    | none =>
      (Tail.once fun c =>
        let inserted := c.entries.insertNewest ⟨key, value, expiresAt⟩
        some ({ c with entries := inserted.1 }, inserted.2)).bind fun node =>
      (onIndex fun index => Index.emplace index key node).bind fun _ =>
      (Tail.once fun c => some (c, c.entries.size)).bind trimLoop

/-- `erase(key)`. -/
def erase (key : Bytes) : Body Cache Time Bool :=
  .act (find key) fun
    | none => .tail (.done false)
    | some node => (isExpired node).bind fun expired =>
      (if expired then countExpired else .done ()).bind fun _ =>
      (remove key node).map fun _ => !expired

/-- `set(key, value, ttl)`. -/
def setTtl (key value : Bytes) (ttl : Millis) : Body Cache Time Unit :=
  if ttl ≤ 0 then (erase key).map fun _ => ()
  else .read fun now => store key value (some (now + ttl * nanosPerMilli))

/-- `find_live(key)`. -/
def findLive (key : Bytes) : Body Cache Time (Option NodeId) :=
  .act (find key) fun
    | none => .tail (.done none)
    | some node => (isExpired node).bind fun expired =>
      if expired then (remove key node).bind fun _ => countExpired.map fun _ => none
      else .done (some node)

/-- The common part of `get(key)` and `get_into(key, out)`. -/
def use (key : Bytes) : Body Cache Time (Option Bytes) :=
  (findLive key).bind fun
    | none => .done none
    | some node =>
      (onEntries fun entries => entries.markUsed node).bind fun _ =>
      (Tail.once (deref node)).map fun entry => some entry.value

/-- `ttl(key)`: the clock is read once, for the test and for the answer. -/
def ttl (key : Bytes) : Body Cache Time TtlInfo :=
  .act (find key) fun
    | none => .tail (.done ⟨.missing, 0⟩)
    | some node => .act (deref node) fun entry =>
      match entry.expiresAt with
      | none => .tail (.done ⟨.persistent, 0⟩)
      | some deadline => .read fun now =>
        if deadline ≤ now then
          (remove key node).bind fun _ => countExpired.map fun _ => ⟨.missing, 0⟩
        else .done ⟨.expiring, toMillis (deadline - now)⟩

/-- `contains(key)`. -/
def contains (key : Bytes) : Body Cache Time Bool :=
  .act (find key) fun
    | none => .tail (.done false)
    | some node => (isExpired node).map fun expired => !expired

/-- `clear()`. -/
def clear : Tail Cache Unit :=
  (onIndex fun _ => ∅).bind fun _ => onEntries fun entries => some entries.clear

/-- The loop of `export_entries()` over the nodes. -/
def exportLoop (now : Time) : List NodeId → List EntrySnapshot → Tail Cache (List EntrySnapshot)
  | [], out => .done out
  | node :: rest, out => (Tail.once (deref node)).bind fun entry =>
    exportLoop now rest (out ++ (Cache.exportEntry now entry).toList)

/-- `export_entries()`: the clock is read once, before the loop. -/
def exportEntries : Body Cache Time (List EntrySnapshot) :=
  .act (fun c => some (c, c.size)) fun _ => .read fun now =>
    (Tail.once fun c => some (c, c.entries.nodes.keys)).bind fun nodes => exportLoop now nodes []

/-- The critical section of a call. -/
def body : Op → Body Cache Time Reply
  | .set key value => .tail ((store key value none).map fun _ => .unit)
  | .setTtl key value ttl => (setTtl key value ttl).map fun _ => .unit
  | .get key => (use key).map .value
  | .getInto key out => (use key).map fun
    | none => .into false out
    | some value => .into true value
  | .ttl key => (ttl key).map .ttl
  | .erase key => (erase key).map .bool
  | .contains key => (contains key).map .bool
  | .clear => .tail (clear.map fun _ => .unit)
  | .exportEntries => exportEntries.map .exported

/-! ## Run alone, they are the sequential calls -/

@[simp]
theorem exec_onEntries (f : RecencyList → Option RecencyList) (c : Cache) :
    (onEntries f).exec c
      = (f c.entries).map fun entries => ({ c with entries := entries }, ()) := by
  rw [onEntries, Tail.exec_change, Option.map_map]
  rfl

@[simp]
theorem exec_onIndex (f : Index → Index) (c : Cache) :
    (onIndex f).exec c = some ({ c with index := f c.index }, ()) := rfl

@[simp]
theorem exec_countExpired (c : Cache) :
    countExpired.exec c = some ({ c with expiredRemovals := c.expiredRemovals + 1 }, ()) := rfl

@[simp]
theorem exec_isExpired (now : Time) (node : NodeId) (c : Cache) :
    (isExpired node).exec now c
      = (c.entries.deref node).map fun entry => (c, CacheX.isExpired now entry) := by
  rw [isExpired, Body.exec_act, deref]
  cases c.entries.deref node with
  | none => rfl
  | some entry =>
    simp only [Option.map_some, Option.bind_some, CacheX.isExpired]
    cases entry.expiresAt with
    | none => rfl
    | some deadline => rfl

@[simp]
theorem exec_remove (key : Bytes) (node : NodeId) (c : Cache) :
    (remove key node).exec c = (c.remove key node).map fun c => (c, ()) := by
  rw [remove, Tail.exec_bind, exec_onEntries, Cache.remove]
  cases c.entries.erase node with
  | none => rfl
  | some entries => rfl

theorem exec_evictOldest (c : Cache) :
    evictOldest.exec c = c.evictOldest.map fun c => (c, ()) := by
  simp only [evictOldest, Cache.evictOldest, Tail.exec_bind, Tail.exec_once, exec_onIndex,
    exec_onEntries, Tail.exec_change]
  cases c.entries.oldest with
  | none => rfl
  | some victim =>
    cases hpop : c.entries.popOldest with
    | none => simp [hpop]
    | some entries => simp [hpop]

theorem exec_trimLoop (fuel : Nat) (c : Cache) :
    (trimLoop fuel).exec c = (Cache.trimLoop fuel c).map fun c => (c, ()) := by
  induction fuel generalizing c with
  | zero => exact Tail.exec_change _ c
  | succ fuel ih =>
    rw [trimLoop, Tail.exec_bind, Tail.exec_once, Cache.trimLoop, Option.bind_some]
    split
    · rw [Tail.exec_bind, exec_evictOldest, Option.bind_map, Option.map_bind]
      exact congrArg _ (funext fun c' => ih c')
    · rfl

theorem kreplace_kreplace (a : NodeId) (b b' : Entry) (l : List (Σ _ : NodeId, Entry)) :
    List.kreplace a b' (List.kreplace a b l) = List.kreplace a b' l := by
  induction l with
  | nil => rfl
  | cons s l ih =>
    have hcons : ∀ (x : Entry) (s : Σ _ : NodeId, Entry) (l : List (Σ _ : NodeId, Entry)),
        List.kreplace a x (s :: l) = if a = s.1 then ⟨a, x⟩ :: l else s :: List.kreplace a x l := by
      intro x s l
      split
      · next ha => exact List.lookmap_cons_some _ l (if_pos ha)
      · next ha => exact List.lookmap_cons_none _ l (if_neg ha)
    rw [hcons b s l, hcons b' s l]
    split
    · rw [hcons b' ⟨a, b⟩ l, if_pos rfl]
    · next ha => rw [hcons b' s, if_neg ha, ih]

/-- The second of two assignments to a node overwrites the first. -/
theorem assign_assign {l l' : RecencyList} {node : NodeId} {e e' : Entry}
    (h : l.assign node e = some l') : l'.assign node e' = l.assign node e' := by
  unfold RecencyList.assign at h ⊢
  split at h
  · next hmem =>
    cases h
    rw [if_pos (AList.mem_replace.mpr hmem), if_pos hmem]
    refine congrArg some (RecencyList.ext ?_ rfl)
    exact AList.ext (kreplace_kreplace node e e' l.nodes.entries)
  · cases h

theorem exec_overwrite {c : Cache} {node : NodeId} {entry : Entry} (value : Bytes)
    (expiresAt : Option Time) (h : c.entries.deref node = some entry) :
    ((assign node fun entry => { entry with value := value }).bind fun _ =>
      (assign node fun entry => { entry with expiresAt := expiresAt })).exec c
      = (c.entries.assign node { entry with value := value, expiresAt := expiresAt }).map
          fun entries => ({ c with entries := entries }, ()) := by
  obtain ⟨l, hl, -, hderef⟩ := RecencyList.assign_of_deref h { entry with value := value }
  simp only [assign, Tail.exec_bind, exec_onEntries, h, Option.bind_some, hl, Option.map_some,
    hderef, assign_assign hl]

theorem exec_store (key value : Bytes) (expiresAt : Option Time) (c : Cache) :
    (store key value expiresAt).exec c
      = (c.store key value expiresAt).map fun c => (c, ()) := by
  rw [store, Tail.exec_bind, Tail.exec_once, find, Option.bind_some, Cache.store]
  cases c.index.lookup key with
  | none =>
    simp only [Tail.exec_bind, Tail.exec_once, exec_onIndex, Option.bind_some, exec_trimLoop]
    rfl
  | some node =>
    cases hd : c.entries.deref node with
    | none => simp [assign, hd]
    | some entry =>
      have hover := exec_overwrite value expiresAt hd
      simp only [Tail.exec_bind] at hover ⊢
      rw [← Option.bind_assoc, hover]
      cases ha : c.entries.assign node { entry with value := value, expiresAt := expiresAt } with
      | none => simp [hd, ha]
      | some entries => simp [hd, ha, Option.map_eq_bind, Option.bind_assoc]

theorem exec_erase (now : Time) (key : Bytes) (c : Cache) :
    (erase key).exec now c = c.erase now key := by
  rw [erase, Body.exec_act, find, Option.bind_some, Cache.erase]
  cases c.index.lookup key with
  | none => rfl
  | some node =>
    simp only [Body.exec_bind, exec_isExpired]
    cases hd : c.entries.deref node with
    | none => rfl
    | some entry =>
      cases hx : CacheX.isExpired now entry with
      | true => simp [hx, Option.map_eq_bind, Option.bind_assoc]
      | false => simp [hx, Option.map_eq_bind, Option.bind_assoc]

theorem exec_setTtl (now : Time) (key value : Bytes) (ttl : Millis) (c : Cache) :
    (setTtl key value ttl).exec now c = (c.setTtl now key value ttl).map fun c => (c, ()) := by
  unfold setTtl Cache.setTtl
  split
  · rw [Body.exec_map, exec_erase, Option.map_map]
    rfl
  · exact exec_store key value _ c

theorem exec_findLive (now : Time) (key : Bytes) (c : Cache) :
    (findLive key).exec now c = c.findLive now key := by
  rw [findLive, Body.exec_act, find, Option.bind_some, Cache.findLive]
  cases c.index.lookup key with
  | none => rfl
  | some node =>
    simp only [Body.exec_bind, exec_isExpired]
    cases hd : c.entries.deref node with
    | none => rfl
    | some entry =>
      cases hx : CacheX.isExpired now entry with
      | true => simp [hx, Option.map_eq_bind, Option.bind_assoc]
      | false => simp [hx]

theorem exec_use (now : Time) (key : Bytes) (c : Cache) :
    (use key).exec now c = c.use now key := by
  rw [use, Body.exec_bind, exec_findLive, Cache.use]
  refine congrArg _ (funext fun found => ?_)
  cases found.2 with
  | none => rfl
  | some node =>
    simp only [Tail.exec_bind, Tail.exec_map, exec_onEntries, Tail.exec_once, deref]
    cases found.1.entries.markUsed node with
    | none => rfl
    | some entries =>
      cases hd : entries.deref node with
      | none => simp [hd]
      | some entry => simp [hd]

theorem exec_ttl (now : Time) (key : Bytes) (c : Cache) :
    (ttl key).exec now c = c.ttl now key := by
  rw [ttl, Body.exec_act, find, Option.bind_some, Cache.ttl]
  cases c.index.lookup key with
  | none => rfl
  | some node =>
    simp only [Body.exec_act, deref]
    cases hd : c.entries.deref node with
    | none => rfl
    | some entry =>
      simp only [Option.map_some, Option.bind_some]
      cases hx : entry.expiresAt with
      | none => simp [hx]
      | some deadline =>
        simp only [Body.exec_read]
        split
        · next hle => simp [hx, hle, Option.map_eq_bind, Option.bind_assoc]
        · next hle => simp [hx, hle]

theorem exec_contains (now : Time) (key : Bytes) (c : Cache) :
    (contains key).exec now c = (c.contains now key).map fun b => (c, b) := by
  rw [contains, Body.exec_act, find, Option.bind_some, Cache.contains]
  cases c.index.lookup key with
  | none => rfl
  | some node =>
    simp only [Body.exec_map, exec_isExpired]
    cases hd : c.entries.deref node with
    | none => rfl
    | some entry => rfl

theorem exec_exportLoop (now : Time) (c : Cache) (nodes : List (Σ _ : NodeId, Entry))
    (h : ∀ p ∈ nodes, c.entries.deref p.1 = some p.2) (out : List EntrySnapshot) :
    (exportLoop now (nodes.map Sigma.fst) out).exec c
      = some (c, out ++ (nodes.map fun p => p.2).filterMap (Cache.exportEntry now)) := by
  induction nodes generalizing out with
  | nil => simp [exportLoop]
  | cons p nodes ih =>
    have hp := h p List.mem_cons_self
    rw [List.map_cons, exportLoop, Tail.exec_bind, Tail.exec_once, deref, hp, Option.map_some,
      Option.bind_some, ih fun q hq => h q (List.mem_cons_of_mem _ hq), List.map_cons,
      List.filterMap_cons, List.append_assoc]
    cases Cache.exportEntry now p.2 with
    | none => rfl
    | some snapshot => rfl

theorem exec_exportEntries (now : Time) (c : Cache) :
    exportEntries.exec now c = some (c, c.exportEntries now) := by
  simp only [exportEntries, Body.exec_act, Option.bind_some, Body.exec_read, Tail.exec_bind,
    Tail.exec_once]
  exact exec_exportLoop now c c.entries.nodes.entries
    (fun p hp => AList.mem_lookup_iff.mpr hp) []

/-- Run alone, the critical section of a call is the call of the sequential cache. -/
theorem exec_body (now : Time) (op : Op) (c : Cache) :
    (body op).exec now c = c.step (now, op) := by
  cases op with
  | set key value =>
    rw [body, Body.exec_tail, Tail.exec_map, exec_store, Option.map_map]
    rfl
  | setTtl key value ttl =>
    rw [body, Body.exec_map, exec_setTtl, Option.map_map]
    rfl
  | get key =>
    rw [body, Body.exec_map, exec_use]
    rfl
  | getInto key out =>
    rw [body, Body.exec_map, exec_use]
    simp only [Cache.step, Cache.getInto]
    cases c.use now key with
    | none => rfl
    | some found =>
      obtain ⟨c', value⟩ := found
      cases value with
      | none => rfl
      | some v => rfl
  | ttl key =>
    rw [body, Body.exec_map, exec_ttl]
    rfl
  | erase key =>
    rw [body, Body.exec_map, exec_erase]
    rfl
  | contains key =>
    rw [body, Body.exec_map, exec_contains, Option.map_map]
    rfl
  | clear => rfl
  | exportEntries =>
    rw [body, Body.exec_map, exec_exportEntries]
    rfl

end SyncCache

/-! ## Threads on the shards -/

namespace ShardedCache

variable (stdHash : Bytes → UInt64)

/-- A shard by its position. -/
def shardAt (sc : ShardedCache) (i : Nat) : Cache := sc.shards[i]?.getD (.new none)

/-- The calls the sharded cache makes on shard `i`: those on the keys the shard owns, and the
shard's part of `clear()` and `export_entries()`. -/
def Routed (sc : ShardedCache) (i : Nat) (op : Op) : Prop :=
  i < sc.shards.length ∧ ∀ key ∈ op.key, sc.shardIndexFor stdHash key = i

/-- One call in the sequential world. A call on a key is the call of the sharded cache; the other
calls are on one shard. -/
def callAt (sc : ShardedCache) (x : Nat × Time × Op) : Option (ShardedCache × Reply) :=
  match x.2.2.key with
  | some _ => sc.step stdHash x.2
  | none => ((sc.shardAt x.1).step x.2).map fun p => (sc.setShard x.1 p.1, p.2)

variable {stdHash}

theorem shardAt_eq {sc : ShardedCache} {i : Nat} (h : i < sc.shards.length) :
    sc.shards[i]? = some (sc.shardAt i) := by
  rw [shardAt, List.getElem?_eq_getElem h]
  rfl

theorem shardAt_mem {sc : ShardedCache} {i : Nat} (h : i < sc.shards.length) :
    sc.shardAt i ∈ sc.shards :=
  List.mem_of_getElem? (shardAt_eq h)

theorem shardAt_wf {sc : ShardedCache} (h : sc.WF stdHash) (i : Nat) : (sc.shardAt i).WF := by
  by_cases hi : i < sc.shards.length
  · exact h.shard _ (shardAt_mem hi)
  · rw [shardAt, List.getElem?_eq_none (Nat.le_of_not_lt hi)]
    exact wf_new none

theorem shardFor_eq_shardAt (sc : ShardedCache) (key : Bytes) :
    sc.shardFor stdHash key = sc.shardAt (sc.shardIndexFor stdHash key) := by
  rw [shardAt, shardFor_eq]
  rfl

theorem shardAt_setShard {sc : ShardedCache} {i : Nat} (h : i < sc.shards.length) (c : Cache)
    (j : Nat) : (sc.setShard i c).shardAt j = if j = i then c else sc.shardAt j := by
  rw [shardAt, setShard, List.getElem?_set]
  by_cases hj : j = i
  · rw [if_pos hj.symm, if_pos h, if_pos hj]
    rfl
  · rw [if_neg (Ne.symm hj), if_neg hj]
    rfl

/-- A call on its shard is the call in the sequential world. -/
theorem callAt_eq {sc : ShardedCache} {i : Nat} {call : Time × Op}
    (h : sc.Routed stdHash i call.2) :
    sc.callAt stdHash (i, call)
      = ((sc.shardAt i).step call).map fun p => (sc.setShard i p.1, p.2) := by
  unfold callAt
  split
  · next key hkey =>
    rw [step_eq_onShard hkey, onShard, shardFor_eq_shardAt, h.2 key hkey]
  · rfl

end ShardedCache

namespace SyncCache

open ShardedCache

variable {stdHash : Bytes → UInt64}

theorem body_correct (allowed : Nat → Op → Prop) :
    Monitor.Correct Cache.step body allowed fun _ c => c.WF where
  body_spec := fun _ c now op _ _ => exec_body now op c
  defined := by
    intro _ c now op hc _
    obtain ⟨c', hstep, hwf, -⟩ := step_refines hc (now, op)
    exact ⟨c', _, hstep, hwf⟩

/-- Runs of the shards side by side are runs of the sharded cache. -/
theorem run_callAt {sc : ShardedCache} {xs : List (Nat × Time × Op)}
    (hrouted : ∀ x ∈ xs, sc.Routed stdHash x.1 x.2.2) {shards : Nat → Cache} {replies : List Reply}
    (hrun : Machine.run (Monitor.stepAt Cache.step) sc.shardAt xs = some (shards, replies)) :
    ∃ sc', Machine.run (callAt stdHash) sc xs = some (sc', replies) ∧ sc'.shardAt = shards := by
  induction xs generalizing sc replies with
  | nil =>
    cases hrun
    exact ⟨sc, rfl, rfl⟩
  | cons x xs ih =>
    obtain ⟨objects, r, rs, hx, hxs, rfl⟩ := Machine.run_cons_inv hrun
    obtain ⟨⟨c', r'⟩, hc', heq⟩ := Option.map_eq_some_iff.mp hx
    cases heq
    obtain ⟨hlt, -⟩ := hrouted x List.mem_cons_self
    have hshards : Function.update sc.shardAt x.1 c' = (sc.setShard x.1 c').shardAt := by
      funext j
      rw [shardAt_setShard hlt, Function.update_apply]
    have hlen : (sc.setShard x.1 c').shards.length = sc.shards.length := List.length_set
    rw [hshards] at hxs
    have hrouted' : ∀ y ∈ xs, (sc.setShard x.1 c').Routed stdHash y.1 y.2.2 := by
      intro y hy
      have hy' := hrouted y (List.mem_cons_of_mem _ hy)
      unfold Routed at hy' ⊢
      rw [hlen]
      refine ⟨hy'.1, fun key hkey => ?_⟩
      rw [shardIndexFor_of_length hlen]
      exact hy'.2 key hkey
    obtain ⟨sc', hrun', hsc'⟩ := ih hrouted' hxs
    refine ⟨sc', Machine.run_cons_some ?_ hrun', hsc'⟩
    have hcall := callAt_eq (hrouted x List.mem_cons_self)
    rw [hc'] at hcall
    exact hcall

/-- Calls on keys of a cache without a capacity get the replies of the timed map. -/
theorem run_timedMap {now : Time} {sc sc' : ShardedCache} {m : TimedMap}
    (h : Sim stdHash now sc m) {xs : List (Nat × Time × Op)} (hkey : ∀ x ∈ xs, x.2.2.key.isSome)
    (hnow : ∀ x ∈ xs, now ≤ x.2.1) (hclock : xs.Pairwise fun x y => x.2.1 ≤ y.2.1)
    {replies : List Reply} (hrun : Machine.run (callAt stdHash) sc xs = some (sc', replies)) :
    ∃ m', Machine.run (fun m x => some (TimedMap.step m x.2)) m xs = some (m', replies) := by
  induction xs generalizing now sc m replies with
  | nil =>
    cases hrun
    exact ⟨m, rfl⟩
  | cons x xs ih =>
    obtain ⟨sc₁, r, rs, hx, hxs, rfl⟩ := Machine.run_cons_inv hrun
    obtain ⟨hfirst, hrest⟩ := List.pairwise_cons.mp hclock
    obtain ⟨key, hk⟩ := Option.isSome_iff_exists.mp (hkey x List.mem_cons_self)
    obtain ⟨sc₂, hstep, hsim⟩ := sim_key (h.later (hnow x List.mem_cons_self)) hk
    have hcall : sc.callAt stdHash x = sc.step stdHash x.2 := by
      unfold callAt
      rw [hk]
    rw [hcall, hstep] at hx
    cases hx
    obtain ⟨m', hm'⟩ := ih hsim (fun y hy => hkey y (List.mem_cons_of_mem _ hy)) hfirst hrest hxs
    exact ⟨m', Machine.run_cons_some rfl hm'⟩

end SyncCache

open ShardedCache SyncCache

/-- **Linearizability.** Any number of threads call the shards of a sharded cache, in any
interleaving of their accesses and with a clock that moves on at any moment. Their calls can be put
into one order, each between its invocation and its return, in which the sequential sharded cache
gives the same replies at clock readings that do not go back. -/
theorem sharded_linearizable {stdHash : Bytes → UInt64} {sc : ShardedCache} (hwf : sc.WF stdHash)
    (clock : Time) {s : Monitor.State Nat Cache Time Op Reply}
    (h : Monitor.Reaches SyncCache.body (sc.Routed stdHash) (Monitor.start clock sc.shardAt) s) :
    Monitor.Linearization (callAt stdHash) sc s.history s.order := by
  obtain ⟨hlin, hrouted⟩ :=
    Monitor.linearizable (body_correct (sc.Routed stdHash)) (shardAt_wf hwf) h
  refine hlin.transfer fun shards replies hrun => ?_
  obtain ⟨sc', hrun', -⟩ := run_callAt (List.forall_mem_map.mpr hrouted) hrun
  exact ⟨sc', hrun'⟩

/-- Two threads meet on one shard: the second waits while the first looks up a key. -/
theorem sharded_linearizable_two_threads :
    ∃ s : Monitor.State Nat Cache Time Op Reply,
      s.history = [.invoked 5 0 0 (.contains [1]), .invoked 5 1 0 .clear,
        .returned 5 0 (.bool false)] ∧
      Monitor.Linearization (callAt fun _ => 0) (.unbounded 1) s.history s.order := by
  have hrouted : ∀ op, (unbounded 1).Routed (fun _ => 0) 0 op := fun _ =>
    ⟨Nat.one_pos, fun _ _ => Nat.mod_one _⟩
  refine ⟨_, ?_, sharded_linearizable (wf_unbounded 1) 5
    (.head (.invoke 0 0 (.contains [1]) rfl (hrouted _))
    (.head (.invoke 1 0 .clear rfl (hrouted _))
    (.head (.advance (t := 0) (.acquire rfl rfl))
    (.head (.advance (t := 0) (.act rfl rfl))
    (.head (.advance (t := 0) (.releaseUnread rfl))
    (.head (.advance (t := 0) (.respond rfl)) .refl))))))⟩
  rfl

/-- **One timed map.** The calls on keys that any number of threads make on a sharded cache without
a capacity, in any interleaving, are linearizable as the calls of a single map of bindings with
deadlines: what the shards, their locks and the lazy reclaiming do cannot be seen. A deadline is a
mathematical integer here, so that none of them overflows. -/
theorem timed_map_linearizable (stdHash : Bytes → UInt64) (shardCount : Nat) (clock : Time)
    {s : Monitor.State Nat Cache Time Op Reply}
    (h : Monitor.Reaches SyncCache.body
      (fun i op => (unbounded shardCount).Routed stdHash i op ∧ op.key.isSome)
      (Monitor.start clock (unbounded shardCount).shardAt) s) :
    Monitor.Linearization (fun m x => some (TimedMap.step m x.2)) ∅ s.history s.order := by
  obtain ⟨hlin, hallowed⟩ :=
    Monitor.linearizable (body_correct _) (shardAt_wf (@wf_unbounded stdHash shardCount)) h
  refine hlin.transfer fun shards replies hrun => ?_
  obtain ⟨sc', hrun', -⟩ :=
    run_callAt (List.forall_mem_map.mpr fun e he => (hallowed e he).1) hrun
  have hkey : ∀ x ∈ s.order.map Monitor.Effect.input, x.2.2.key.isSome :=
    List.forall_mem_map.mpr fun e he => (hallowed e he).2
  have hclock : (s.order.map Monitor.Effect.input).Pairwise fun x y => x.2.1 ≤ y.2.1 :=
    List.pairwise_map.mpr hlin.clock
  cases horder : s.order.map Monitor.Effect.input with
  | nil =>
    rw [horder] at hrun
    cases hrun
    exact ⟨∅, rfl⟩
  | cons x xs =>
    rw [horder] at hrun' hkey hclock
    have hfirst : ∀ y ∈ x :: xs, x.2.1 ≤ y.2.1 :=
      List.forall_mem_cons.mpr ⟨Int.le_refl x.2.1, (List.pairwise_cons.mp hclock).1⟩
    exact run_timedMap (sim_new shardCount x.2.1) hkey hfirst hclock hrun'

/-- Two threads on one key: the second has made its call and waits. -/
theorem timed_map_linearizable_two_threads :
    ∃ s : Monitor.State Nat Cache Time Op Reply,
      s.history = [.invoked 5 0 0 (.contains [1]), .invoked 5 1 0 (.erase [1]),
        .returned 7 0 (.bool false)] ∧
      Monitor.Linearization (fun m x => some (TimedMap.step m x.2)) ∅ s.history s.order := by
  have hrouted : ∀ op, (unbounded 1).Routed (fun _ => 0) 0 op := fun _ =>
    ⟨Nat.one_pos, fun _ _ => Nat.mod_one _⟩
  refine ⟨_, ?_, timed_map_linearizable (fun _ => 0) 1 5
    (.head (.invoke 0 0 (.contains [1]) rfl ⟨hrouted _, rfl⟩)
    (.head (.invoke 1 0 (.erase [1]) rfl ⟨hrouted _, rfl⟩)
    (.head (.advance (t := 0) (.acquire rfl rfl))
    (.head (.advance (t := 0) (.act rfl rfl))
    (.head (.tick (show (5 : Time) ≤ 7 by decide))
    (.head (.advance (t := 0) (.releaseUnread rfl))
    (.head (.advance (t := 0) (.respond rfl)) .refl)))))))⟩
  rfl

/-- **The mutexes.** In any state the threads can bring the shards into: no two threads are inside
one shard; and a thread that has called can take its next step, or the thread inside the shard it
waits for can. So no call dereferences a dangling iterator or evicts from an empty list, and the
threads do not deadlock. -/
theorem mutex_progress {stdHash : Bytes → UInt64} {sc : ShardedCache} (hwf : sc.WF stdHash)
    (clock : Time) {s : Monitor.State Nat Cache Time Op Reply}
    (h : Monitor.Reaches SyncCache.body (sc.Routed stdHash) (Monitor.start clock sc.shardAt) s) :
    (∀ t₁ t₂ i, (s.threads t₁).inside = some i → (s.threads t₂).inside = some i → t₁ = t₂) ∧
    ∀ t, s.threads t ≠ .idle → ∃ t' s', Monitor.Advance SyncCache.body t' s s' ∧
      (t' = t ∨ ∃ id i op, s.threads t = .waiting id i op ∧ s.holder i = some t') := by
  have hcorrect := body_correct (sc.Routed stdHash)
  exact ⟨fun _ _ _ => Monitor.exclusive hcorrect (shardAt_wf hwf) h,
    fun _ => Monitor.progress hcorrect (shardAt_wf hwf) h⟩

/-- A thread waits for a shard that another thread is inside of. -/
theorem mutex_progress_waiting :
    ∃ s : Monitor.State Nat Cache Time Op Reply,
      s.threads 1 = .waiting 1 0 .clear ∧ s.holder 0 = some 0 ∧
      ∃ t' s', Monitor.Advance SyncCache.body t' s s' ∧
        (t' = 1 ∨ ∃ id i op, s.threads 1 = .waiting id i op ∧ s.holder i = some t') := by
  have hrouted : ∀ op, (unbounded 1).Routed (fun _ => 0) 0 op := fun _ =>
    ⟨Nat.one_pos, fun _ _ => Nat.mod_one _⟩
  refine ⟨_, ?_, ?_, (mutex_progress (wf_unbounded 1) 5
    (.head (.invoke 0 0 (.contains [1]) rfl (hrouted _))
    (.head (.invoke 1 0 .clear rfl (hrouted _))
    (.head (.advance (t := 0) (.acquire rfl rfl)) .refl)))).2 1 nofun⟩
  · rfl
  · rfl

end CacheX
