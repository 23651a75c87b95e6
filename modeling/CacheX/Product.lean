import CacheX.Sharded

/-!
# The product of the shards

A sharded cache is its shards, each one on its own. The state of a shard after any calls is the
state of a lone cache with the capacity of the shard after the calls that are its own: those on a
key that it owns, and every `clear`.

* `step_shard`: what one call does to one shard.
* `run_shard`: what any calls do to it, with the replies.
* `step_swap`: two calls on keys of different shards can be made in either order.
* `sharded_product`: all of it, from a new cache.
-/

namespace CacheX

open InvariantLemmas ShardedCache

variable {stdHash : Bytes → UInt64}

/-- The calls that shard `i` takes part in. -/
def ShardedCache.owns (stdHash : Bytes → UInt64) (sc : ShardedCache) (i : Nat)
    (call : Time × Op) : Bool :=
  match call.2.key with
  | some k => decide (sc.shardIndexFor stdHash k = i)
  | none => decide (call.2 = .clear)

namespace ProductLemmas

theorem owns_of_length {sc sc' : ShardedCache} (h : sc'.shards.length = sc.shards.length)
    (i : Nat) : sc'.owns stdHash i = sc.owns stdHash i := by
  funext call
  unfold owns
  split
  · rw [shardIndexFor_of_length h]
  · rfl

/-- A call on a key, in the terms of the list of shards. -/
theorem step_key_inv {sc sc' : ShardedCache} {call : Time × Op} {r : Reply} {k : Bytes}
    (hk : call.2.key = some k) (h : sc.step stdHash call = some (sc', r)) :
    ∃ c', (sc.shardFor stdHash k).step call = some (c', r) ∧
      sc' = sc.setShard (sc.shardIndexFor stdHash k) c' := by
  rw [step_eq_onShard hk] at h
  obtain ⟨⟨c', r'⟩, hc', he⟩ := Option.map_eq_some_iff.mp h
  cases he
  exact ⟨c', hc', rfl⟩

theorem step_of_shard {sc : ShardedCache} {call : Time × Op} {r : Reply} {k : Bytes} {c' : Cache}
    (hk : call.2.key = some k) (h : (sc.shardFor stdHash k).step call = some (c', r)) :
    sc.step stdHash call = some (sc.setShard (sc.shardIndexFor stdHash k) c', r) := by
  rw [step_eq_onShard hk, onShard, h]
  rfl

/-- A key in the index of a shard is owned by it. -/
theorem placed_of_lookup {sc : ShardedCache} (h : sc.WF stdHash) {i : Nat} {c : Cache} {k : Bytes}
    (hi : sc.shards[i]? = some c) (hk : (c.index.lookup k).isSome = true) :
    sc.shardIndexFor stdHash k = i := by
  rcases lookup_cases (h.shard c (List.mem_of_getElem? hi)) k with ⟨hnone, -⟩ | ⟨_, e, -, -, -, hf⟩
  · rw [hnone] at hk
    cases hk
  · obtain ⟨he, rfl⟩ := Keyed.find_some hf
    exact h.owner hi he

/-- The shards of a new cache are new caches. -/
theorem new_of_mem {shardCount : Nat} {capacity : Option Nat} {c : Cache}
    (h : c ∈ (ShardedCache.new shardCount capacity).shards) : c = Cache.new c.capacity := by
  cases capacity with
  | none =>
    rw [List.eq_of_mem_replicate h]
    rfl
  | some n =>
    obtain ⟨i, -, rfl⟩ := List.mem_map.mp h
    rfl

end ProductLemmas

open ProductLemmas

/-- A call makes the step of a lone cache in the shards that it belongs to, with the same reply,
and does nothing to the other ones. -/
theorem step_shard {sc sc' : ShardedCache} {call : Time × Op} {r : Reply}
    (h : sc.step stdHash call = some (sc', r)) :
    sc'.shards.length = sc.shards.length ∧
    ∀ i c, sc.shards[i]? = some c → ∃ c', sc'.shards[i]? = some c' ∧
      if sc.owns stdHash i call then c.step call = some (c', r) else c' = c := by
  cases hk : call.2.key with
  | some k =>
    obtain ⟨c₁, hc₁, rfl⟩ := step_key_inv hk h
    refine ⟨List.length_set .., fun i c hi => ?_⟩
    have hown : sc.owns stdHash i call = decide (sc.shardIndexFor stdHash k = i) := by
      unfold owns
      rw [hk]
    rw [hown]
    by_cases hidx : sc.shardIndexFor stdHash k = i
    · subst hidx
      cases (sc.shardFor_eq k).symm.trans hi
      rw [decide_eq_true rfl]
      exact ⟨c₁, List.getElem?_set_self (sc.shardIndexFor_lt stdHash k), hc₁⟩
    · rw [decide_eq_false hidx]
      exact ⟨c, (List.getElem?_set_ne hidx).trans hi, rfl⟩
  | none =>
    obtain ⟨now, op⟩ := call
    cases op with
    | clear =>
      cases h
      refine ⟨List.length_map _, fun i c hi => ⟨c.clear, ?_, rfl⟩⟩
      show (sc.shards.map Cache.clear)[i]? = some c.clear
      rw [List.getElem?_map, hi]
      rfl
    | exportEntries =>
      cases h
      exact ⟨rfl, fun i c hi => ⟨c, hi, rfl⟩⟩
    | _ => cases hk

/-- A shard after any calls is a lone cache after its own calls, with the same replies. -/
theorem run_shard {sc sc' : ShardedCache} {calls : List (Time × Op)} {rs : List Reply}
    (h : sc.run stdHash calls = some (sc', rs)) :
    sc'.shards.length = sc.shards.length ∧
    ∀ i c, sc.shards[i]? = some c → ∃ c', sc'.shards[i]? = some c' ∧
      c.run (calls.filter (sc.owns stdHash i))
        = some (c', ((calls.zip rs).filter fun p => sc.owns stdHash i p.1).map Prod.snd) := by
  induction calls generalizing sc rs with
  | nil =>
    cases h
    exact ⟨rfl, fun i c hi => ⟨c, hi, rfl⟩⟩
  | cons call calls ih =>
    obtain ⟨sc₁, r, rs', hstep, hrun, rfl⟩ := Machine.run_cons_inv h
    obtain ⟨hlen, hone⟩ := step_shard hstep
    obtain ⟨hlen', hall⟩ := ih hrun
    refine ⟨hlen'.trans hlen, fun i c hi => ?_⟩
    obtain ⟨c₁, hi₁, hc₁⟩ := hone i c hi
    obtain ⟨c', hi', hc'⟩ := hall i c₁ hi₁
    rw [owns_of_length hlen] at hc'
    refine ⟨c', hi', ?_⟩
    rw [List.zip_cons_cons]
    cases hown : sc.owns stdHash i call with
    | true =>
      rw [hown, if_pos rfl] at hc₁
      have hpair : ((call, r) :: calls.zip rs').filter (fun p => sc.owns stdHash i p.1)
          = (call, r) :: (calls.zip rs').filter fun p => sc.owns stdHash i p.1 :=
        List.filter_cons_of_pos hown
      rw [List.filter_cons_of_pos hown, hpair, List.map_cons]
      exact Machine.run_cons_some hc₁ hc'
    | false =>
      rw [hown] at hc₁
      cases hc₁
      have hnot : ¬ sc.owns stdHash i call = true := by rw [hown]; exact Bool.false_ne_true
      have hpair : ((call, r) :: calls.zip rs').filter (fun p => sc.owns stdHash i p.1)
          = (calls.zip rs').filter fun p => sc.owns stdHash i p.1 :=
        List.filter_cons_of_neg hnot
      rw [List.filter_cons_of_neg hnot, hpair]
      exact hc'

/-- Two calls on keys of different shards can be made in either order. -/
theorem step_swap {sc sc₁ sc₂ : ShardedCache} {a b : Time × Op} {r q : Reply} {ka kb : Bytes}
    (ha : a.2.key = some ka) (hb : b.2.key = some kb)
    (hne : sc.shardIndexFor stdHash ka ≠ sc.shardIndexFor stdHash kb)
    (h₁ : sc.step stdHash a = some (sc₁, r)) (h₂ : sc₁.step stdHash b = some (sc₂, q)) :
    ∃ sc₁', sc.step stdHash b = some (sc₁', q) ∧ sc₁'.step stdHash a = some (sc₂, r) := by
  obtain ⟨ca, hca, rfl⟩ := step_key_inv ha h₁
  obtain ⟨cb, hcb, rfl⟩ := step_key_inv hb h₂
  have hidx : ∀ (i : Nat) (c : Cache) (k : Bytes),
      (sc.setShard i c).shardIndexFor stdHash k = sc.shardIndexFor stdHash k := fun i c =>
    shardIndexFor_of_length (List.length_set ..)
  -- neither call touches the shard that the other one looks at
  have hshard : ∀ (i : Nat) (c : Cache) (k : Bytes), i ≠ sc.shardIndexFor stdHash k →
      (sc.setShard i c).shardFor stdHash k = sc.shardFor stdHash k := by
    intro i c k hi
    have hset := @shardFor_eq stdHash (sc.setShard i c) k
    rw [hidx] at hset
    exact Option.some.inj
      (hset.symm.trans ((List.getElem?_set_ne hi).trans (sc.shardFor_eq k)))
  rw [hshard _ _ _ hne] at hcb
  refine ⟨_, step_of_shard hb hcb, ?_⟩
  have hca' : ((sc.setShard (sc.shardIndexFor stdHash kb) cb).shardFor stdHash ka).step a
      = some (ca, r) := by
    rw [hshard _ _ _ hne.symm]
    exact hca
  rw [step_of_shard ha hca', hidx, hidx]
  unfold setShard
  simp only [List.set_comm _ _ hne.symm]

/-- **The product.** Whatever the number of shards, the capacity, the hash and the calls: every
shard is a lone cache with the capacity of the shard after the calls of that shard, with the same
replies; the counts are the sums over the lone caches; no key is in two shards; and two calls in a
row on keys of different shards can be swapped, without a change of any reply or of the end. -/
theorem sharded_product (stdHash : Bytes → UInt64) (shardCount : Nat) (capacity : Option Nat)
    (calls : List (Time × Op)) :
    ∃ (sc : ShardedCache) (rs : List Reply) (lone : List Cache),
      (ShardedCache.new shardCount capacity).run stdHash calls = some (sc, rs) ∧
      sc.shards = lone ∧
      lone.length = (ShardedCache.new shardCount capacity).shards.length ∧
      (∀ i c₀, (ShardedCache.new shardCount capacity).shards[i]? = some c₀ →
        ∃ c, lone[i]? = some c ∧
          (Cache.new c₀.capacity).run (calls.filter (sc.owns stdHash i))
            = some (c, ((calls.zip rs).filter fun p => sc.owns stdHash i p.1).map Prod.snd)) ∧
      sc.size = (lone.map Cache.size).sum ∧
      sc.evictions = (lone.map Cache.evictions).sum ∧
      sc.expiredRemovals = (lone.map Cache.expiredRemovals).sum ∧
      (∀ (i j : Nat) (c d : Cache) (k : Bytes), lone[i]? = some c → lone[j]? = some d →
        (c.index.lookup k).isSome = true →
        (d.index.lookup k).isSome = true → i = j) ∧
      ∀ pre a b post ka kb, calls = pre ++ a :: b :: post → a.2.key = some ka →
        b.2.key = some kb → sc.shardIndexFor stdHash ka ≠ sc.shardIndexFor stdHash kb →
        ∃ before r q after, before.length = pre.length ∧ rs = before ++ r :: q :: after ∧
          (ShardedCache.new shardCount capacity).run stdHash (pre ++ b :: a :: post)
            = some (sc, before ++ q :: r :: after) := by
  obtain ⟨sc, rs, hrun, hwf, -⟩ := wf_run (@wf_shardedNew stdHash shardCount capacity) calls
  obtain ⟨hlen, hshards⟩ := run_shard hrun
  refine ⟨sc, rs, sc.shards, hrun, rfl, hlen, fun i c₀ hi => ?_, rfl, rfl, rfl, ?_, ?_⟩
  · obtain ⟨c, hc, hlone⟩ := hshards i c₀ hi
    rw [← owns_of_length hlen, new_of_mem (List.mem_of_getElem? hi)] at hlone
    exact ⟨c, hc, hlone⟩
  · intro i j c d k hi hj hc hd
    rw [← placed_of_lookup hwf hi hc, ← placed_of_lookup hwf hj hd]
  · rintro pre a b post ka kb rfl ha hb hne
    obtain ⟨sc₀, before, rest, hpre, hrest, rfl⟩ := Machine.run_append_inv hrun
    obtain ⟨sc₁, r, rest', hr, hrest', rfl⟩ := Machine.run_cons_inv hrest
    obtain ⟨sc₂, q, after, hq, hafter, rfl⟩ := Machine.run_cons_inv hrest'
    have hlen₀ : sc.shards.length = sc₀.shards.length := (run_shard hrest).1
    rw [shardIndexFor_of_length hlen₀, shardIndexFor_of_length hlen₀] at hne
    obtain ⟨sc₁', hq', hr'⟩ := step_swap ha hb hne hr hq
    exact ⟨before, r, q, after, Machine.run_length hpre, rfl,
      Machine.run_append hpre (Machine.run_cons_some hq' (Machine.run_cons_some hr' hafter))⟩

end CacheX
