import CacheX.Sharded
import CacheX.View

/-!
# An unbounded sharded cache is a timed map

The reference is a finite map from keys to values with optional deadlines, which drops a binding
the instant its deadline is reached. The sharded cache drops it lazily, on the next lookup that
meets it, or never. `Sim now` says that the two have the same live bindings at the clock reading
`now`; it is kept by every call, and by the passing of time (`Sim.later`), although what is stale
on the two sides may differ.

Main result: `timed_map`.
-/

namespace CacheX

/-- The reference: a finite map of timed bindings. -/
abbrev TimedMap := AList (fun _ : Bytes => Timed)

namespace TimedMap

/-- The map without the bindings whose deadline is reached. -/
def purge (m : TimedMap) (now : Time) : TimedMap :=
  ⟨m.entries.filter fun p => alive now p.2, m.nodupKeys.sublist List.filter_sublist⟩

def bind (m : TimedMap) (key : Bytes) : Option Timed → TimedMap
  | none => m.erase key
  | some p => m.insert key p

/-- A live binding as an outside observer sees it. -/
def snapshot (now : Time) (p : Σ _ : Bytes, Timed) : EntrySnapshot :=
  ⟨p.1, p.2.1, p.2.2.map fun deadline => toMillis (deadline - now)⟩

/-- The live bindings. -/
def live (m : TimedMap) (now : Time) : List EntrySnapshot :=
  (m.purge now).entries.map (snapshot now)

def step (m : TimedMap) (call : Time × Op) : TimedMap × Reply :=
  match call.2, call.2.key with
  | .exportEntries, _ => (m, .exported (m.live call.1))
  | _, none => (∅, .unit)
  | op, some key =>
    let r := cellStep call.1 op ((m.purge call.1).lookup key)
    ((m.purge call.1).bind key r.1, r.2)

theorem lookup_purge (m : TimedMap) (now : Time) (k : Bytes) :
    (m.purge now).lookup k = (m.lookup k).filter (alive now) := by
  refine Option.ext fun p => ?_
  rw [Option.filter_eq_some_iff]
  show p ∈ (m.purge now).lookup k ↔ p ∈ m.lookup k ∧ _
  rw [AList.mem_lookup_iff, AList.mem_lookup_iff]
  exact List.mem_filter

theorem lookup_bind (m : TimedMap) (k k' : Bytes) (x : Option Timed) :
    (m.bind k x).lookup k' = if k' = k then x else m.lookup k' := by
  split
  · next h =>
    subst h
    cases x with
    | none => exact AList.lookup_erase k' m
    | some p => exact AList.lookup_insert m
  · next h =>
    cases x with
    | none => exact AList.lookup_erase_ne h
    | some p => exact AList.lookup_insert_ne h

theorem step_key {m : TimedMap} {now : Time} {op : Op} {k : Bytes} (hk : op.key = some k) :
    m.step (now, op) = ((m.purge now).bind k (cellStep now op ((m.purge now).lookup k)).1,
      (cellStep now op ((m.purge now).lookup k)).2) := by
  cases op with
  | clear => cases hk
  | exportEntries => cases hk
  | _ => cases hk; rfl

end TimedMap

/-! ## The simulation relation -/

theorem alive_of_later {now later : Time} (h : now ≤ later) {p : Timed}
    (hp : alive later p = true) : alive now p = true := by
  unfold alive at hp ⊢
  cases hd : p.2 with
  | none => rfl
  | some d =>
    rw [hd] at hp
    exact decide_eq_true (Int.lt_of_le_of_lt h (of_decide_eq_true hp))

theorem filter_alive_later {now later : Time} (h : now ≤ later) (o : Option Timed) :
    (o.filter (alive now)).filter (alive later) = o.filter (alive later) := by
  refine Option.ext fun p => ?_
  rw [Option.filter_eq_some_iff, Option.filter_eq_some_iff, Option.filter_eq_some_iff]
  exact ⟨fun hp => ⟨hp.1.1, hp.2⟩, fun hp => ⟨⟨hp.1, alive_of_later h hp.2⟩, hp.2⟩⟩

theorem filter_eq_self {now : Time} {o : Option Timed} (h : ∀ p ∈ o, alive now p = true) :
    o.filter (alive now) = o := by
  cases o with
  | none => rfl
  | some p => rw [Option.filter_some, if_pos (h p rfl)]

open ShardedCache

/-- The cache is unbounded, has never evicted, and has the reference's live bindings. -/
structure Sim (stdHash : Bytes → UInt64) (now : Time) (sc : ShardedCache) (m : TimedMap) :
    Prop where
  wf : sc.WF stdHash
  unbounded : ∀ s ∈ sc.abs, s.capacity = none ∧ s.evictions = 0
  view : ∀ k, (sc.lru stdHash k).view now k = (m.lookup k).filter (alive now)

/-- Two replies are the same, exports up to their order. -/
def SameReply : Reply → Reply → Prop
  | .exported l, .exported l' => l.Perm l'
  | r, r' => r = r'

theorem SameReply.refl (r : Reply) : SameReply r r := by
  cases r with
  | exported l => exact List.Perm.refl l
  | _ => rfl

theorem SameReply.symm {r r' : Reply} (h : SameReply r r') : SameReply r' r := by
  cases r with
  | exported l =>
    cases r' with
    | exported l' => exact List.Perm.symm h
    | _ => cases h
  | _ => cases h; rfl

theorem SameReply.trans {r₁ r₂ r₃ : Reply} (h : SameReply r₁ r₂) (h' : SameReply r₂ r₃) :
    SameReply r₁ r₃ := by
  cases r₁ with
  | exported l =>
    cases r₂ with
    | exported l' =>
      cases r₃ with
      | exported l'' => exact List.Perm.trans h h'
      | _ => cases h'
    | _ => cases h
  | _ => cases h; exact h'

/-- Replies that are the same as a third row of replies. -/
theorem sameReplies {rs₁ rs₂ rs : List Reply} (h₁ : List.Forall₂ SameReply rs₁ rs)
    (h₂ : List.Forall₂ SameReply rs₂ rs) : List.Forall₂ SameReply rs₁ rs₂ := by
  induction h₁ generalizing rs₂ with
  | nil =>
    cases h₂
    exact List.Forall₂.nil
  | cons hr _ ih =>
    cases h₂ with
    | cons hr' hrs' => exact List.Forall₂.cons (hr.trans hr'.symm) (ih hrs')

variable {stdHash : Bytes → UInt64}

theorem Sim.later {now later : Time} {sc : ShardedCache} {m : TimedMap}
    (h : Sim stdHash now sc m) (hle : now ≤ later) : Sim stdHash later sc m := by
  refine ⟨h.wf, h.unbounded, fun k => ?_⟩
  have := congrArg (Option.filter (alive later)) (h.view k)
  unfold Lru.view at this ⊢
  rwa [filter_alive_later hle, filter_alive_later hle] at this

theorem Sim.lru_unbounded {now : Time} {sc : ShardedCache} {m : TimedMap}
    (h : Sim stdHash now sc m) (k : Bytes) :
    (sc.lru stdHash k).capacity = none ∧ (sc.lru stdHash k).evictions = 0 :=
  h.unbounded _ (List.mem_of_getElem? (sc.abs_shardIndexFor k))

/-! ## Exports -/

namespace TimedMapLemmas

/-- The live bindings of the cache, shard by shard. -/
def bindings (sc : ShardedCache) (now : Time) : List (Σ _ : Bytes, Timed) :=
  sc.abs.flatMap fun s => (s.items.map fun e => ⟨e.key, e.timed⟩).filter fun p => alive now p.2

theorem exportEntry_eq (now : Time) (e : Entry) :
    Cache.exportEntry now e
      = if alive now e.timed then some (TimedMap.snapshot now ⟨e.key, e.timed⟩) else none := by
  unfold Cache.exportEntry alive TimedMap.snapshot Entry.timed
  cases e.expiresAt with
  | none => rfl
  | some d =>
    by_cases hd : d ≤ now
    · simp [hd, Int.not_lt.mpr hd]
    · simp [hd, Int.not_le.mp hd]

theorem exportEntries_eq (sc : ShardedCache) (now : Time) :
    sc.exportEntries (fun _ => now) = (bindings sc now).map (TimedMap.snapshot now) := by
  have hshard : ∀ items : List Entry, items.filterMap (Cache.exportEntry now)
      = ((items.map fun e => (⟨e.key, e.timed⟩ : Σ _ : Bytes, Timed)).filter
          fun p => alive now p.2).map (TimedMap.snapshot now) := by
    intro items
    induction items with
    | nil => rfl
    | cons e items ih =>
      rw [List.filterMap_cons, exportEntry_eq, List.map_cons, List.filter_cons, ih]
      cases alive now e.timed with
      | true => rfl
      | false => rfl
  have hfst : sc.shards.zipIdx.flatMap (fun p => p.1.exportEntries now)
      = (sc.shards.zipIdx.map Prod.fst).flatMap fun c => c.exportEntries now := by
    rw [List.flatMap_map]
  unfold exportEntries bindings ShardedCache.abs
  rw [hfst, List.zipIdx_map_fst, List.map_flatMap, List.flatMap_map]
  exact List.flatMap_congr fun c _ => hshard c.entries.toList

theorem mem_bindings {sc : ShardedCache} (h : sc.WF stdHash) {now : Time} {k : Bytes} {p : Timed} :
    ⟨k, p⟩ ∈ bindings sc now ↔ (sc.lru stdHash k).view now k = some p := by
  unfold bindings Lru.view
  rw [Option.filter_eq_some_iff, List.mem_flatMap]
  simp only [List.mem_filter, List.mem_map]
  constructor
  · rintro ⟨s, hs, ⟨e, he, hep⟩, hp⟩
    cases hep
    obtain ⟨j, hj⟩ := List.mem_iff_getElem?.mp hs
    have hown : sc.lru stdHash e.key = s := lru_eq (by rw [h.placed j s hj e he]; exact hj)
    refine ⟨?_, hp⟩
    rw [Lru.find, hown, Keyed.find_of_mem (hown ▸ h.lru_wf e.key).nodup he]
    rfl
  · rintro ⟨hf, hp⟩
    obtain ⟨e, hfe, rfl⟩ := Option.map_eq_some_iff.mp hf
    obtain ⟨he, rfl⟩ := Keyed.find_some hfe
    exact ⟨_, List.mem_of_getElem? (sc.abs_shardIndexFor e.key), ⟨e, he, rfl⟩, hp⟩

theorem nodup_bindings {sc : ShardedCache} (h : sc.WF stdHash) (now : Time) :
    (bindings sc now).Nodup := by
  unfold bindings
  rw [List.nodup_flatMap]
  constructor
  · intro s hs
    obtain ⟨c, hc, rfl⟩ := List.mem_map.mp hs
    have hkeys := (abs_wf (h.shard c hc)).nodup
    refine List.Nodup.filter _ (List.Nodup.of_map Sigma.fst ?_)
    rw [List.map_map]
    exact hkeys
  · rw [List.pairwise_iff_getElem]
    intro i j hi hj hij x hx hy
    obtain ⟨e, he, rfl⟩ := List.mem_map.mp (List.mem_filter.mp hx).1
    obtain ⟨e', he', hee⟩ := List.mem_map.mp (List.mem_filter.mp hy).1
    have h1 := h.placed i _ (List.getElem?_eq_getElem hi) e he
    have h2 := h.placed j _ (List.getElem?_eq_getElem hj) e' he'
    have hkey : e'.key = e.key := congrArg Sigma.fst hee
    rw [hkey] at h2
    omega

end TimedMapLemmas

open TimedMapLemmas

/-- The cache and the reference have the same live bindings, so they export the same. -/
theorem Sim.bindings_perm {now : Time} {sc : ShardedCache} {m : TimedMap}
    (h : Sim stdHash now sc m) : (bindings sc now).Perm (m.purge now).entries := by
  have hnodup : (m.purge now).entries.Nodup := List.NodupKeys.nodup (m.purge now).nodupKeys
  refine (List.perm_ext_iff_of_nodup (nodup_bindings h.wf now) hnodup).mpr ?_
  rintro ⟨k, p⟩
  rw [mem_bindings h.wf, h.view k, ← TimedMap.lookup_purge]
  exact AList.mem_lookup_iff

theorem Sim.export_perm {now : Time} {sc : ShardedCache} {m : TimedMap}
    (h : Sim stdHash now sc m) : (sc.exportEntries fun _ => now).Perm (m.live now) := by
  rw [exportEntries_eq]
  exact h.bindings_perm.map _

theorem Sim.live_le_size {now : Time} {sc : ShardedCache} {m : TimedMap}
    (h : Sim stdHash now sc m) : (m.live now).length ≤ sc.size := by
  have hlen : (m.live now).length = (bindings sc now).length := by
    rw [TimedMap.live, List.length_map, h.bindings_perm.length_eq]
  rw [hlen, bindings, List.length_flatMap, ShardedCache.abs, List.map_map, size]
  refine List.sum_le_sum fun c hc => ?_
  have hsize : c.size = c.entries.toList.length :=
    InvariantLemmas.linked_size (h.wf.shard c hc).linked
  rw [hsize]
  refine Nat.le_trans (List.length_filter_le _ _) ?_
  rw [List.length_map]
  exact Nat.le_refl _

theorem Sim.no_evictions {now : Time} {sc : ShardedCache} {m : TimedMap}
    (h : Sim stdHash now sc m) : sc.evictions = 0 := by
  unfold evictions
  refine List.sum_eq_zero fun n hn => ?_
  obtain ⟨c, hc, rfl⟩ := List.mem_map.mp hn
  exact (h.unbounded c.abs (List.mem_map_of_mem hc)).2

/-! ## Every call keeps the simulation -/

theorem Lru.step_evictions {s : Lru} (h : s.WF) (hcap : s.capacity = none) (call : Time × Op) :
    (s.step call).1.evictions = s.evictions := by
  rcases Lru.step_cases h call with ⟨e, hs, -, -⟩ | ⟨-, -, -, hev⟩
  · rw [hs, Lru.store_of_unbounded hcap]
    rfl
  · exact hev

theorem sim_key {now : Time} {sc : ShardedCache} {m : TimedMap} (h : Sim stdHash now sc m)
    {op : Op} {k : Bytes} (hk : op.key = some k) :
    ∃ sc', sc.step stdHash (now, op) = some (sc', (m.step (now, op)).2) ∧
      Sim stdHash now sc' (m.step (now, op)).1 := by
  obtain ⟨hcap, hev⟩ := h.lru_unbounded k
  obtain ⟨sc', hs, hwf, habs⟩ := step_spec h.wf (show (now, op).2.key = some k from hk)
  have hview : (sc.lru stdHash k).view now k = (m.purge now).lookup k := by
    rw [TimedMap.lookup_purge, h.view k]
  rw [Lru.step_reply _ hk, hview] at hs
  rw [TimedMap.step_key hk]
  refine ⟨sc', hs, hwf, ?_, ?_⟩
  · intro s hs
    rw [habs] at hs
    rcases List.mem_or_eq_of_mem_set hs with hs | rfl
    · exact h.unbounded s hs
    · exact ⟨(Lru.step_capacity _ _).trans hcap,
        (Lru.step_evictions (h.wf.lru_wf k) hcap _).trans hev⟩
  · intro k'
    rw [TimedMap.lookup_bind, lru_set habs k']
    by_cases hkk : k' = k
    · subst hkk
      rw [if_pos rfl, if_pos rfl, Lru.step_view hcap hk, hview]
      -- what a call leaves behind is live
      refine (filter_eq_self (cellStep_alive fun p hp => ?_)).symm
      rw [TimedMap.lookup_purge] at hp
      exact (Option.filter_eq_some_iff.mp hp).2
    · rw [if_neg hkk, TimedMap.lookup_purge, filter_alive_later (Int.le_refl now), ← h.view k']
      split
      · next hi =>
        rw [lru_congr hi]
        unfold Lru.view
        rw [Lru.step_find_ne (h.wf.lru_wf k) hcap hk hkk]
      · rfl

theorem sim_step {now : Time} {sc : ShardedCache} {m : TimedMap} (h : Sim stdHash now sc m)
    (op : Op) :
    ∃ sc' r, sc.step stdHash (now, op) = some (sc', r) ∧ SameReply r (m.step (now, op)).2 ∧
      Sim stdHash now sc' (m.step (now, op)).1 := by
  cases hk : op.key with
  | some k =>
    obtain ⟨sc', hs, hsim⟩ := sim_key h hk
    exact ⟨sc', _, hs, SameReply.refl _, hsim⟩
  | none =>
    cases op with
    | clear =>
      refine ⟨sc.clear, .unit, rfl, rfl, sc.wf_clear, ?_, fun k => ?_⟩
      · intro s hs
        rw [abs_clear] at hs
        obtain ⟨s₀, hs₀, rfl⟩ := List.mem_map.mp hs
        exact h.unbounded s₀ hs₀
      · have hmem := List.mem_of_getElem? (@abs_shardIndexFor stdHash sc.clear k)
        rw [abs_clear] at hmem
        obtain ⟨s₀, -, hs₀⟩ := List.mem_map.mp hmem
        rw [← hs₀]
        rfl
    | exportEntries => exact ⟨sc, _, rfl, h.export_perm, h⟩
    | _ => cases hk

theorem sim_new (shardCount : Nat) (now : Time) : Sim stdHash now (.unbounded shardCount) ∅ := by
  have hnew : ∀ s ∈ (ShardedCache.unbounded shardCount).abs, s = Lru.new none := by
    intro s hs
    obtain ⟨c, hc, rfl⟩ := List.mem_map.mp hs
    rw [List.eq_of_mem_replicate hc]
    rfl
  refine ⟨wf_unbounded shardCount, fun s hs => ?_, fun k => ?_⟩
  · rw [hnew s hs]
    exact ⟨rfl, rfl⟩
  · rw [hnew _ (List.mem_of_getElem? (abs_shardIndexFor _ k))]
    rfl

/-- The simulation along a run with a clock that does not go back. -/
theorem sim_run (shardCount : Nat) {calls : List (Time × Op)}
    (hclock : calls.Pairwise fun a b => a.1 ≤ b.1) :
    ∃ sc rs, (ShardedCache.unbounded shardCount).run stdHash calls = some (sc, rs) ∧
      List.Forall₂ SameReply rs (Machine.runTotal TimedMap.step ∅ calls).2 ∧
      (∃ now, Sim stdHash now sc (Machine.runTotal TimedMap.step ∅ calls).1) ∧
      ∀ now, (∀ c ∈ calls, c.1 ≤ now) →
        Sim stdHash now sc (Machine.runTotal TimedMap.step ∅ calls).1 := by
  -- at any time after the calls made so far, the live bindings are the same
  have hinit : (∃ now, Sim stdHash now (.unbounded shardCount) ∅) ∧ ∃ done, calls = done ++ calls ∧
      ∀ now, (∀ c ∈ done, c.1 ≤ now) → Sim stdHash now (.unbounded shardCount) ∅ :=
    ⟨⟨0, sim_new _ _⟩, [], rfl, fun now _ => sim_new _ now⟩
  have hstep : ∀ (call : Time × Op) (is : List (Time × Op)) (sc : ShardedCache) (m : TimedMap),
      ((∃ now, Sim stdHash now sc m) ∧ ∃ done, calls = done ++ call :: is ∧
        ∀ now, (∀ c ∈ done, c.1 ≤ now) → Sim stdHash now sc m) →
      ∃ sc' r, sc.step stdHash call = some (sc', r) ∧ SameReply r (m.step call).2 ∧
        (∃ now, Sim stdHash now sc' (m.step call).1) ∧ ∃ done, calls = done ++ is ∧
          ∀ now, (∀ c ∈ done, c.1 ≤ now) → Sim stdHash now sc' (m.step call).1 := by
    rintro call is sc m ⟨-, done, hdone, hsim⟩
    have hbefore : ∀ c ∈ done, c.1 ≤ call.1 := fun c hc => by
      rw [hdone, List.pairwise_append] at hclock
      exact hclock.2.2 c hc call List.mem_cons_self
    obtain ⟨sc', r, hs, hr, hsim'⟩ := sim_step (hsim call.1 hbefore) call.2
    refine ⟨sc', r, hs, hr, ⟨call.1, hsim'⟩, done ++ [call], by rw [hdone, List.append_assoc]; rfl,
      fun now hnow => ?_⟩
    exact hsim'.later (hnow call (List.mem_append_right _ List.mem_cons_self))
  obtain ⟨sc, rs, hrun, hrs, hsome, done, hdone, hsim⟩ := Machine.run_relates
    (R := fun is sc m => (∃ now, Sim stdHash now sc m) ∧ ∃ done, calls = done ++ is ∧
      ∀ now, (∀ c ∈ done, c.1 ≤ now) → Sim stdHash now sc m) (Q := SameReply) hstep hinit
  rw [List.append_nil] at hdone
  exact ⟨sc, rs, hrun, hrs, hsome, hdone ▸ hsim⟩

/-- **An unbounded sharded cache is a timed map.** Whatever the hash and the number of shards, over
calls with a clock that does not go back every reply is the reference's; nothing is evicted; and
at any instant after the calls an export has the live bindings of the reference, of which there
are no more than `size()`. So two such caches cannot be told apart by their replies. -/
theorem timed_map (stdHash : Bytes → UInt64) (shardCount : Nat) {calls : List (Time × Op)}
    (hclock : calls.Pairwise fun a b => a.1 ≤ b.1) :
    ∃ sc rs, (ShardedCache.unbounded shardCount).run stdHash calls = some (sc, rs) ∧
      List.Forall₂ SameReply rs (Machine.runTotal TimedMap.step ∅ calls).2 ∧
      sc.evictions = 0 ∧
      (∀ now, (∀ c ∈ calls, c.1 ≤ now) →
        (sc.exportEntries fun _ => now).Perm
            ((Machine.runTotal TimedMap.step ∅ calls).1.live now) ∧
          ((Machine.runTotal TimedMap.step ∅ calls).1.live now).length ≤ sc.size) ∧
      ∀ stdHash' shardCount' sc' rs',
        (ShardedCache.unbounded shardCount').run stdHash' calls = some (sc', rs') →
        List.Forall₂ SameReply rs rs' := by
  obtain ⟨sc, rs, hrun, hrs, ⟨t, hsome⟩, hsim⟩ := @sim_run stdHash shardCount calls hclock
  refine ⟨sc, rs, hrun, hrs, hsome.no_evictions, fun now hnow => ?_, ?_⟩
  · exact ⟨(hsim now hnow).export_perm, (hsim now hnow).live_le_size⟩
  · intro stdHash' shardCount' sc' rs' hrun'
    obtain ⟨sc₁, rs₁, hrun₁, hrs₁, -⟩ := @sim_run stdHash' shardCount' calls hclock
    rw [hrun'] at hrun₁
    cases hrun₁
    exact sameReplies hrs hrs₁

/-- A binding with one millisecond to live is there a nanosecond before its deadline and gone at
it. -/
theorem timed_map_deadline :
    ∃ sc rs, (ShardedCache.unbounded 0).run (fun _ => 0)
        [(0, .setTtl [1] [2] 1), (999999, .get [1]), (1000000, .get [1])] = some (sc, rs) ∧
      List.Forall₂ SameReply rs [.unit, .value (some [2]), .value none] := by
  obtain ⟨sc, rs, hrun, hrs, -⟩ := timed_map (fun _ => 0) 0
    (show List.Pairwise (fun a b : Time × Op => a.1 ≤ b.1)
      [(0, .setTtl [1] [2] 1), (999999, .get [1]), (1000000, .get [1])] by decide)
  exact ⟨sc, rs, hrun, hrs⟩

end CacheX
