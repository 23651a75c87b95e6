import CacheX.Restore

/-!
# Going over the shards

`export_entries` and `size` of the sharded cache lock one shard after the other, and the calls of
other threads come in between. A `Scan` is such a loop under way. A schedule is a list of moments: a
call of another thread, which is atomic because the mutex of the shard is held, or the scan reading
its next shard.

* `scan_spec`: what a scan has put together is the sequence of what it read, each shard as it was at
  that moment.
* `alike_reachable`: the shards of a cache are all bounded or all unbounded.
* `scan_sane`: what `export_entries` and `size` return under any schedule.
-/

namespace CacheX

open ShardedCache RestoreLemmas InvariantLemmas

/-- A call on one key. -/
abbrev KeyOp := { op : Op // op.key.isSome = true }

/-- What happens at one moment while a scan is under way. -/
inductive Moment
  | call (now : Time) (op : KeyOp)
  | read (now : Time)

/-- A loop over the shards: the shard that comes next and what has been put together. -/
structure Scan (α : Type) where
  cache : ShardedCache
  next : Nat
  acc : α

/-- One moment. The output is the cache as the moment found it. -/
def Scan.step {α : Type} (stdHash : Bytes → UInt64) (body : Time → Cache → α → α) (s : Scan α) :
    Moment → Option (Scan α × ShardedCache)
  | .call now op =>
    (s.cache.step stdHash (now, op.1)).map fun p => ({ s with cache := p.1 }, s.cache)
  | .read now =>
    match s.cache.shards[s.next]? with
    | none => some (s, s.cache)
    | some c => some ({ s with next := s.next + 1, acc := body now c s.acc }, s.cache)

/-- The body of the loop of `export_entries`. -/
def exportBody (now : Time) (c : Cache) (all : List EntrySnapshot) : List EntrySnapshot :=
  all ++ c.exportEntries now

/-- The body of the loop of `size`. -/
def sizeBody (_ : Time) (c : Cache) (total : Nat) : Nat := total + c.size

/-- The readings of a scan, with the clock and the cache at that moment. The `j`-th one reads shard
`j`. -/
def readings (trace : List (Moment × ShardedCache)) : List (Time × ShardedCache) :=
  trace.filterMap fun x =>
    match x.1 with
    | .read now => some (now, x.2)
    | .call _ _ => none

/-- The shard that the reading at position `j` reads. -/
def readShard (x : (Time × ShardedCache) × Nat) : Option Cache := x.1.2.shards[x.2]?

variable {stdHash : Bytes → UInt64}

/-- The caches that can follow on a cache: well formed, with as many shards of the same
capacities. -/
structure After (stdHash : Bytes → UInt64) (sc sc' : ShardedCache) : Prop where
  wf : sc'.WF stdHash
  capacities : sc'.abs.map Lru.capacity = sc.abs.map Lru.capacity

theorem After.length {sc sc' : ShardedCache} (h : After stdHash sc sc') :
    sc'.shards.length = sc.shards.length := by
  have := congrArg List.length h.capacities
  rwa [List.length_map, List.length_map, length_abs, length_abs] at this

theorem After.step {sc sc₁ : ShardedCache} (h : After stdHash sc sc₁) (call : Time × Op) :
    ∃ sc₂ r, sc₁.step stdHash call = some (sc₂, r) ∧ After stdHash sc sc₂ := by
  obtain ⟨sc₂, r, hstep, hwf, hcap⟩ := wf_step h.wf call
  exact ⟨sc₂, r, hstep, hwf, hcap.trans h.capacities⟩

theorem After.of_step {sc sc₁ sc₂ : ShardedCache} (h : After stdHash sc sc₁) {call : Time × Op}
    {r : Reply} (hs : sc₁.step stdHash call = some (sc₂, r)) : After stdHash sc sc₂ := by
  obtain ⟨sc₂', r', hs', hafter⟩ := h.step call
  cases hs'.symm.trans hs
  exact hafter

namespace ScanLemmas

theorem readings_snoc (trace : List (Moment × ShardedCache)) (x : Moment × ShardedCache) :
    readings (trace ++ [x]) = readings trace ++ readings [x] :=
  List.filterMap_append

theorem zipIdx_foldl_snoc {α β : Type} (f : β → α × Nat → β) (b : β) (l : List α) (a : α) :
    (l ++ [a]).zipIdx.foldl f b = f (l.zipIdx.foldl f b) (a, l.length) := by
  rw [List.zipIdx_append, List.foldl_append, Nat.zero_add]
  rfl

end ScanLemmas

open ScanLemmas

/-- What holds of a scan at every moment: it has gone over the shards it has read, each one as it
was then. -/
structure Scanned {α : Type} (stdHash : Bytes → UInt64) (body : Time → Cache → α → α)
    (sc : ShardedCache) (start : α) (s : Scan α) (trace : List (Moment × ShardedCache)) : Prop where
  cache : After stdHash sc s.cache
  past : ∀ x ∈ trace, After stdHash sc x.2
  next : s.next = min sc.shards.length (readings trace).length
  acc : s.acc = (readings trace).zipIdx.foldl
    (fun acc x => (readShard x).elim acc fun c => body x.1.1 c acc) start

section Step

variable {α : Type} {body : Time → Cache → α → α} {sc : ShardedCache} {start : α} {s : Scan α}
  {trace : List (Moment × ShardedCache)}

/-- The caches that were read. -/
theorem Scanned.past_reading (h : Scanned stdHash body sc start s trace)
    {p : Time × ShardedCache} (hp : p ∈ readings trace) : After stdHash sc p.2 := by
  obtain ⟨⟨m, found⟩, hx, hm⟩ := List.mem_filterMap.mp hp
  cases m with
  | call => cases hm
  | read now =>
    cases hm
    exact h.past _ hx

theorem Scanned.past_snoc (h : Scanned stdHash body sc start s trace) (m : Moment) :
    ∀ x ∈ trace ++ [(m, s.cache)], After stdHash sc x.2 := by
  intro x hx
  rcases List.mem_append.mp hx with hx | hx
  · exact h.past x hx
  · rw [List.mem_singleton.mp hx]
    exact h.cache

/-- The loop reads its next shard, if there is one. -/
theorem scanned_read (h : Scanned stdHash body sc start s trace) (now : Time) :
    ∃ s' found, s.step stdHash body (.read now) = some (s', found) ∧
      Scanned stdHash body sc start s' (trace ++ [(.read now, found)]) := by
  have hmore : readings (trace ++ [(.read now, s.cache)])
      = readings trace ++ [(now, s.cache)] := readings_snoc _ _
  have hlen := h.cache.length
  have hnext := h.next
  have hfold := zipIdx_foldl_snoc (fun acc x => (readShard x).elim acc fun c => body x.1.1 c acc)
    start (readings trace) (now, s.cache)
  rw [← h.acc] at hfold
  unfold Scan.step
  cases hc : s.cache.shards[s.next]? with
  | none =>
    have hle : s.cache.shards.length ≤ s.next := List.getElem?_eq_none_iff.mp hc
    have hnone : readShard ((now, s.cache), (readings trace).length) = none :=
      List.getElem?_eq_none (show s.cache.shards.length ≤ (readings trace).length by omega)
    rw [hnone] at hfold
    refine ⟨s, s.cache, rfl, h.cache, h.past_snoc _, ?_, ?_⟩
    · rw [hmore, List.length_append, List.length_singleton]
      omega
    · rw [hmore]
      exact hfold.symm
  | some c =>
    have hlt : s.next < s.cache.shards.length := (List.getElem?_eq_some_iff.mp hc).1
    have hread : readShard ((now, s.cache), (readings trace).length) = some c := by
      rw [show (readings trace).length = s.next by omega]
      exact hc
    rw [hread] at hfold
    refine ⟨_, s.cache, rfl, h.cache, h.past_snoc _, ?_, ?_⟩
    · rw [hmore, List.length_append, List.length_singleton]
      show s.next + 1 = _
      omega
    · rw [hmore]
      exact hfold.symm

theorem scanned_step (h : Scanned stdHash body sc start s trace) (m : Moment) :
    ∃ s' found, s.step stdHash body m = some (s', found) ∧
      Scanned stdHash body sc start s' (trace ++ [(m, found)]) := by
  cases m with
  | call now op =>
    obtain ⟨sc₂, r, hstep, hafter⟩ := h.cache.step (now, op.1)
    have hsame : readings (trace ++ [(.call now op, s.cache)]) = readings trace := by
      rw [readings_snoc]
      exact List.append_nil _
    refine ⟨_, _, by rw [Scan.step, hstep]; rfl, hafter, h.past_snoc _, ?_, ?_⟩
    · rw [hsame]
      exact h.next
    · rw [hsame]
      exact h.acc
  | read now => exact scanned_read h now

end Step

/-- A scan from any reachable cache, under any schedule. -/
theorem scan_spec {α : Type} (body : Time → Cache → α → α) {sc : ShardedCache}
    (h : sc.WF stdHash) (start : α) (moments : List Moment) :
    ∃ s caches, Machine.run (Scan.step stdHash body) ⟨sc, 0, start⟩ moments = some (s, caches) ∧
      Scanned stdHash body sc start s (moments.zip caches) :=
  Machine.run_of_traceInvariant (P := Scanned stdHash body sc start)
    (fun _ _ m hs => scanned_step hs m)
    ⟨⟨h, rfl⟩, fun _ hx => absurd hx List.not_mem_nil, (Nat.min_zero _).symm, rfl⟩ moments

/-! ## Exports -/

/-- What a reading of `export_entries` adds. -/
def exportedPart (x : (Time × ShardedCache) × Nat) : List EntrySnapshot :=
  (readShard x).elim [] fun c => c.exportEntries x.1.1

namespace ScanLemmas

theorem export_eq_flatMap (l : List ((Time × ShardedCache) × Nat)) :
    l.foldl (fun acc x => (readShard x).elim acc fun c => exportBody x.1.1 c acc) []
      = l.flatMap exportedPart := by
  rw [List.flatMap_eq_foldl]
  congr 1
  funext acc x
  unfold exportedPart
  cases readShard x with
  | none => exact (List.append_nil acc).symm
  | some c => rfl

/-- An exported entry is the export of a live entry of the shard that was read. -/
theorem mem_exportedPart {x : (Time × ShardedCache) × Nat} {s : EntrySnapshot}
    (h : s ∈ exportedPart x) :
    ∃ c e, readShard x = some c ∧ e ∈ c.entries.toList ∧ Cache.exportEntry x.1.1 e = some s := by
  unfold exportedPart at h
  cases hc : readShard x with
  | none =>
    rw [hc] at h
    cases h
  | some c =>
    rw [hc] at h
    obtain ⟨e, he, hs⟩ := mem_exportEntries h
    exact ⟨c, e, rfl, he, hs⟩

theorem exportedPart_owned {sc : ShardedCache} {x : (Time × ShardedCache) × Nat}
    (h : After stdHash sc x.1.2) {s : EntrySnapshot} (hs : s ∈ exportedPart x) :
    sc.shardIndexFor stdHash s.key = x.2 := by
  obtain ⟨c, e, hc, he, hes⟩ := mem_exportedPart hs
  rw [← shardIndexFor_of_length h.length]
  exact exported_placed h.wf (List.mk_mem_zipIdx_iff_getElem?.mpr hc)
    (List.mem_filterMap.mpr ⟨e, he, hes⟩)

theorem nodupBy_exportedPart {sc : ShardedCache} {x : (Time × ShardedCache) × Nat}
    (h : After stdHash sc x.1.2) : Keyed.NodupBy EntrySnapshot.key (exportedPart x) := by
  unfold exportedPart
  cases hc : readShard x with
  | none => exact List.nodup_nil
  | some c => exact nodupBy_export (h.wf.shard c (List.mem_of_getElem? hc)) _

end ScanLemmas

open ScanLemmas

/-- The entries exported under a schedule have distinct keys. -/
theorem export_nodup {sc : ShardedCache} {s : Scan (List EntrySnapshot)}
    {trace : List (Moment × ShardedCache)} (h : Scanned stdHash exportBody sc [] s trace) :
    Keyed.NodupBy EntrySnapshot.key s.acc := by
  have hafter : ∀ x ∈ (readings trace).zipIdx, After stdHash sc x.1.2 := fun x hx =>
    h.past_reading (List.fst_mem_of_mem_zipIdx hx)
  have hindex : Keyed.NodupBy Prod.snd (readings trace).zipIdx := by
    rw [Keyed.NodupBy, List.zipIdx_map_snd]
    exact List.nodup_range'
  rw [h.acc, export_eq_flatMap]
  exact Keyed.nodupBy_flatMap (sc.shardIndexFor stdHash) hindex
    (fun x hx => nodupBy_exportedPart (hafter x hx))
    fun x hx y hy => exportedPart_owned (hafter x hx) hy

/-- An entry that is there when its shard is read is exported. -/
theorem export_complete {sc : ShardedCache} {s : Scan (List EntrySnapshot)}
    {trace : List (Moment × ShardedCache)} (h : Scanned stdHash exportBody sc [] s trace)
    (hdone : s.next = sc.shards.length) {e : Entry}
    (hlive : ∀ p ∈ readings trace,
      e ∈ (p.2.shardFor stdHash e.key).entries.toList ∧ isExpired p.1 e = false) :
    ∃ y, s.acc.filter (fun y => decide (y.key = e.key)) = [y] ∧ y.value = e.value := by
  have hlt := sc.shardIndexFor_lt stdHash e.key
  have hnext := h.next
  have hread := List.getElem?_eq_getElem (show sc.shardIndexFor stdHash e.key
    < (readings trace).length by omega)
  generalize (readings trace)[sc.shardIndexFor stdHash e.key] = p at hread
  have hp := List.mem_of_getElem? hread
  obtain ⟨he, hx⟩ := hlive p hp
  obtain ⟨y, hy⟩ := exportEntry_of_live hx
  have hshard : readShard (p, sc.shardIndexFor stdHash e.key)
      = some (p.2.shardFor stdHash e.key) := by
    rw [readShard, ← shardIndexFor_of_length (h.past_reading hp).length]
    exact p.2.shardFor_eq e.key
  have hmem : y ∈ s.acc := by
    rw [h.acc, export_eq_flatMap]
    refine List.mem_flatMap.mpr ⟨_, List.mk_mem_zipIdx_iff_getElem?.mpr hread, ?_⟩
    unfold exportedPart
    rw [hshard]
    exact List.mem_filterMap.mpr ⟨e, he, hy⟩
  refine ⟨y, ?_, (live_of_exportEntry hy).2⟩
  rw [← exportEntry_key hy]
  exact Keyed.filter_key (export_nodup h) hmem

/-! ## Sizes -/

/-- The capacities of shards that are created alike. -/
def Alike (capacities : List (Option Nat)) : Prop :=
  (∀ o ∈ capacities, o = none) ∨ ∀ o ∈ capacities, o ≠ none

namespace ScanLemmas

theorem load_capacities {sc sc' : ShardedCache} (h : sc.WF stdHash) {file : Option Bytes}
    {wall : Millis} {clock : Nat → Time} {res : LoadResult}
    (hl : load stdHash sc file wall clock = some (sc', res)) :
    sc'.abs.map Lru.capacity = sc.abs.map Lru.capacity := by
  cases file with
  | none =>
    cases hl
    rfl
  | some bytes =>
    rcases load_cases h bytes wall clock with ⟨e, -, hload⟩ | ⟨p, sc₁, res₁, -, hload, -, -, -, hr⟩
    · cases hload.symm.trans hl
      rfl
    · cases hload.symm.trans hl
      refine List.ext_getElem? fun j => ?_
      rw [ShardedCache.abs, ShardedCache.abs, List.map_map, List.map_map, List.getElem?_map,
        List.getElem?_map]
      cases hj : sc.shards[j]? with
      | none =>
        rw [List.getElem?_eq_none (hr.1.trans_le (List.getElem?_eq_none_iff.mp hj))]
      | some c =>
        obtain ⟨c', hj', hcap, -⟩ := hr.2 j c hj
        rw [hj']
        exact congrArg some hcap

theorem alike_reachable {sc : ShardedCache} (h : Reachable stdHash sc) :
    Alike (sc.abs.map Lru.capacity) := by
  induction h with
  | unbounded n =>
    refine Or.inl fun o ho => ?_
    obtain ⟨l, hl, rfl⟩ := List.mem_map.mp ho
    obtain ⟨c, hc, rfl⟩ := List.mem_map.mp hl
    rw [List.eq_of_mem_replicate hc]
    rfl
  | bounded n total =>
    refine Or.inr fun o ho => ?_
    obtain ⟨l, hl, rfl⟩ := List.mem_map.mp ho
    obtain ⟨c, hc, rfl⟩ := List.mem_map.mp hl
    obtain ⟨i, -, rfl⟩ := List.mem_map.mp hc
    exact Option.some_ne_none _
  | step h hs ih =>
    obtain ⟨sc₁, r₁, hs₁, -, hcap⟩ := wf_step h.wf _
    cases hs₁.symm.trans hs
    rw [hcap]
    exact ih
  | load h hl ih =>
    rw [load_capacities h.wf hl]
    exact ih

/-- A cache that has a capacity has it in its shards. -/
theorem capacity_eq_some {sc : ShardedCache} (h : Reachable stdHash sc) {n : Nat}
    (hn : sc.capacity = some n) :
    (∀ o ∈ sc.abs.map Lru.capacity, o ≠ none) ∧
      n = ((sc.abs.map Lru.capacity).map fun o => o.getD 0).sum := by
  have hhead := List.head_mem (List.ne_nil_of_length_pos sc.nonempty)
  unfold capacity at hn
  split at hn
  · cases hn
  · next m hm =>
    cases hn
    refine ⟨(alike_reachable h).resolve_left fun hall => ?_, ?_⟩
    · cases hm.symm.trans (hall _ (List.mem_map_of_mem (List.mem_map_of_mem hhead)))
    · rw [ShardedCache.abs, List.map_map, List.map_map]
      rfl

/-- A bounded shard holds no more than its capacity at the moment it is read. -/
theorem size_step {sc : ShardedCache} (hbounded : ∀ o ∈ sc.abs.map Lru.capacity, o ≠ none)
    {s : Scan Nat} (hafter : After stdHash sc s.cache)
    (hle : s.acc ≤ (((sc.abs.map Lru.capacity).take s.next).map fun o => o.getD 0).sum)
    (m : Moment) :
    ∃ s' found, s.step stdHash sizeBody m = some (s', found) ∧ After stdHash sc s'.cache ∧
      s'.acc ≤ (((sc.abs.map Lru.capacity).take s'.next).map fun o => o.getD 0).sum := by
  cases m with
  | call now op =>
    obtain ⟨sc₂, r, hstep, hafter₂⟩ := hafter.step (now, op.1)
    exact ⟨{ s with cache := sc₂ }, s.cache, by rw [Scan.step, hstep]; rfl, hafter₂, hle⟩
  | read now =>
    unfold Scan.step
    cases hc : s.cache.shards[s.next]? with
    | none => exact ⟨s, s.cache, rfl, hafter, hle⟩
    | some c =>
      refine ⟨_, s.cache, rfl, hafter, ?_⟩
      have hcap : (sc.abs.map Lru.capacity)[s.next]? = some c.capacity := by
        rw [← hafter.capacities, ShardedCache.abs, List.map_map, List.getElem?_map, hc]
        rfl
      have hsize : c.size ≤ c.capacity.getD 0 := by
        cases hn : c.capacity with
        | none => exact absurd hn (hbounded _ (List.mem_of_getElem? hcap))
        | some n => exact (hafter.wf.shard c (List.mem_of_getElem? hc)).bounded n hn
      show s.acc + c.size ≤ (((sc.abs.map Lru.capacity).take (s.next + 1)).map _).sum
      rw [List.take_add_one, hcap, List.map_append, List.sum_append]
      exact Nat.add_le_add hle hsize

theorem size_le {sc : ShardedCache} (h : sc.WF stdHash)
    (hbounded : ∀ o ∈ sc.abs.map Lru.capacity, o ≠ none) (moments : List Moment) :
    ∃ s caches, Machine.run (Scan.step stdHash sizeBody) ⟨sc, 0, 0⟩ moments = some (s, caches) ∧
      s.acc ≤ ((sc.abs.map Lru.capacity).map fun o => o.getD 0).sum := by
  obtain ⟨s, caches, hrun, -, hle⟩ := Machine.run_of_invariant
    (P := fun s : Scan Nat => After stdHash sc s.cache ∧
      s.acc ≤ (((sc.abs.map Lru.capacity).take s.next).map fun o => o.getD 0).sum)
    (fun s m hs => size_step hbounded hs.1 hs.2 m)
    (s := ⟨sc, 0, 0⟩) ⟨⟨h, rfl⟩, Nat.zero_le _⟩ moments
  exact ⟨s, caches, hrun, hle.trans (((List.take_sublist _ _).map _).sum_le_sum fun _ _ =>
    Nat.zero_le _)⟩

end ScanLemmas

/-- **Reading all shards.** Other threads make any calls on keys while `export_entries` or `size` go
over the shards of a reachable cache.

What `export_entries` puts together has distinct keys. Each of its entries is the export of an entry
that was live in the shard at the moment the shard was read. If it has read all shards, an entry
that was there and live at each reading is exported exactly once. What `size` adds up is no more
than the total capacity of a bounded cache. -/
theorem scan_sane (stdHash : Bytes → UInt64) {sc : ShardedCache} (hreach : Reachable stdHash sc)
    (moments : List Moment) :
    (∃ s caches,
      Machine.run (Scan.step stdHash exportBody) ⟨sc, 0, []⟩ moments = some (s, caches) ∧
      Keyed.NodupBy EntrySnapshot.key s.acc ∧
      (∀ y ∈ s.acc, ∃ (j : Nat) (now : Time) (sc' : ShardedCache) (c : Cache) (e : Entry),
        (readings (moments.zip caches))[j]? = some (now, sc') ∧ sc'.shards[j]? = some c ∧
        e ∈ c.entries.toList ∧ isExpired now e = false ∧ y.key = e.key ∧ y.value = e.value ∧
        Cache.exportEntry now e = some y) ∧
      (s.next = sc.shards.length → ∀ e : Entry,
        (∀ p ∈ readings (moments.zip caches),
          e ∈ (p.2.shardFor stdHash e.key).entries.toList ∧ isExpired p.1 e = false) →
        ∃ y, s.acc.filter (fun y => decide (y.key = e.key)) = [y] ∧ y.value = e.value)) ∧
    ∃ s caches, Machine.run (Scan.step stdHash sizeBody) ⟨sc, 0, 0⟩ moments = some (s, caches) ∧
      ∀ n, sc.capacity = some n → s.acc ≤ n := by
  constructor
  · obtain ⟨s, caches, hrun, h⟩ := scan_spec exportBody hreach.wf [] moments
    refine ⟨s, caches, hrun, export_nodup h, fun y hy => ?_, fun hdone e he =>
      export_complete h hdone he⟩
    rw [h.acc, export_eq_flatMap] at hy
    obtain ⟨⟨⟨now, sc'⟩, j⟩, hx, hyx⟩ := List.mem_flatMap.mp hy
    obtain ⟨c, e, hc, he, hes⟩ := mem_exportedPart hyx
    obtain ⟨hlive, hvalue⟩ := live_of_exportEntry hes
    exact ⟨j, now, sc', c, e, List.mk_mem_zipIdx_iff_getElem?.mp hx, hc, he, hlive,
      exportEntry_key hes, hvalue, hes⟩
  · cases hn : sc.capacity with
    | none =>
      obtain ⟨s, caches, hrun, -⟩ := scan_spec sizeBody hreach.wf 0 moments
      exact ⟨s, caches, hrun, fun n h => by cases h⟩
    | some n =>
      obtain ⟨hbounded, rfl⟩ := capacity_eq_some hreach hn
      obtain ⟨s, caches, hrun, hle⟩ := size_le hreach.wf hbounded moments
      exact ⟨s, caches, hrun, fun m h => by cases h; exact hle⟩

/-- A `set` comes between the readings of the two shards. -/
def setBetween : List Moment := [.read 0, .call 0 ⟨.set [107] [118], rfl⟩, .read 0]

/-- The key `a` belongs to the first of two shards, every other key to the second. -/
def apart (key : Bytes) : UInt64 := if key = [97] then 0 else 1

/-- There is an entry in each shard, and that of the second is live all the time: it is exported
once. -/
theorem scan_sane_two :
    ∃ sc : ShardedCache,
      sc.shards.map (fun c => c.entries.toList)
        = [[⟨[97], [49], none⟩], [⟨[98], [50], none⟩]] ∧
      (∃ s caches, Machine.run (Scan.step apart exportBody) ⟨sc, 0, []⟩ setBetween
          = some (s, caches) ∧ Keyed.NodupBy EntrySnapshot.key s.acc ∧
        ∃ y, s.acc.filter (fun y => decide (y.key = [98])) = [y] ∧ y.value = [50] ∧
          ∃ now e, isExpired now e = false ∧ Cache.exportEntry now e = some y) ∧
      ∃ s caches, Machine.run (Scan.step apart sizeBody) ⟨sc, 0, 0⟩ setBetween
          = some (s, caches) ∧ s.acc ≤ 4 := by
  have hsteps : ∃ sc, Reachable apart sc ∧
      sc.shards.map (fun c => c.entries.toList)
        = [[⟨[97], [49], none⟩], [⟨[98], [50], none⟩]] ∧
      sc.capacity = some 4 ∧
      (Machine.run (Scan.step apart exportBody) ⟨sc, 0, []⟩ setBetween).map (fun p =>
        (p.1.next, (readings (setBetween.zip p.2)).all fun q => decide
          (⟨[98], [50], none⟩ ∈ (q.2.shardFor apart [98]).entries.toList))) = some (2, true) :=
    ⟨_, .step (.step (.bounded 2 4)
      (show ShardedCache.step _ _ (0, .set [97] [49]) = some (_, .unit) from rfl))
      (show ShardedCache.step _ _ (0, .set [98] [50]) = some (_, .unit) from rfl), rfl, rfl, rfl⟩
  obtain ⟨sc, hreach, hshards, hcapacity, hthere⟩ := hsteps
  obtain ⟨⟨s, caches, hrun, hnodup, hlive, hcomplete⟩, s', caches', hrun', hsize⟩ :=
    scan_sane apart hreach setBetween
  rw [hrun] at hthere
  obtain ⟨hnext, hall⟩ := Prod.mk.inj (Option.some.inj hthere)
  have hlength : sc.shards.length = 2 := by
    rw [← List.length_map fun c : Cache => c.entries.toList, hshards]
    rfl
  obtain ⟨y, hy, hvalue⟩ := hcomplete (hnext.trans hlength.symm) ⟨[98], [50], none⟩ fun p hp =>
    ⟨of_decide_eq_true (List.all_eq_true.mp hall p hp), rfl⟩
  have hmem : y ∈ s.acc := by
    have hfilter := hy.symm ▸ List.mem_singleton_self y
    exact (List.mem_filter.mp hfilter).1
  obtain ⟨-, now, -, -, e, -, -, -, hexpired, -, -, hexport⟩ := hlive y hmem
  exact ⟨sc, hshards, ⟨s, caches, hrun, hnodup, y, hy, hvalue, now, e, hexpired, hexport⟩,
    s', caches', hrun', hsize 4 hcapacity⟩

end CacheX
