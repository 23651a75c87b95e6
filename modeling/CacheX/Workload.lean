import CacheX.Invariant
import CacheX.Lib.Paging

/-!
# Cache-aside

`run_throughput` of `cache_benchmark.cpp`: a row of requests against one `Cache`, where a `get` that
misses is followed by a `set` of the key. Nothing has a time-to-live. So the cache is a
least-recently-used memory for the keys, and what holds of those holds of the numbers that are
reported.

* `runThroughput_spec`: the numbers as those of least-recently-used paging.
* `hit_rate_monotone`: a larger cache has no fewer hits, no more misses and no more evictions.
* `lru_competitive`: the misses against those of any other policy, in hindsight.
-/

namespace CacheX.Bench

open InvariantLemmas

/-! ## The loop -/

inductive Op
  | get
  | set
deriving DecidableEq, Repr

/-- A request for the key at an index of the table of keys. -/
structure Request where
  op : Op
  key : UInt32
deriving DecidableEq, Repr

inductive Fill
  | none
  | cacheAside
deriving DecidableEq, Repr

structure Outcome where
  hits : Nat := 0
  misses : Nat := 0
  sets : Nat := 0
  fills : Nat := 0
  evictions : Nat := 0
  finalSize : Nat := 0
deriving DecidableEq, Repr

/-- The body of the loop. An index outside of the table is undefined. -/
def serveRequest (keys : List Bytes) (value : Bytes) (fill : Fill) (now : Time) (r : Request)
    (st : Cache × Outcome) : Option (Cache × Outcome) :=
  keys[r.key.toNat]?.bind fun key =>
    match r.op with
    | .get =>
      (st.1.get now key).bind fun p =>
        match p.2, fill with
        | some _, _ => some (p.1, { st.2 with hits := st.2.hits + 1 })
        | none, .cacheAside => (p.1.set key value).map fun c =>
            (c, { st.2 with misses := st.2.misses + 1, fills := st.2.fills + 1 })
        | none, .none => some (p.1, { st.2 with misses := st.2.misses + 1 })
    | .set => (st.1.set key value).map fun c => (c, { st.2 with sets := st.2.sets + 1 })

/-- `run_throughput`. `clock i` is the steady clock during request `i`. -/
def runThroughput (clock : Nat → Time) (cache : Cache) (requests : List Request)
    (keys : List Bytes) (value : Bytes) (fill : Fill) : Option (Cache × Outcome) :=
  (requests.zipIdx.foldlM (fun st p => serveRequest keys value fill (clock p.2) p.1 st)
    (cache, {})).map fun st =>
      (st.1, { st.2 with
        evictions := st.1.evictions - cache.evictions
        finalSize := st.1.size })

/-! ## One request -/

/-- A cache of `k` entries in which nothing has a deadline. -/
structure Plain (k : Nat) (c : Cache) : Prop where
  wf : c.WF
  capacity : c.capacity = some k
  persistent : ∀ e ∈ c.entries.toList, e.expiresAt = none

theorem plain_new (k : Nat) : Plain k (.new (some k)) := ⟨wf_new _, rfl, nofun⟩

theorem find_none_iff (c : Cache) (key : Bytes) :
    c.abs.find key = none ↔ key ∉ c.keysByRecency := by
  rw [Lru.find, Keyed.find_none, Cache.keysByRecency]
  simp only [List.mem_map, not_exists, not_and]
  rfl

namespace Plain

variable {k : Nat} {c : Cache}

theorem nodup (h : Plain k c) : c.keysByRecency.Nodup := (abs_wf h.wf).nodup

theorem size_eq (h : Plain k c) : c.size = c.keysByRecency.length := by
  rw [Cache.keysByRecency, List.length_map]
  exact linked_size h.wf.linked

theorem length_le (h : Plain k c) : c.keysByRecency.length ≤ k := by
  rw [← h.size_eq]
  exact h.wf.bounded k h.capacity

end Plain

theorem map_without (key : Bytes) (l : List Entry) :
    (Keyed.without Entry.key key l).map Entry.key = Keyed.without id key (l.map Entry.key) := by
  rw [Keyed.without, Keyed.without, List.filter_map]
  rfl

theorem map_put (k : Nat) (e : Entry) (l : List Entry) :
    (Keyed.put Entry.key (some k) e l).map Entry.key = Paging.touch k e.key (l.map Entry.key) := by
  show ((e :: Keyed.without Entry.key e.key l).take k).map Entry.key
    = (e.key :: Keyed.without id e.key (l.map Entry.key)).take k
  rw [List.map_take, List.map_cons, map_without]

/-- What a request does to the order of the keys and to the number of evictions. -/
structure Touched (k : Nat) (c : Cache) (key : Bytes) (c' : Cache) : Prop where
  plain : Plain k c'
  order : c'.keysByRecency = Paging.touch k key c.keysByRecency
  count : c'.evictions + c'.size = c.evictions + c.size + if key ∈ c.keysByRecency then 0 else 1
  grows : c.evictions ≤ c'.evictions

theorem touched_of_store {k : Nat} {c c' : Cache} (h : Plain k c) (hwf : c'.WF) {key value : Bytes}
    (habs : c'.abs = c.abs.store ⟨key, value, none⟩) : Touched k c key c' := by
  have hcap : c'.capacity = some k := (congrArg Lru.capacity habs).trans h.capacity
  have hitems : c'.entries.toList
      = Keyed.put Entry.key (some k) ⟨key, value, none⟩ c.entries.toList := by
    rw [← h.capacity]
    exact congrArg Lru.items habs
  have hplain : Plain k c' := by
    refine ⟨hwf, hcap, fun e he => ?_⟩
    rw [hitems] at he
    rcases List.mem_cons.mp ((Keyed.atMost_sublist _ _).subset he) with rfl | he
    · rfl
    · exact h.persistent e (Keyed.mem_without.mp he).1
  have horder : c'.keysByRecency = Paging.touch k key c.keysByRecency := by
    rw [Cache.keysByRecency, hitems, map_put]
    rfl
  have hevictions : c'.evictions = c.evictions
      + ((Keyed.front Entry.key ⟨key, value, none⟩ c.entries.toList).length
        - c'.entries.toList.length) := by
    rw [hitems, ← h.capacity]
    exact congrArg Lru.evictions habs
  have hsize : c'.size = c'.entries.toList.length := linked_size hwf.linked
  have hsize₀ : c.size = c.entries.toList.length := linked_size h.wf.linked
  have hle : c'.entries.toList.length
      ≤ (Keyed.front Entry.key ⟨key, value, none⟩ c.entries.toList).length := by
    rw [hitems]
    exact (Keyed.atMost_sublist _ _).length_le
  have hfront : (Keyed.front Entry.key ⟨key, value, none⟩ c.entries.toList).length
      = c.entries.toList.length + if key ∈ c.keysByRecency then 0 else 1 := by
    rw [Keyed.front, List.length_cons]
    cases hf : c.abs.find key with
    | none =>
      rw [if_neg ((find_none_iff c key).mp hf)]
      exact congrArg (·.length + 1) (Keyed.without_eq_self (Keyed.find_none.mp hf))
    | some e =>
      have hmem : key ∈ c.keysByRecency := by
        by_contra hnot
        rw [(find_none_iff c key).mpr hnot] at hf
        cases hf
      rw [if_pos hmem]
      exact Keyed.length_without (abs_wf h.wf).nodup hf
  exact ⟨hplain, horder, by omega, by omega⟩

/-- A `get` that hits. -/
theorem get_hit {k : Nat} {c : Cache} (h : Plain k c) (now : Time) {key : Bytes}
    (hmem : key ∈ c.keysByRecency) :
    ∃ c' v, c.get now key = some (c', some v) ∧ Touched k c key c' := by
  obtain ⟨e, he, rfl⟩ := List.mem_map.mp hmem
  have hf : c.abs.find e.key = some e := Keyed.find_of_mem (abs_wf h.wf).nodup he
  have hlive : isExpired now e = false := by rw [isExpired, h.persistent e he]
  obtain ⟨c', hget, hwf, habs⟩ := get_spec h.wf now e.key
  rw [Lru.get_live hf hlive] at hget habs
  refine ⟨c', e.value, hget, ?_⟩
  have hself : (⟨e.key, e.value, none⟩ : Entry) = e := by
    obtain ⟨key, value, d⟩ := e
    cases h.persistent _ he
    rfl
  have hstore : c'.abs = c.abs.store ⟨e.key, e.value, none⟩ := by
    rw [hself, Lru.store_present (abs_wf h.wf) hf]
    exact habs
  exact touched_of_store h hwf hstore

/-- A `get` that misses. -/
theorem get_miss {k : Nat} {c : Cache} (h : Plain k c) (now : Time) {key : Bytes}
    (hmem : key ∉ c.keysByRecency) :
    ∃ c', c.get now key = some (c', none) ∧ c'.WF ∧ c'.abs = c.abs := by
  have hf := (find_none_iff c key).mpr hmem
  obtain ⟨c', hget, hwf, habs⟩ := get_spec h.wf now key
  rw [Lru.get_absent hf] at hget habs
  exact ⟨c', hget, hwf, habs⟩

theorem set_touches {k : Nat} {c c₀ : Cache} (h : Plain k c) (hwf : c₀.WF) (habs : c₀.abs = c.abs)
    (key value : Bytes) : ∃ c', c₀.set key value = some c' ∧ Touched k c key c' := by
  obtain ⟨c', hset, hwf', habs'⟩ := store_spec hwf key value none
  rw [habs] at habs'
  exact ⟨c', hset, touched_of_store h hwf' habs'⟩

/-! ## The whole row -/

/-- What a request adds to the numbers, given whether its key was missing. -/
def Outcome.count (out : Outcome) : Request × Bool → Outcome
  | (⟨.get, _⟩, false) => { out with hits := out.hits + 1 }
  | (⟨.get, _⟩, true) => { out with misses := out.misses + 1, fills := out.fills + 1 }
  | (⟨.set, _⟩, _) => { out with sets := out.sets + 1 }

theorem serveRequest_spec {k : Nat} {c : Cache} (h : Plain k c) {keys : List Bytes} (value : Bytes)
    (now : Time) {r : Request} {key : Bytes} (hkey : keys[r.key.toNat]? = some key)
    (out : Outcome) :
    ∃ c', serveRequest keys value .cacheAside now r (c, out)
        = some (c', out.count (r, Paging.missing key c.keysByRecency)) ∧ Touched k c key c' := by
  obtain ⟨op, index⟩ := r
  rw [serveRequest, hkey, Option.bind_some]
  cases op with
  | get =>
    by_cases hmem : key ∈ c.keysByRecency
    · obtain ⟨c', v, hget, htouched⟩ := get_hit h now hmem
      refine ⟨c', ?_, htouched⟩
      rw [Paging.missing_of_mem hmem]
      simp only [hget, Option.bind_some]
      rfl
    · obtain ⟨c₀, hget, hwf, habs⟩ := get_miss h now hmem
      obtain ⟨c', hset, htouched⟩ := set_touches h hwf habs key value
      refine ⟨c', ?_, htouched⟩
      rw [Paging.missing_of_notMem hmem]
      simp only [hget, Option.bind_some, hset, Option.map_some]
      rfl
  | set =>
    obtain ⟨c', hset, htouched⟩ := set_touches h h.wf rfl key value
    refine ⟨c', ?_, htouched⟩
    simp only [hset, Option.map_some]
    rfl

/-- The keys that are requested, in order. -/
def requested (keys : List Bytes) (requests : List Request) : List Bytes :=
  requests.filterMap fun r => keys[r.key.toNat]?

/-- The order of the keys after a row of requests. -/
def order (k : Nat) (l rs : List Bytes) : List Bytes := rs.foldl (fun l r => Paging.touch k r l) l

theorem loop_spec {k : Nat} {keys : List Bytes} (value : Bytes) (clock : Nat → Time)
    {requests : List Request} (hkeys : ∀ r ∈ requests, r.key.toNat < keys.length) {c : Cache}
    (h : Plain k c) (out : Outcome) (n : Nat) :
    ∃ c', (requests.zipIdx n).foldlM
        (fun st p => serveRequest keys value .cacheAside (clock p.2) p.1 st) (c, out)
        = some (c', (requests.zip
            (Paging.faults k c.keysByRecency (requested keys requests))).foldl Outcome.count out) ∧
      Plain k c' ∧ c'.keysByRecency = order k c.keysByRecency (requested keys requests) ∧
      c'.evictions + c'.size = c.evictions + c.size
        + (Paging.faults k c.keysByRecency (requested keys requests)).count true ∧
      c.evictions ≤ c'.evictions := by
  induction requests generalizing c out n with
  | nil => exact ⟨c, rfl, h, rfl, rfl, Nat.le_refl _⟩
  | cons r requests ih =>
    have hlt := hkeys r List.mem_cons_self
    have hkey := List.getElem?_eq_getElem hlt
    obtain ⟨c₁, hserve, htouched⟩ := serveRequest_spec h value (clock n) hkey out
    obtain ⟨c', hrest, hplain, horder, hcount, hgrows⟩ := ih
      (fun r hr => hkeys r (List.mem_cons_of_mem _ hr)) htouched.plain
      (out.count (r, Paging.missing keys[r.key.toNat] c.keysByRecency)) (n + 1)
    have hrequested : requested keys (r :: requests)
        = keys[r.key.toNat] :: requested keys requests := List.filterMap_cons_some hkey
    rw [htouched.order] at hrest horder hcount
    refine ⟨c', ?_, hplain, ?_, ?_, htouched.grows.trans hgrows⟩
    · rw [List.zipIdx_cons, List.foldlM_cons, hserve, hrequested, Paging.faults,
        List.zip_cons_cons, List.foldl_cons]
      exact hrest
    · rw [hrequested]
      exact horder
    · have hone := htouched.count
      rw [hrequested, Paging.faults, List.count_cons]
      by_cases hmem : keys[r.key.toNat] ∈ c.keysByRecency
      · rw [if_pos hmem] at hone
        rw [Paging.missing_of_mem hmem]
        simp only [Bool.false_eq_true, beq_iff_eq, if_false]
        omega
      · rw [if_neg hmem] at hone
        rw [Paging.missing_of_notMem hmem]
        simp only [beq_self_eq_true, if_true]
        omega

/-- A `get` that found its key. -/
def isHit : Request × Bool → Bool
  | (⟨.get, _⟩, false) => true
  | _ => false

/-- A `get` that did not. -/
def isMiss : Request × Bool → Bool
  | (⟨.get, _⟩, true) => true
  | _ => false

theorem foldl_count (l : List (Request × Bool)) (out : Outcome) :
    (l.foldl Outcome.count out).hits = out.hits + l.countP isHit ∧
    (l.foldl Outcome.count out).misses = out.misses + l.countP isMiss ∧
    (l.foldl Outcome.count out).fills = out.fills + l.countP isMiss := by
  induction l generalizing out with
  | nil => exact ⟨rfl, rfl, rfl⟩
  | cons x l ih =>
    obtain ⟨hhits, hmisses, hfills⟩ := ih (out.count x)
    rw [List.foldl_cons, hhits, hmisses, hfills, List.countP_cons, List.countP_cons]
    obtain ⟨⟨op, key⟩, fault⟩ := x
    cases op <;> cases fault <;> simp only [Outcome.count, isHit, isMiss, if_true,
      Bool.false_eq_true, if_false] <;> omega

/-- The faults of a cache of `k` entries with the given order of keys. -/
def faultsOf (k : Nat) (keys : List Bytes) (l : List Bytes) (requests : List Request) : List Bool :=
  Paging.faults k l (requested keys requests)

theorem runThroughput_spec {k : Nat} {c : Cache} (h : Plain k c) {keys : List Bytes} (value : Bytes)
    (clock : Nat → Time) {requests : List Request}
    (hkeys : ∀ r ∈ requests, r.key.toNat < keys.length) :
    ∃ c' out, runThroughput clock c requests keys value .cacheAside = some (c', out) ∧
      Plain k c' ∧ c'.keysByRecency = order k c.keysByRecency (requested keys requests) ∧
      out.hits = (requests.zip (faultsOf k keys c.keysByRecency requests)).countP isHit ∧
      out.misses = (requests.zip (faultsOf k keys c.keysByRecency requests)).countP isMiss ∧
      out.fills = out.misses ∧ out.finalSize = c'.keysByRecency.length ∧
      out.evictions + out.finalSize
        = c.keysByRecency.length + (faultsOf k keys c.keysByRecency requests).count true := by
  obtain ⟨c', hloop, hplain, horder, hcount, hgrows⟩ := loop_spec value clock hkeys h {} 0
  obtain ⟨hhits, hmisses, hfills⟩ := foldl_count
    (requests.zip (faultsOf k keys c.keysByRecency requests)) {}
  rw [h.size_eq, hplain.size_eq] at hcount
  refine ⟨c', _, congrArg _ hloop, hplain, horder, ?_, ?_, ?_, hplain.size_eq, ?_⟩
  · exact hhits.trans (Nat.zero_add _)
  · exact hmisses.trans (Nat.zero_add _)
  · exact hfills.trans hmisses.symm
  · show c'.evictions - c.evictions + c'.size = _
    rw [hplain.size_eq, faultsOf]
    omega

/-! ## Larger caches -/

/-- All keys in the order of their last request. -/
def recency (l rs : List Bytes) : List Bytes := rs.foldl (fun l r => Keyed.front id r l) l

theorem nodup_recency {l : List Bytes} (hl : l.Nodup) (rs : List Bytes) : (recency l rs).Nodup := by
  induction rs generalizing l with
  | nil => exact hl
  | cons r rs ih => exact ih (Paging.nodup_front hl r)

theorem order_take {l : List Bytes} (hl : l.Nodup) (k : Nat) (rs : List Bytes) :
    order k (l.take k) rs = (recency l rs).take k := by
  induction rs generalizing l with
  | nil => rfl
  | cons r rs ih =>
    show order k (Paging.touch k r (l.take k)) rs = (recency (Keyed.front id r l) rs).take k
    rw [Paging.touch_take hl]
    exact ih (Paging.nodup_front hl r)

theorem length_recency {l : List Bytes} (hl : l.Nodup) (rs : List Bytes) :
    l.length ≤ (recency l rs).length := by
  induction rs generalizing l with
  | nil => exact Nat.le_refl _
  | cons r rs ih =>
    refine Nat.le_trans ?_ (ih (Paging.nodup_front hl r))
    have hnodup := Paging.nodupBy_id.mpr hl
    show l.length ≤ (Keyed.without id r l).length + 1
    cases hf : Keyed.find id r l with
    | none =>
      rw [Keyed.without_eq_self (Keyed.find_none.mp hf)]
      exact Nat.le_succ _
    | some x => exact (Keyed.length_without hnodup hf).ge

theorem countP_hit_le {small large : List Bool}
    (h : List.Forall₂ (fun small large => large = true → small = true) small large)
    (requests : List Request) :
    (requests.zip small).countP isHit ≤ (requests.zip large).countP isHit ∧
      (requests.zip large).countP isMiss ≤ (requests.zip small).countP isMiss := by
  induction h generalizing requests with
  | nil =>
    rw [List.zip_nil_right]
    exact ⟨Nat.le_refl _, Nat.le_refl _⟩
  | @cons x y small large hxy _ ih =>
    cases requests with
    | nil => exact ⟨Nat.le_refl _, Nat.le_refl _⟩
    | cons r requests =>
      obtain ⟨hhits, hmisses⟩ := ih requests
      obtain ⟨op, key⟩ := r
      simp only [List.zip_cons_cons, List.countP_cons]
      cases op <;> cases x <;> cases y <;> simp [isHit, isMiss] at hxy ⊢ <;> omega

/-- Two passes over one cache, as the benchmark makes them: one to warm it up, and one whose numbers
are reported. -/
def measured (clock clock' : Nat → Time) (k : Nat) (warmup requests : List Request)
    (keys : List Bytes) (value : Bytes) : Option Outcome :=
  (runThroughput clock (.new (some k)) warmup keys value .cacheAside).bind fun p =>
    (runThroughput clock' p.1 requests keys value .cacheAside).map Prod.snd

theorem measured_spec (clock clock' : Nat → Time) (k : Nat) {warmup requests : List Request}
    {keys : List Bytes} (value : Bytes)
    (hkeys : ∀ r ∈ warmup ++ requests, r.key.toNat < keys.length) :
    ∃ out, measured clock clock' k warmup requests keys value = some out ∧
      out.hits = (requests.zip (faultsOf k keys
        ((recency [] (requested keys warmup)).take k) requests)).countP isHit ∧
      out.misses = (requests.zip (faultsOf k keys
        ((recency [] (requested keys warmup)).take k) requests)).countP isMiss ∧
      out.evictions
          + min k (recency (recency [] (requested keys warmup)) (requested keys requests)).length
        = min k (recency [] (requested keys warmup)).length + (faultsOf k keys
          ((recency [] (requested keys warmup)).take k) requests).count true := by
  obtain ⟨c, warm, hwarm, hplain, horder, -⟩ := runThroughput_spec (plain_new k) value clock
    fun r hr => hkeys r (List.mem_append_left _ hr)
  obtain ⟨c', out, hrun, -, horder', hhits, hmisses, -, hfinal, hcount⟩ :=
    runThroughput_spec hplain value clock' fun r hr => hkeys r (List.mem_append_right _ hr)
  have hnodup := nodup_recency List.nodup_nil (requested keys warmup)
  have hkeysAt : c.keysByRecency = (recency [] (requested keys warmup)).take k := by
    have hempty := order_take List.nodup_nil k (requested keys warmup)
    rw [List.take_nil] at hempty
    exact horder.trans hempty
  rw [hkeysAt] at horder' hhits hmisses hcount
  rw [order_take hnodup] at horder'
  rw [hfinal, horder', List.length_take, List.length_take] at hcount
  refine ⟨out, ?_, hhits, hmisses, hcount⟩
  rw [measured, hwarm, Option.bind_some, hrun]
  rfl

/-- **Hit rate and capacity.** The benchmark fills a cache with one row of requests and measures
another row, for two capacities, one after the other. The larger cache has at least the hits of the
smaller one, at most its misses and at most its evictions. -/
theorem hit_rate_monotone {small large : Nat} (hcap : small ≤ large)
    (clock clock' clockLarge clockLarge' : Nat → Time) {warmup requests : List Request}
    {keys : List Bytes} (value : Bytes)
    (hkeys : ∀ r ∈ warmup ++ requests, r.key.toNat < keys.length) :
    ∃ p q, measured clock clock' small warmup requests keys value = some p ∧
      measured clockLarge clockLarge' large warmup requests keys value = some q ∧
      p.hits ≤ q.hits ∧ q.misses ≤ p.misses ∧ q.evictions ≤ p.evictions := by
  obtain ⟨p, hp, hhits, hmisses, hevictions⟩ := measured_spec clock clock' small value hkeys
  obtain ⟨q, hq, hhits', hmisses', hevictions'⟩ :=
    measured_spec clockLarge clockLarge' large value hkeys
  have hnodup := nodup_recency List.nodup_nil (requested keys warmup)
  have hfaults := Paging.faults_le hcap hnodup (requested keys requests)
  obtain ⟨hle, hle'⟩ := countP_hit_le hfaults requests
  refine ⟨p, q, hp, hq, ?_, ?_, ?_⟩
  · rw [hhits, hhits']
    exact hle
  · rw [hmisses, hmisses']
    exact hle'
  · have hloads := Paging.count_le_of_forall₂ hfaults
    have hgrows := length_recency hnodup (requested keys requests)
    rw [faultsOf] at hevictions hevictions'
    omega

/-- Three keys against caches of one and of two entries. -/
theorem hit_rate_monotone_three :
    ∃ p q, measured (fun _ => 0) (fun _ => 1) 1 [⟨.set, 0⟩] [⟨.get, 1⟩, ⟨.get, 0⟩, ⟨.get, 2⟩]
        [[97], [98], [99]] [1] = some p ∧
      measured (fun _ => 2) (fun _ => 3) 2 [⟨.set, 0⟩] [⟨.get, 1⟩, ⟨.get, 0⟩, ⟨.get, 2⟩]
        [[97], [98], [99]] [1] = some q ∧
      p.hits ≤ q.hits ∧ q.misses ≤ p.misses ∧ q.evictions ≤ p.evictions :=
  hit_rate_monotone (by decide) _ _ _ _ _ (by decide)

/-! ## Other policies -/

theorem countP_miss_le (requests : List Request) (faults : List Bool) :
    (requests.zip faults).countP isMiss ≤ faults.count true := by
  induction faults generalizing requests with
  | nil =>
    rw [List.zip_nil_right]
    exact Nat.le_refl _
  | cons fault faults ih =>
    cases requests with
    | nil => exact Nat.zero_le _
    | cons r requests =>
      have htail := ih requests
      obtain ⟨op, key⟩ := r
      rw [List.zip_cons_cons, List.countP_cons, List.count_cons]
      cases op <;> cases fault <;> simp [isMiss] <;> omega

/-- **Least recently used in hindsight.** Compare the misses of a cache of `k` entries with any way
of running a cache of `h` entries over the same requests, `h` at most `k`, that loads keys on demand
and may know the requests to come. If that one loads `n` times, then the misses, and even all the
loads, are at most `k / (k - h + 1)` times `n`, up to a constant that depends on `k` only. -/
theorem lru_competitive {h k : Nat} (hk : h ≤ k) (clock : Nat → Time) {requests : List Request}
    {keys : List Bytes} (value : Bytes) (hkeys : ∀ r ∈ requests, r.key.toNat < keys.length)
    {S : Finset Bytes} (hcard : S.card ≤ h) {n : Nat}
    (hschedule : Paging.Schedule h S (requested keys requests) n) :
    ∃ c out, runThroughput clock (.new (some k)) requests keys value .cacheAside = some (c, out) ∧
      out.misses ≤ out.evictions + out.finalSize ∧
      2 * ((k - h + 1) * (out.evictions + out.finalSize)) ≤ 2 * (k * n) + k * (k + 1) := by
  obtain ⟨c, out, hrun, -, -, -, hmisses, -, -, hcount⟩ :=
    runThroughput_spec (plain_new k) value clock hkeys
  refine ⟨c, out, hrun, ?_, ?_⟩
  · rw [hmisses, hcount]
    exact (countP_miss_le requests _).trans (Nat.le_add_left _ _)
  · have hbound := Paging.faults_bound hk hschedule (Finset.Subset.refl S) hcard List.nodup_nil
      (Nat.zero_le k)
    have hstart : 2 * Paging.potential S k ([] : List Bytes) = k * (k + 1) :=
      Paging.two_mul_triangle k
    have hloads : out.evictions + out.finalSize
        = (Paging.faults k ([] : List Bytes) (requested keys requests)).count true :=
      hcount.trans (Nat.zero_add _)
    rw [hloads, ← hstart, ← Nat.mul_add]
    exact Nat.mul_le_mul_left 2 hbound

/-- A cache of two entries against a single place. -/
theorem lru_competitive_two : ∃ c out, runThroughput (fun _ => 0) (.new (some 2))
      [⟨.get, 0⟩, ⟨.get, 1⟩, ⟨.get, 0⟩] [[97], [98]] [1] .cacheAside = some (c, out) ∧
    out.misses ≤ out.evictions + out.finalSize ∧
    2 * ((2 - 1 + 1) * (out.evictions + out.finalSize)) ≤ 2 * (2 * 3) + 2 * (2 + 1) := by
  have hserves (S : Finset Bytes) (r : Bytes) : Paging.Serves 1 S r {r} :=
    ⟨Finset.mem_singleton_self r, Finset.singleton_subset_iff.mpr (Finset.mem_insert_self r S),
      (Finset.card_singleton r).le⟩
  have hschedule := Paging.Schedule.cons (hserves ∅ [97])
    (.cons (hserves _ [98]) (.cons (hserves _ [97]) (.nil _)))
  have hempty : (∅ : Finset Bytes).card ≤ 1 := Nat.zero_le 1
  exact lru_competitive (by decide) _ _ (by decide) hempty hschedule

end CacheX.Bench
