import CacheX.Sharded
import CacheX.Snapshot

/-!
# Loading a snapshot

`PersistenceManager::load` of `persistence.cpp`: parse the whole file, then replay its records into
the cache from the last to the first, through ordinary `set` calls. A record whose time ran out
while the file was on disk is counted and skipped.
-/

namespace CacheX

/-- `PersistenceManager::LoadResult`. -/
structure LoadResult where
  ok : Bool := false
  loaded : Nat := 0
  expired : Nat := 0
  error : Bytes := []
deriving DecidableEq, Repr

/-- How long the file sat on disk, by the wall clock; never negative. -/
def elapsedMs (wall savedAt : Millis) : Millis := max 0 (wall - savedAt)

section Load

variable (stdHash : Bytes → UInt64)

/-- The body of the replay loop, with the steady clock at `now`. -/
def replayRecord (elapsed : Millis) (now : Time) (record : Record)
    (st : ShardedCache × LoadResult) : Option (ShardedCache × LoadResult) :=
  if record.ttlMs = kNoExpiry then
    (st.1.set stdHash record.key record.value).map fun sc =>
      (sc, { st.2 with loaded := st.2.loaded + 1 })
  else
    let remaining := record.ttlMs - elapsed
    if 0 < remaining then
      (st.1.setTtl stdHash now record.key record.value remaining).map fun sc =>
        (sc, { st.2 with loaded := st.2.loaded + 1 })
    else some (st.1, { st.2 with expired := st.2.expired + 1 })

/-- The replay loop, from `rbegin` to `rend`. `clock i` is the steady clock when the record with
index `i` is replayed. -/
def replay (elapsed : Millis) (clock : Nat → Time) (records : List Record)
    (st : ShardedCache × LoadResult) : Option (ShardedCache × LoadResult) :=
  records.zipIdx.reverse.foldlM (fun st p => replayRecord stdHash elapsed (clock p.2) p.1 st) st

/-- What `load` does once the file is parsed: refuse it, or replay it. -/
def applyParsed (sc : ShardedCache) (wall : Millis) (clock : Nat → Time) :
    Except LoadError Parsed → Option (ShardedCache × LoadResult)
  | .error e => some (sc, { error := e.text })
  | .ok p =>
    (replay stdHash (elapsedMs wall p.savedAt) clock p.records (sc, {})).map fun st =>
      (st.1, { st.2 with ok := true })

/-- `load`. There is no file for `none`, which is not an error. -/
def load (sc : ShardedCache) (file : Option Bytes) (wall : Millis) (clock : Nat → Time) :
    Option (ShardedCache × LoadResult) :=
  match file with
  | none => some (sc, { ok := true })
  | some bytes => applyParsed stdHash sc wall clock (parseSnapshot bytes)

end Load

/-! ## What one record does -/

/-- The entry a record stands for at the clock reading `now`, unless its time ran out. -/
def restored (elapsed : Millis) (now : Time) (record : Record) : Option Entry :=
  if record.ttlMs = kNoExpiry then some ⟨record.key, record.value, none⟩
  else if 0 < record.ttlMs - elapsed then
    some ⟨record.key, record.value, some (now + (record.ttlMs - elapsed) * nanosPerMilli)⟩
  else none

theorem restored_key {elapsed : Millis} {now : Time} {record : Record} {e : Entry}
    (h : restored elapsed now record = some e) : e.key = record.key := by
  unfold restored at h
  split at h
  · cases h
    rfl
  · split at h
    · cases h
      rfl
    · cases h

namespace ShardedCache

variable {stdHash : Bytes → UInt64}

/-- A stored entry goes to the shard that owns its key. -/
def Stores (stdHash : Bytes → UInt64) (sc sc' : ShardedCache) (e : Entry) : Prop :=
  sc'.WF stdHash ∧
    sc'.abs = sc.abs.set (sc.shardIndexFor stdHash e.key) ((sc.lru stdHash e.key).store e)

theorem set_spec {sc : ShardedCache} (h : sc.WF stdHash) (k v : Bytes) :
    ∃ sc', sc.set stdHash k v = some sc' ∧ Stores stdHash sc sc' ⟨k, v, none⟩ := by
  obtain ⟨sc', hs, hwf, habs⟩ := @step_spec stdHash sc h (0, .set k v) k rfl
  obtain ⟨sc₁, hset, he⟩ := Option.map_eq_some_iff.mp hs
  cases he
  exact ⟨sc', hset, hwf, habs⟩

theorem setTtl_spec {sc : ShardedCache} (h : sc.WF stdHash) (now : Time) (k v : Bytes)
    {ttl : Millis} (ht : 0 < ttl) :
    ∃ sc', sc.setTtl stdHash now k v ttl = some sc' ∧
      Stores stdHash sc sc' ⟨k, v, some (now + ttl * nanosPerMilli)⟩ := by
  obtain ⟨sc', hs, hwf, habs⟩ := @step_spec stdHash sc h (now, .setTtl k v ttl) k rfl
  obtain ⟨sc₁, hset, he⟩ := Option.map_eq_some_iff.mp hs
  cases he
  refine ⟨sc', hset, hwf, habs.trans ?_⟩
  have hst : stored (now, .setTtl k v ttl) = some ⟨k, v, some (now + ttl * nanosPerMilli)⟩ :=
    if_neg (Int.not_le.mpr ht)
  rw [Lru.step_stored hst]

/-- The abstract shards after an entry is stored. -/
theorem Stores.abs_getElem {sc sc' : ShardedCache} {e : Entry} (h : Stores stdHash sc sc' e)
    {j : Nat} {s : Lru} (hj : sc.abs[j]? = some s) :
    sc'.abs[j]? = some (if sc.shardIndexFor stdHash e.key = j then s.store e else s) := by
  rw [h.2, List.getElem?_set]
  split
  · next hi =>
    subst hi
    rw [if_pos (List.getElem?_eq_some_iff.mp hj).1, lru_eq hj]
  · exact hj

end ShardedCache

open ShardedCache

variable {stdHash : Bytes → UInt64}

/-- A replayed record stores the entry it stands for, or is counted as expired. -/
theorem replayRecord_spec {sc : ShardedCache} (h : sc.WF stdHash) (res : LoadResult)
    (elapsed : Millis) (now : Time) (record : Record) :
    (∃ e sc', restored elapsed now record = some e ∧
      replayRecord stdHash elapsed now record (sc, res)
        = some (sc', { res with loaded := res.loaded + 1 }) ∧ Stores stdHash sc sc' e) ∨
    (restored elapsed now record = none ∧
      replayRecord stdHash elapsed now record (sc, res)
        = some (sc, { res with expired := res.expired + 1 })) := by
  unfold restored replayRecord
  split
  · obtain ⟨sc', hs, hst⟩ := set_spec h record.key record.value
    exact Or.inl ⟨_, sc', rfl, by rw [hs]; rfl, hst⟩
  · by_cases hpos : 0 < record.ttlMs - elapsed
    · obtain ⟨sc', hs, hst⟩ := ShardedCache.setTtl_spec h now record.key record.value hpos
      exact Or.inl ⟨_, sc', if_pos hpos, by rw [if_pos hpos, hs]; rfl, hst⟩
    · exact Or.inr ⟨if_neg hpos, if_neg hpos⟩

/-! ## What the replay does -/

/-- The entries of the records that have not run out, in file order. -/
def restoredAll (elapsed : Millis) (clock : Nat → Time) (records : List (Record × Nat)) :
    List Entry :=
  records.filterMap fun p => restored elapsed (clock p.2) p.1

theorem restoredAll_cons_some {elapsed : Millis} {clock : Nat → Time} {p : Record × Nat} {e : Entry}
    (h : restored elapsed (clock p.2) p.1 = some e) (records : List (Record × Nat)) :
    restoredAll elapsed clock (p :: records) = e :: restoredAll elapsed clock records :=
  List.filterMap_cons_some h

theorem restoredAll_cons_none {elapsed : Millis} {clock : Nat → Time} {p : Record × Nat}
    (h : restored elapsed (clock p.2) p.1 = none) (records : List (Record × Nat)) :
    restoredAll elapsed clock (p :: records) = restoredAll elapsed clock records :=
  List.filterMap_cons_none h

/-- The entries that belong to shard `j`. -/
def ofShard (stdHash : Bytes → UInt64) (sc : ShardedCache) (j : Nat) (entries : List Entry) :
    List Entry :=
  entries.filter fun e => decide (sc.shardIndexFor stdHash e.key = j)

theorem firsts_ofShard (sc : ShardedCache) (j : Nat) (entries : List Entry) :
    Keyed.firsts Entry.key (ofShard stdHash sc j entries)
      = ofShard stdHash sc j (Keyed.firsts Entry.key entries) :=
  Keyed.firsts_filter (fun k => decide (sc.shardIndexFor stdHash k = j)) entries

theorem key_mem_ofShard {sc : ShardedCache} {k : Bytes} {entries : List Entry} {j : Nat}
    (hk : sc.shardIndexFor stdHash k = j) :
    k ∈ (ofShard stdHash sc j entries).map Entry.key ↔ k ∈ entries.map Entry.key := by
  simp only [ofShard, List.mem_map, List.mem_filter, decide_eq_true_eq]
  constructor
  · rintro ⟨e, ⟨he, -⟩, rfl⟩
    exact ⟨e, he, rfl⟩
  · rintro ⟨e, he, rfl⟩
    exact ⟨e, ⟨he, hk⟩, rfl⟩

theorem replay_spec {sc : ShardedCache} (h : sc.WF stdHash) (res : LoadResult) (elapsed : Millis)
    (clock : Nat → Time) (records : List (Record × Nat)) :
    ∃ sc' res', records.reverse.foldlM
        (fun st p => replayRecord stdHash elapsed (clock p.2) p.1 st) (sc, res) = some (sc', res') ∧
      sc'.WF stdHash ∧ sc'.abs.length = sc.abs.length ∧
      res'.loaded + res'.expired = res.loaded + res.expired + records.length ∧
      ∀ j s, sc.abs[j]? = some s → ∃ s', sc'.abs[j]? = some s' ∧ s'.capacity = s.capacity ∧
        s'.items = (ofShard stdHash sc j (restoredAll elapsed clock records)).foldr
          (Keyed.put Entry.key s.capacity) s.items := by
  induction records with
  | nil => exact ⟨sc, res, rfl, h, rfl, rfl, fun j s hj => ⟨s, hj, rfl, rfl⟩⟩
  | cons p records ih =>
    obtain ⟨sc₁, res₁, hrun, hwf₁, hlen₁, hcount₁, hshards₁⟩ := ih
    have hidx : ∀ k, sc₁.shardIndexFor stdHash k = sc.shardIndexFor stdHash k :=
      shardIndexFor_congr hlen₁
    rw [List.reverse_cons, List.foldlM_append, hrun]
    rcases replayRecord_spec hwf₁ res₁ elapsed (clock p.2) p.1 with
      ⟨e, sc', hres, hone, hst⟩ | ⟨hres, hone⟩
    · refine ⟨sc', { res₁ with loaded := res₁.loaded + 1 }, ?_, hst.1, ?_, ?_, ?_⟩
      · simp [hone]
      · rw [hst.2, List.length_set, hlen₁]
      · rw [List.length_cons]
        show res₁.loaded + 1 + res₁.expired = _
        omega
      · intro j s hj
        obtain ⟨s₁, hj₁, hcap₁, hitems₁⟩ := hshards₁ j s hj
        refine ⟨_, hst.abs_getElem hj₁, ?_, ?_⟩
        · rw [← hcap₁]
          split <;> rfl
        · rw [restoredAll_cons_some hres, ofShard, List.filter_cons, hidx]
          split
          · next hi =>
            rw [decide_eq_true hi, if_pos rfl, List.foldr_cons]
            show Keyed.put Entry.key s₁.capacity e s₁.items = _
            rw [hcap₁, hitems₁]
            rfl
          · next hi =>
            rw [decide_eq_false hi]
            exact hitems₁
    · refine ⟨sc₁, { res₁ with expired := res₁.expired + 1 }, ?_, hwf₁, hlen₁, ?_, ?_⟩
      · simp [hone]
      · rw [List.length_cons]
        show res₁.loaded + (res₁.expired + 1) = _
        omega
      · rw [restoredAll_cons_none hres]
        exact hshards₁

/-! ## What `load` restores -/

/-- The first record of each key among those that have not run out, as entries in file order. -/
def survivors (elapsed : Millis) (clock : Nat → Time) (records : List Record) : List Entry :=
  Keyed.firsts Entry.key (restoredAll elapsed clock records.zipIdx)

/-- Every shard holds the surviving entries that it owns, then its old entries with another key, as
far as they fit. -/
def Restores (stdHash : Bytes → UInt64) (sc sc' : ShardedCache) (survivors : List Entry) : Prop :=
  sc'.shards.length = sc.shards.length ∧
  ∀ j c, sc.shards[j]? = some c → ∃ c', sc'.shards[j]? = some c' ∧ c'.capacity = c.capacity ∧
    c'.entries.toList = Keyed.atMost c.capacity (ofShard stdHash sc j survivors ++
      c.entries.toList.filter fun e => decide (e.key ∉ survivors.map Entry.key))

theorem replay_restores {sc : ShardedCache} (h : sc.WF stdHash) (elapsed : Millis)
    (clock : Nat → Time) (records : List Record) :
    ∃ sc' res, replay stdHash elapsed clock records (sc, {}) = some (sc', res) ∧
      sc'.WF stdHash ∧ res.loaded + res.expired = records.length ∧
      Restores stdHash sc sc' (survivors elapsed clock records) := by
  obtain ⟨sc', res, hrun, hwf, hlen, hcount, hshards⟩ :=
    replay_spec h {} elapsed clock records.zipIdx
  refine ⟨sc', res, hrun, hwf, by simpa using hcount, ?_, fun j c hj => ?_⟩
  · rw [← length_abs, ← length_abs, hlen]
  · obtain ⟨s', hs', hcap, hitems⟩ := hshards j c.abs (abs_shard hj)
    rw [ShardedCache.abs, List.getElem?_map] at hs'
    obtain ⟨c', hj', rfl⟩ := Option.map_eq_some_iff.mp hs'
    refine ⟨c', hj', hcap, hitems.trans ?_⟩
    have hcwf := abs_wf (h.shard c (List.mem_of_getElem? hj))
    rw [Keyed.foldr_put_eq hcwf.nodup hcwf.bounded, firsts_ofShard]
    show Keyed.atMost c.capacity (ofShard stdHash sc j (survivors elapsed clock records) ++
      c.entries.toList.filter _) = _
    congr 2
    refine List.filter_congr fun e he => ?_
    -- a resident key is owned by its shard, so only the shard's survivors can have it
    exact decide_eq_decide.mpr (not_congr (key_mem_ofShard (h.owner hj he)))

/-- The two outcomes of `load` on a file. -/
theorem load_cases {sc : ShardedCache} (h : sc.WF stdHash) (file : Bytes) (wall : Millis)
    (clock : Nat → Time) :
    (∃ e, parseSnapshot file = .error e ∧
      load stdHash sc (some file) wall clock = some (sc, { error := e.text })) ∨
    ∃ p sc' res, parseSnapshot file = .ok p ∧
      load stdHash sc (some file) wall clock = some (sc', res) ∧ res.ok = true ∧ sc'.WF stdHash ∧
      res.loaded + res.expired = p.records.length ∧
      Restores stdHash sc sc' (survivors (elapsedMs wall p.savedAt) clock p.records) := by
  show (∃ e, _ ∧ applyParsed stdHash sc wall clock (parseSnapshot file) = _) ∨
    ∃ p sc' res, _ ∧ applyParsed stdHash sc wall clock (parseSnapshot file) = _ ∧ _
  cases parseSnapshot file with
  | error e => exact Or.inl ⟨e, rfl, rfl⟩
  | ok p =>
    obtain ⟨sc', res, hrun, hwf, hcount, hrest⟩ :=
      replay_restores h (elapsedMs wall p.savedAt) clock p.records
    refine Or.inr ⟨p, sc', { res with ok := true }, rfl, ?_, rfl, hwf, hcount, hrest⟩
    rw [applyParsed, hrun]
    rfl

/-- Every load is defined and keeps the cache well formed. -/
theorem load_wf {sc : ShardedCache} (h : sc.WF stdHash) (file : Option Bytes) (wall : Millis)
    (clock : Nat → Time) :
    ∃ sc' res, load stdHash sc file wall clock = some (sc', res) ∧ sc'.WF stdHash := by
  cases file with
  | none => exact ⟨sc, _, rfl, h⟩
  | some bytes =>
    rcases load_cases h bytes wall clock with ⟨e, -, hl⟩ | ⟨p, sc', res, -, hl, -, hwf, -⟩
    · exact ⟨sc, _, hl, h⟩
    · exact ⟨sc', res, hl, hwf⟩

theorem Restores.ofShard_eq {sc sc' : ShardedCache} {R : List Entry}
    (h : Restores stdHash sc sc' R) (j : Nat) (entries : List Entry) :
    ofShard stdHash sc' j entries = ofShard stdHash sc j entries := by
  have hlen : sc'.abs.length = sc.abs.length := by rw [length_abs, length_abs, h.1]
  unfold ofShard
  simp only [shardIndexFor_congr hlen]

/-- Where an entry comes from that a load leaves. -/
theorem Restores.mem {sc sc' : ShardedCache} {R : List Entry} (h : Restores stdHash sc sc' R)
    {c' : Cache} (hc' : c' ∈ sc'.shards) {e : Entry} (he : e ∈ c'.entries.toList) :
    e ∈ R ∨ (e.key ∉ R.map Entry.key ∧ ∃ c ∈ sc.shards, e ∈ c.entries.toList) := by
  obtain ⟨j, hj⟩ := List.mem_iff_getElem?.mp hc'
  have hlt : j < sc.shards.length := h.1 ▸ (List.getElem?_eq_some_iff.mp hj).1
  obtain ⟨c₁, hj₁, -, hitems⟩ := h.2 j _ (List.getElem?_eq_getElem hlt)
  rw [hj] at hj₁
  cases hj₁
  rw [hitems] at he
  rcases List.mem_append.mp ((Keyed.atMost_sublist _ _).subset he) with hnew | hold
  · exact Or.inl (List.mem_filter.mp hnew).1
  · obtain ⟨hmem, hnot⟩ := List.mem_filter.mp hold
    exact Or.inr ⟨of_decide_eq_true hnot, _, List.getElem_mem hlt, hmem⟩

/-- Restoring the same entries again changes no recency list. -/
theorem Restores.again {sc sc' sc'' : ShardedCache} {R : List Entry}
    (h : Restores stdHash sc sc' R) (h' : Restores stdHash sc' sc'' R) :
    sc''.shards.map (fun c => c.entries.toList) = sc'.shards.map fun c => c.entries.toList := by
  refine List.ext_getElem? fun j => ?_
  rw [List.getElem?_map, List.getElem?_map]
  cases hj : sc.shards[j]? with
  | none =>
    have hle := List.getElem?_eq_none_iff.mp hj
    have hle' : sc'.shards.length ≤ j := Nat.le_trans (Nat.le_of_eq h.1) hle
    rw [List.getElem?_eq_none hle', List.getElem?_eq_none (Nat.le_trans (Nat.le_of_eq h'.1) hle')]
  | some c =>
    obtain ⟨c', hj', hcap', hc'⟩ := h.2 j c hj
    obtain ⟨c'', hj'', -, hc''⟩ := h'.2 j c' hj'
    rw [hj', hj'', Option.map_some, Option.map_some, hc'', hcap', h.ofShard_eq, hc',
      Keyed.atMost_refill]
    · intro e he
      exact decide_eq_false fun hnot => hnot (List.mem_map_of_mem (List.mem_filter.mp he).1)
    · intro e he
      exact (List.mem_filter.mp he).2

end CacheX
