import CacheX.Truncation

/-!
# The time arithmetic of a load

`load` computes with the times of a file in `int64`, where an overflow is undefined behaviour:
`wall_clock_ms() - saved_at_ms`, then `ttl_ms - elapsed_ms` for every record, and for a record with
time left the milliseconds as nanoseconds and the deadline. The wire bounds a time-to-live by
`kMaxTtlSeconds`. A file has no such bound.

* `loadInt64_eq`: where no operation overflows, the result is that of `load`.
* `storedInt64_isSome`: which times-to-live a record can have.
* `replayDownToInt64_stores`: what the iteration for a record does to the cache.
* `loadInt64_iff`: exactly the files for which nothing overflows.
-/

namespace CacheX

open SnapshotLemmas TruncationLemmas

/-- The result of an `int64` operation with the mathematical result `z`. -/
def int64 (z : Int) : Option Int := if int64Min ≤ z ∧ z ≤ int64Max then some z else none

/-- The time arithmetic for one record, with the entry it leads to (`restored`). -/
def storedInt64 (elapsed : Millis) (now : Time) (record : Record) : Option (Option Entry) :=
  if record.ttlMs = kNoExpiry then some (some ⟨record.key, record.value, none⟩)
  else
    (int64 (record.ttlMs - elapsed)).bind fun remaining =>
      if 0 < remaining then
        (int64 (remaining * nanosPerMilli)).bind fun nanos =>
          (int64 (now + nanos)).map fun deadline =>
            some ⟨record.key, record.value, some deadline⟩
      else some none

/-- `set` from the point where the deadline is known: `store` on the shard that owns the key. -/
def ShardedCache.storeEntry (stdHash : Bytes → UInt64) (sc : ShardedCache) (e : Entry) :
    Option ShardedCache :=
  (sc.onShard stdHash e.key fun c =>
    (c.store e.key e.value e.expiresAt).map fun c => (c, ())).map Prod.fst

section Load

variable (stdHash : Bytes → UInt64)

/-- One iteration of the replay loop with its arithmetic: the entry is stored, or the record is
counted as expired. -/
def replayRecordInt64 (elapsed : Millis) (now : Time) (record : Record)
    (st : ShardedCache × LoadResult) : Option (ShardedCache × LoadResult) :=
  (storedInt64 elapsed now record).bind fun
    | some e => (st.1.storeEntry stdHash e).map fun sc =>
        (sc, { st.2 with loaded := st.2.loaded + 1 })
    | none => some (st.1, { st.2 with expired := st.2.expired + 1 })

/-- The replay loop with its arithmetic, from the last record down to record `i`. -/
def replayDownToInt64 (elapsed : Millis) (clock : Nat → Time) (records : List Record) (i : Nat)
    (st : ShardedCache × LoadResult) : Option (ShardedCache × LoadResult) :=
  (records.zipIdx.drop i).reverse.foldlM
    (fun st p => replayRecordInt64 stdHash elapsed (clock p.2) p.1 st) st

/-- The replay loop of `load` with its arithmetic. -/
def replayInt64 (elapsed : Millis) (clock : Nat → Time) (records : List Record)
    (st : ShardedCache × LoadResult) : Option (ShardedCache × LoadResult) :=
  replayDownToInt64 stdHash elapsed clock records 0 st

/-- `load` from the header on. The elapsed time is computed before the rest of the file is read. -/
def loadFrom (sc : ShardedCache) (wall : Millis) (clock : Nat → Time)
    (header : Except LoadError (IStream × Int)) (parsed : Except LoadError Parsed) :
    Option (ShardedCache × LoadResult) :=
  match header with
  | .error e => some (sc, { error := e.text })
  | .ok (_, savedAt) =>
    (int64 (wall - savedAt)).bind fun gap =>
      match parsed with
      | .error e => some (sc, { error := e.text })
      | .ok p =>
        (replayInt64 stdHash (max 0 gap) clock p.records (sc, {})).map fun st =>
          (st.1, { st.2 with ok := true })

/-- `load` of a file with `int64` times; `none` if an operation overflows. -/
def loadInt64 (sc : ShardedCache) (file : Bytes) (wall : Millis) (clock : Nat → Time) :
    Option (ShardedCache × LoadResult) :=
  loadFrom stdHash sc wall clock (parseHeader (.ofBytes file)) (parseSnapshot file)

end Load

/-- The times of a file are within what the clocks leave room for: `saved_at` is not too far in the
past, and no time-to-live is too far below or above the elapsed time. -/
def TimesInRange (file : Bytes) (wall : Int) (clock : Nat → Int) : Prop :=
  (∀ s savedAt, parseHeader (.ofBytes file) = .ok (s, savedAt) → wall - int64Max ≤ savedAt) ∧
  ∀ p, parseSnapshot file = .ok p → ∀ i r, p.records[i]? = some r → r.ttlMs ≠ kNoExpiry →
    max 0 (wall - p.savedAt) - 2 ^ 63 ≤ r.ttlMs ∧
      r.ttlMs ≤ max 0 (wall - p.savedAt) + (int64Max - clock i) / nanosPerMilli

/-- A record is stored by its iteration with a deadline after the clock reading `now`, and is
resident afterwards unless its shard holds nothing. -/
def StoredAfter (stdHash : Bytes → UInt64) (now : Time) (r : Record)
    (st st' : ShardedCache × LoadResult) : Prop :=
  ∃ d, now < d ∧ st.1.storeEntry stdHash ⟨r.key, r.value, some d⟩ = some st'.1 ∧
    st'.2 = { st.2 with loaded := st.2.loaded + 1 } ∧
    ((st'.1.shardFor stdHash r.key).capacity ≠ some 0 →
      ⟨r.key, r.value, some d⟩ ∈ (st'.1.shardFor stdHash r.key).entries.toList)

namespace OverflowLemmas

theorem int64_eq_some {z w : Int} : int64 z = some w ↔ Fits z ∧ w = z := by
  unfold int64
  split
  · next h =>
    constructor
    · intro hw
      cases hw
      exact ⟨h, rfl⟩
    · rintro ⟨-, rfl⟩
      rfl
  · next h =>
    constructor
    · intro hw
      cases hw
    · rintro ⟨hf, -⟩
      exact absurd hf h

theorem int64_of_fits {z : Int} (h : Fits z) : int64 z = some z := if_pos h

/-! ### What the parser hands on -/

theorem fits_readLongLong {s s' : IStream} {z : Int} (h : readLongLong s 0 = (s', z)) : Fits z := by
  have hrange := @IStream.readInt_range int64Min int64Max 0 ⟨by decide, by decide⟩
    ⟨by decide, by decide⟩ s
  rw [readLongLong] at h
  rw [h] at hrange
  exact hrange

theorem fits_savedAt {s s' : IStream} {savedAt : Int} (h : parseHeader s = .ok (s', savedAt)) :
    Fits savedAt := by
  obtain ⟨_, _, -, -, hread, -⟩ := parseHeader_ok.mp h
  exact fits_readLongLong hread

theorem fits_ttlMs {file : Bytes} {p : Parsed} (h : parseSnapshot file = .ok p) :
    ∀ r ∈ p.records, Fits r.ttlMs := by
  obtain ⟨s₀, s₁, s₂, -, -, hrecords⟩ := parseSnapshot_ok.mp h
  refine IStream.times_forall (fun i s s' r hr => ?_) hrecords
  obtain ⟨_, _, _, _, _, _, _, _, -, -, hread, -⟩ := parseRecord_ok.mp hr
  exact fits_readLongLong hread

/-! ### Folds that agree on a list -/

section Fold

variable {σ β : Type} {f g : σ → β → Option σ} {P : β → Prop} {l : List β}

theorem foldlM_congr (h : ∀ b ∈ l, ∀ st, f st b = g st b) (st : σ) :
    l.foldlM f st = l.foldlM g st := by
  induction l generalizing st with
  | nil => rfl
  | cons b l ih =>
    have htail := ih fun b' hb' => h b' (List.mem_cons_of_mem _ hb')
    simp only [List.foldlM_cons, h b List.mem_cons_self, htail]

theorem forall_of_foldlM (h : ∀ st b st', f st b = some st' → P b) {st st' : σ}
    (hl : l.foldlM f st = some st') : ∀ b ∈ l, P b := by
  induction l generalizing st with
  | nil => exact fun b hb => absurd hb List.not_mem_nil
  | cons b l ih =>
    rw [List.foldlM_cons] at hl
    obtain ⟨st₁, hb, htail⟩ := Option.bind_eq_some_iff.mp hl
    intro b' hb'
    rcases List.mem_cons.mp hb' with rfl | hb'
    · exact h st b' st₁ hb
    · exact ih htail b' hb'

end Fold

end OverflowLemmas

open OverflowLemmas

/-! ## One record -/

/-- Without overflow, a record leads to the entry it stands for. -/
theorem storedInt64_eq {elapsed : Millis} {now : Time} {r : Record} {e : Option Entry}
    (h : storedInt64 elapsed now r = some e) : e = restored elapsed now r := by
  unfold storedInt64 at h
  unfold restored
  split at h
  · next hno =>
    cases h
    exact (if_pos hno).symm
  · next hno =>
    rw [if_neg hno]
    obtain ⟨remaining, hrem, h⟩ := Option.bind_eq_some_iff.mp h
    obtain ⟨-, rfl⟩ := int64_eq_some.mp hrem
    split at h
    · next hpos =>
      obtain ⟨nanos, hnanos, h⟩ := Option.bind_eq_some_iff.mp h
      obtain ⟨-, rfl⟩ := int64_eq_some.mp hnanos
      obtain ⟨deadline, hdeadline, rfl⟩ := Option.map_eq_some_iff.mp h
      obtain ⟨-, rfl⟩ := int64_eq_some.mp hdeadline
      exact (if_pos hpos).symm
    · next hneg =>
      cases h
      exact (if_neg hneg).symm

/-- The times-to-live for which nothing overflows: at most `2 ^ 63` below the elapsed time, and
above it by no more milliseconds than the steady clock has left. -/
theorem storedInt64_isSome {elapsed now : Int} {r : Record} (he : 0 ≤ elapsed) (hnow : 0 ≤ now)
    (hnow' : now < 2 ^ 62) (httl : Fits r.ttlMs) :
    (storedInt64 elapsed now r).isSome = true ↔
      (r.ttlMs ≠ kNoExpiry → elapsed - 2 ^ 63 ≤ r.ttlMs ∧
        r.ttlMs ≤ elapsed + (int64Max - now) / nanosPerMilli) := by
  have hroom : 0 ≤ (int64Max - now) / nanosPerMilli :=
    Int.ediv_nonneg (by unfold int64Max; omega) (by decide)
  have htop := httl.2
  by_cases hno : r.ttlMs = kNoExpiry
  · rw [storedInt64, if_pos hno]
    exact ⟨fun _ h => absurd hno h, fun _ => rfl⟩
  rw [storedInt64, if_neg hno]
  by_cases hlow : elapsed - 2 ^ 63 ≤ r.ttlMs
  · have hrem : Fits (r.ttlMs - elapsed) := ⟨by unfold int64Min; omega, by omega⟩
    rw [int64_of_fits hrem, Option.bind_some]
    by_cases hpos : 0 < r.ttlMs - elapsed
    · rw [if_pos hpos]
      have hnonneg : 0 ≤ (r.ttlMs - elapsed) * nanosPerMilli :=
        Int.mul_nonneg hpos.le (by decide)
      have hmul : r.ttlMs - elapsed ≤ (int64Max - now) / nanosPerMilli ↔
          (r.ttlMs - elapsed) * nanosPerMilli ≤ int64Max - now :=
        Int.le_ediv_iff_mul_le (by decide)
      -- the deadline fits if and only if the sum does, and then so does the product
      by_cases hhigh : (r.ttlMs - elapsed) * nanosPerMilli ≤ int64Max - now
      · have hnanos : Fits ((r.ttlMs - elapsed) * nanosPerMilli) :=
          ⟨by unfold int64Min; omega, by omega⟩
        have hdeadline : Fits (now + (r.ttlMs - elapsed) * nanosPerMilli) :=
          ⟨by unfold int64Min; omega, by omega⟩
        rw [int64_of_fits hnanos, Option.bind_some, int64_of_fits hdeadline]
        have := hmul.mpr hhigh
        exact ⟨fun _ _ => ⟨hlow, by omega⟩, fun _ => rfl⟩
      · refine ⟨fun h => ?_, fun h => absurd (hmul.mp (by have := (h hno).2; omega)) hhigh⟩
        obtain ⟨e, he⟩ := Option.isSome_iff_exists.mp h
        obtain ⟨nanos, hnanos, he⟩ := Option.bind_eq_some_iff.mp he
        obtain ⟨-, rfl⟩ := int64_eq_some.mp hnanos
        obtain ⟨deadline, hdeadline, -⟩ := Option.map_eq_some_iff.mp he
        have hfits := (int64_eq_some.mp hdeadline).1.2
        exact absurd (by omega) hhigh
    · rw [if_neg hpos]
      exact ⟨fun _ _ => ⟨hlow, by omega⟩, fun _ => rfl⟩
  · refine ⟨fun h => ?_, fun h => absurd (h hno).1 hlow⟩
    obtain ⟨e, he⟩ := Option.isSome_iff_exists.mp h
    obtain ⟨remaining, hrem, -⟩ := Option.bind_eq_some_iff.mp he
    have hfits := (int64_eq_some.mp hrem).1.1
    unfold int64Min at hfits
    exact absurd (by omega) hlow

/-- A record with a time-to-live has a deadline in the future, or its time has run out. -/
theorem storedInt64_cases {elapsed now : Int} {r : Record} (hno : r.ttlMs ≠ kNoExpiry)
    (h : (storedInt64 elapsed now r).isSome = true) :
    (elapsed < r.ttlMs ∧ ∃ d, now < d ∧
      storedInt64 elapsed now r = some (some ⟨r.key, r.value, some d⟩)) ∨
    (¬ elapsed < r.ttlMs ∧ storedInt64 elapsed now r = some none) := by
  obtain ⟨stored, hst⟩ := Option.isSome_iff_exists.mp h
  have heq := storedInt64_eq hst
  rw [restored, if_neg hno] at heq
  rw [hst, heq]
  by_cases hlt : elapsed < r.ttlMs
  · have hpos : 0 < (r.ttlMs - elapsed) * nanosPerMilli :=
      Int.mul_pos (Int.sub_pos.mpr hlt) (by decide)
    rw [if_pos (Int.sub_pos.mpr hlt)]
    exact .inl ⟨hlt, _, Int.lt_add_of_pos_right now hpos, rfl⟩
  · rw [if_neg fun h => hlt (Int.sub_pos.mp h)]
    exact .inr ⟨hlt, rfl⟩

/-! ## The whole load -/

section Load

variable {stdHash : Bytes → UInt64}

/-- An entry that is stored is resident afterwards, unless its shard holds nothing. -/
theorem mem_of_stores {sc sc' : ShardedCache} {e : Entry}
    (h : ShardedCache.Stores stdHash sc sc' e)
    (hcap : (sc'.shardFor stdHash e.key).capacity ≠ some 0) :
    e ∈ (sc'.shardFor stdHash e.key).entries.toList := by
  have hlru : sc'.lru stdHash e.key = (sc.lru stdHash e.key).store e :=
    (ShardedCache.lru_set h.2 e.key).trans (if_pos rfl)
  have hroom : (sc.lru stdHash e.key).capacity ≠ some 0 := by
    rw [show (sc.lru stdHash e.key).capacity = ((sc.lru stdHash e.key).store e).capacity from rfl,
      ← hlru]
    exact hcap
  have hfind := Lru.find_store_self hroom e
  rw [← hlru] at hfind
  exact (Keyed.find_some hfind).1

/-- An iteration that overflows nothing is one of `load`. -/
theorem replayRecordInt64_eq {elapsed : Millis} {now : Time} {r : Record}
    (h : (storedInt64 elapsed now r).isSome = true) (st : ShardedCache × LoadResult) :
    replayRecordInt64 stdHash elapsed now r st = replayRecord stdHash elapsed now r st := by
  obtain ⟨stored, hst⟩ := Option.isSome_iff_exists.mp h
  rw [replayRecordInt64, hst, Option.bind_some, storedInt64_eq hst]
  unfold restored replayRecord
  by_cases hno : r.ttlMs = kNoExpiry
  · rw [if_pos hno, if_pos hno]
    rfl
  rw [if_neg hno, if_neg hno]
  dsimp only
  by_cases hpos : 0 < r.ttlMs - elapsed
  · have hset : ∀ c : Cache, c.setTtl now r.key r.value (r.ttlMs - elapsed)
        = c.store r.key r.value (some (now + (r.ttlMs - elapsed) * nanosPerMilli)) :=
      fun c => if_neg (Int.not_le.mpr hpos)
    rw [if_pos hpos, if_pos hpos]
    simp only [ShardedCache.storeEntry, ShardedCache.setTtl, hset]
  · rw [if_neg hpos, if_neg hpos]

theorem isSome_of_replayRecordInt64 {elapsed : Millis} {now : Time} {r : Record}
    {st st' : ShardedCache × LoadResult}
    (h : replayRecordInt64 stdHash elapsed now r st = some st') :
    (storedInt64 elapsed now r).isSome = true := by
  obtain ⟨stored, hst, -⟩ := Option.bind_eq_some_iff.mp h
  rw [hst]
  rfl

theorem replayDownToInt64_eq {elapsed : Millis} {clock : Nat → Time} {records : List Record}
    (h : ∀ i r, records[i]? = some r → (storedInt64 elapsed (clock i) r).isSome = true) (i : Nat)
    (st : ShardedCache × LoadResult) :
    replayDownToInt64 stdHash elapsed clock records i st
      = (records.zipIdx.drop i).reverse.foldlM
          (fun st p => replayRecord stdHash elapsed (clock p.2) p.1 st) st := by
  refine foldlM_congr (fun p hp st => replayRecordInt64_eq (h p.2 p.1 ?_) st) st
  exact List.mem_zipIdx_iff_getElem?.mp (List.mem_of_mem_drop (List.mem_reverse.mp hp))

theorem replayInt64_eq {elapsed : Millis} {clock : Nat → Time} {records : List Record}
    (h : ∀ i r, records[i]? = some r → (storedInt64 elapsed (clock i) r).isSome = true)
    (st : ShardedCache × LoadResult) :
    replayInt64 stdHash elapsed clock records st = replay stdHash elapsed clock records st :=
  replayDownToInt64_eq h 0 st

theorem isSome_of_replayInt64 {elapsed : Millis} {clock : Nat → Time} {records : List Record}
    {st st' : ShardedCache × LoadResult}
    (h : replayInt64 stdHash elapsed clock records st = some st') {i : Nat} {r : Record}
    (hr : records[i]? = some r) : (storedInt64 elapsed (clock i) r).isSome = true := by
  have hall : ∀ p ∈ records.zipIdx.reverse, (storedInt64 elapsed (clock p.2) p.1).isSome = true :=
    forall_of_foldlM (fun _ _ _ => isSome_of_replayRecordInt64) h
  exact hall (r, i) (List.mem_reverse.mpr (List.mem_zipIdx_iff_getElem?.mpr hr))

/-- The loop down to record `i` does record `i` last. -/
theorem replayDownToInt64_succ {elapsed : Millis} {clock : Nat → Time} {records : List Record}
    {i : Nat} {r : Record} (hr : records[i]? = some r) (st : ShardedCache × LoadResult) :
    replayDownToInt64 stdHash elapsed clock records i st
      = (replayDownToInt64 stdHash elapsed clock records (i + 1) st).bind
          (replayRecordInt64 stdHash elapsed (clock i) r) := by
  obtain ⟨hlt, rfl⟩ := List.getElem?_eq_some_iff.mp hr
  have hdrop : records.zipIdx.drop i = (records[i], i) :: records.zipIdx.drop (i + 1) := by
    rw [List.drop_eq_getElem_cons (by rwa [List.length_zipIdx]), List.getElem_zipIdx,
      Nat.zero_add]
  simp only [replayDownToInt64, hdrop, List.reverse_cons, List.foldlM_append, List.foldlM_cons,
    List.foldlM_nil, bind_pure]
  rfl

/-- What record `i`, which has a time-to-live, does to the cache: it is stored with a deadline after
the current clock, or skipped. -/
theorem replayDownToInt64_stores {sc : ShardedCache} (hwf : sc.WF stdHash) {elapsed : Millis}
    {clock : Nat → Time} {records : List Record}
    (h : ∀ i r, records[i]? = some r → (storedInt64 elapsed (clock i) r).isSome = true)
    {i : Nat} {r : Record} (hr : records[i]? = some r) (hno : r.ttlMs ≠ kNoExpiry) :
    ∃ st st', replayDownToInt64 stdHash elapsed clock records (i + 1) (sc, {}) = some st ∧
      replayDownToInt64 stdHash elapsed clock records i (sc, {}) = some st' ∧
      (StoredAfter stdHash (clock i) r st st' ↔ elapsed < r.ttlMs) ∧
      (¬ elapsed < r.ttlMs → st' = (st.1, { st.2 with expired := st.2.expired + 1 })) := by
  obtain ⟨sc₁, res₁, hrun, hwf₁, -⟩ :=
    replay_spec hwf {} elapsed clock (records.zipIdx.drop (i + 1))
  have hbefore : replayDownToInt64 stdHash elapsed clock records (i + 1) (sc, {})
      = some (sc₁, res₁) := (replayDownToInt64_eq h (i + 1) _).trans hrun
  have hafter : replayDownToInt64 stdHash elapsed clock records i (sc, {})
      = replayRecordInt64 stdHash elapsed (clock i) r (sc₁, res₁) := by
    rw [replayDownToInt64_succ hr, hbefore, Option.bind_some]
  have hisSome := h i r hr
  refine ⟨(sc₁, res₁), ?_⟩
  rcases storedInt64_cases hno hisSome with ⟨hlt, d, hd, hst⟩ | ⟨hge, hst⟩
  · rcases replayRecord_spec hwf₁ res₁ elapsed (clock i) r with
      ⟨e, sc', hres, hone, hstores⟩ | ⟨hres, -⟩
    · cases (storedInt64_eq hst).trans hres
      have hstep := (replayRecordInt64_eq hisSome (sc₁, res₁)).trans hone
      have hset := hstep
      rw [replayRecordInt64, hst, Option.bind_some] at hset
      obtain ⟨sc₂, hentry, heq⟩ := Option.map_eq_some_iff.mp hset
      cases heq
      refine ⟨(sc', { res₁ with loaded := res₁.loaded + 1 }), hbefore, hafter.trans hstep,
        ⟨fun _ => hlt, fun _ => ?_⟩, absurd hlt⟩
      have hmem := mem_of_stores hstores
      exact ⟨d, hd, hentry, rfl, hmem⟩
    · cases (storedInt64_eq hst).trans hres
  · refine ⟨_, hbefore, hafter.trans (by rw [replayRecordInt64, hst]; rfl), ⟨?_, ?_⟩, fun _ => rfl⟩
    · rintro ⟨d, -, -, hcount, -⟩
      have hloaded : res₁.loaded = res₁.loaded + 1 := congrArg LoadResult.loaded hcount
      omega
    · exact fun hlt => absurd hlt hge

theorem header_of_parse {file : Bytes} {p : Parsed} (h : parseSnapshot file = .ok p) :
    ∃ s, parseHeader (.ofBytes file) = .ok (s, p.savedAt) := by
  obtain ⟨s₀, _, _, hheader, -, -⟩ := parseSnapshot_ok.mp h
  exact ⟨s₀, hheader⟩

theorem parse_of_header_error {file : Bytes} {e : LoadError}
    (h : parseHeader (.ofBytes file) = .error e) : parseSnapshot file = .error e := by
  unfold parseSnapshot
  rw [h]

theorem loadInt64_of_header {sc : ShardedCache} {file : Bytes} {wall : Millis} {clock : Nat → Time}
    {s : IStream} {savedAt : Int} (h : parseHeader (.ofBytes file) = .ok (s, savedAt))
    {parsed : Except LoadError Parsed} (hp : parseSnapshot file = parsed) :
    loadInt64 stdHash sc file wall clock
      = (int64 (wall - savedAt)).bind fun gap =>
          match parsed with
          | .error e => some (sc, { error := e.text })
          | .ok p => (replayInt64 stdHash (max 0 gap) clock p.records (sc, {})).map fun st =>
              (st.1, { st.2 with ok := true }) := by
  rw [loadInt64, h, hp]
  rfl

theorem fits_of_loadInt64 {sc : ShardedCache} {file : Bytes} {wall : Millis} {clock : Nat → Time}
    {x : ShardedCache × LoadResult} (h : loadInt64 stdHash sc file wall clock = some x)
    {s : IStream} {savedAt : Int} (hheader : parseHeader (.ofBytes file) = .ok (s, savedAt)) :
    Fits (wall - savedAt) := by
  rw [loadInt64_of_header hheader rfl] at h
  obtain ⟨gap, hgap, -⟩ := Option.bind_eq_some_iff.mp h
  exact (int64_eq_some.mp hgap).1

theorem replayInt64_of_loadInt64 {sc : ShardedCache} {file : Bytes} {wall : Millis}
    {clock : Nat → Time} {x : ShardedCache × LoadResult}
    (h : loadInt64 stdHash sc file wall clock = some x) {p : Parsed}
    (hp : parseSnapshot file = .ok p) :
    ∃ st, replayInt64 stdHash (max 0 (wall - p.savedAt)) clock p.records (sc, {}) = some st ∧
      x = (st.1, { st.2 with ok := true }) := by
  obtain ⟨s, hheader⟩ := header_of_parse hp
  rw [loadInt64_of_header hheader hp] at h
  obtain ⟨gap, hgap, h⟩ := Option.bind_eq_some_iff.mp h
  obtain ⟨-, rfl⟩ := int64_eq_some.mp hgap
  obtain ⟨st, hst, rfl⟩ := Option.map_eq_some_iff.mp h
  exact ⟨st, hst, rfl⟩

/-- A load returns if the gap fits and no record overflows. -/
theorem exists_loadInt64 {sc : ShardedCache} (hwf : sc.WF stdHash) {file : Bytes} {wall : Millis}
    {clock : Nat → Time}
    (hgap : ∀ s savedAt, parseHeader (.ofBytes file) = .ok (s, savedAt) → Fits (wall - savedAt))
    (hsome : ∀ p, parseSnapshot file = .ok p → ∀ i r, p.records[i]? = some r →
      (storedInt64 (max 0 (wall - p.savedAt)) (clock i) r).isSome = true) :
    ∃ sc' res, loadInt64 stdHash sc file wall clock = some (sc', res) := by
  cases hp : parseSnapshot file with
  | error e =>
    refine ⟨sc, { error := e.text }, ?_⟩
    cases hheader : parseHeader (.ofBytes file) with
    | error e' =>
      cases hp.symm.trans (parse_of_header_error hheader)
      rw [loadInt64, hheader]
      rfl
    | ok header =>
      rw [loadInt64_of_header hheader hp, int64_of_fits (hgap _ _ hheader)]
      rfl
  | ok p =>
    obtain ⟨s, hheader⟩ := header_of_parse hp
    obtain ⟨sc', res, hrun, -⟩ := replay_restores hwf (max 0 (wall - p.savedAt)) clock p.records
    refine ⟨sc', { res with ok := true }, ?_⟩
    rw [loadInt64_of_header hheader hp, int64_of_fits (hgap _ _ hheader), Option.bind_some]
    dsimp only
    rw [replayInt64_eq (hsome p hp), hrun]
    rfl

/-- Where nothing overflows, `load` does what it does with mathematical integers. -/
theorem loadInt64_eq {sc : ShardedCache} {file : Bytes} {wall : Millis} {clock : Nat → Time}
    {x : ShardedCache × LoadResult} (h : loadInt64 stdHash sc file wall clock = some x) :
    load stdHash sc (some file) wall clock = some x := by
  show applyParsed stdHash sc wall clock (parseSnapshot file) = some x
  cases hparse : parseSnapshot file with
  | error e =>
    cases hheader : parseHeader (.ofBytes file) with
    | error e' =>
      cases hparse.symm.trans (parse_of_header_error hheader)
      rw [loadInt64, hheader] at h
      exact h
    | ok header =>
      rw [loadInt64_of_header hheader hparse] at h
      obtain ⟨gap, -, h⟩ := Option.bind_eq_some_iff.mp h
      exact h
  | ok p =>
    obtain ⟨st, hst, rfl⟩ := replayInt64_of_loadInt64 h hparse
    have hsome := fun i r hr => @isSome_of_replayInt64 stdHash _ _ _ _ _ hst i r hr
    rw [replayInt64_eq hsome] at hst
    rw [applyParsed, elapsedMs, hst]
    rfl

end Load

/-- **When the time arithmetic is safe.** For clocks that read from 0 to `2 ^ 62`, no operation of a
load overflows, and so the iteration for a record with a time-to-live stores it with a deadline
after the current clock exactly when its time has not run out, if and only if the times of the file
are in range. -/
theorem loadInt64_iff (stdHash : Bytes → UInt64) {sc : ShardedCache} (hreach : Reachable stdHash sc)
    (file : Bytes) {wall : Int} {clock : Nat → Int} (hwall : 0 ≤ wall ∧ wall < 2 ^ 62)
    (hclock : ∀ i, 0 ≤ clock i ∧ clock i < 2 ^ 62) :
    ((∃ sc' res, loadInt64 stdHash sc file wall clock = some (sc', res)) ∧
      ∀ p, parseSnapshot file = .ok p → ∀ i r, p.records[i]? = some r → r.ttlMs ≠ kNoExpiry →
        -- the loop from the last record down to the next one, and then with this one
        ∃ st st', replayDownToInt64 stdHash (elapsedMs wall p.savedAt) clock p.records (i + 1)
            (sc, {}) = some st ∧
          replayDownToInt64 stdHash (elapsedMs wall p.savedAt) clock p.records i (sc, {})
            = some st' ∧
          (StoredAfter stdHash (clock i) r st st' ↔ elapsedMs wall p.savedAt < r.ttlMs) ∧
          (¬ elapsedMs wall p.savedAt < r.ttlMs →
            st' = (st.1, { st.2 with expired := st.2.expired + 1 }))) ↔
    TimesInRange file wall clock := by
  have hrecord : ∀ {p : Parsed}, parseSnapshot file = .ok p → ∀ {i : Nat} {r : Record},
      p.records[i]? = some r → ((storedInt64 (max 0 (wall - p.savedAt)) (clock i) r).isSome = true ↔
        (r.ttlMs ≠ kNoExpiry → max 0 (wall - p.savedAt) - 2 ^ 63 ≤ r.ttlMs ∧
          r.ttlMs ≤ max 0 (wall - p.savedAt) + (int64Max - clock i) / nanosPerMilli)) :=
    fun hp _ _ hr => storedInt64_isSome (Int.le_max_left _ _) (hclock _).1 (hclock _).2
      (fits_ttlMs hp _ (List.mem_of_getElem? hr))
  constructor
  · rintro ⟨⟨sc', res, hload⟩, -⟩
    refine ⟨fun s savedAt hheader => ?_, fun p hp i r hr => (hrecord hp hr).mp ?_⟩
    · have hfits := (fits_of_loadInt64 hload hheader).2
      omega
    · obtain ⟨st, hst, -⟩ := replayInt64_of_loadInt64 hload hp
      exact isSome_of_replayInt64 hst hr
  · rintro ⟨hsavedAt, hrecords⟩
    have hsome : ∀ p, parseSnapshot file = .ok p → ∀ i r, p.records[i]? = some r →
        (storedInt64 (max 0 (wall - p.savedAt)) (clock i) r).isSome = true :=
      fun p hp i r hr => (hrecord hp hr).mpr (hrecords p hp i r hr)
    refine ⟨exists_loadInt64 hreach.wf (fun s savedAt hheader => ?_) hsome,
      fun p hp i r hr hno => replayDownToInt64_stores hreach.wf (hsome p hp) hr hno⟩
    have hle := hsavedAt s savedAt hheader
    have hfits := (fits_savedAt hheader).2
    unfold int64Max at hfits
    exact ⟨by unfold int64Min; omega, by omega⟩

/-- A time-to-live of `INT64_MAX` milliseconds, and a file saved at `INT64_MIN`. -/
theorem loadInt64_overflows :
    loadInt64 (fun _ => 0) (.unbounded 1)
        (Decimal.ascii "CACHEX-SNAPSHOT 1 1700000000000\n1\n1 1 9223372036854775807\nkv\n")
        1700000000000 (fun _ => 0) = none ∧
      loadInt64 (fun _ => 0) (.unbounded 1)
        (Decimal.ascii "CACHEX-SNAPSHOT 1 -9223372036854775808\n0\n")
        1700000000000 (fun _ => 0) = none :=
  ⟨Option.isNone_iff_eq_none.mp (by decide), Option.isNone_iff_eq_none.mp (by decide)⟩

/-- A minute to live, and a file saved an hour before the epoch: the load returns, and its record is
stored. -/
theorem loadInt64_iff_minute :
    (∃ sc' res, loadInt64 (fun _ => 0) (.unbounded 1)
        (Decimal.ascii "CACHEX-SNAPSHOT 1 -3600000\n1\n1 1 1700003660000\nkv\n")
        1700000000000 (fun _ => 0) = some (sc', res)) ∧
      ∃ st st', replayDownToInt64 (fun _ => 0) 1700003600000 (fun _ => 0)
          [⟨[107], [118], 1700003660000⟩] 1 (.unbounded 1, {}) = some st ∧
        replayDownToInt64 (fun _ => 0) 1700003600000 (fun _ => 0)
          [⟨[107], [118], 1700003660000⟩] 0 (.unbounded 1, {}) = some st' ∧
        StoredAfter (fun _ => 0) 0 ⟨[107], [118], 1700003660000⟩ st st' := by
  have hparsed : parseSnapshot
      (Decimal.ascii "CACHEX-SNAPSHOT 1 -3600000\n1\n1 1 1700003660000\nkv\n")
        = .ok ⟨-3600000, 1, [⟨[107], [118], 1700003660000⟩]⟩ := by decide
  have hrange : TimesInRange
      (Decimal.ascii "CACHEX-SNAPSHOT 1 -3600000\n1\n1 1 1700003660000\nkv\n")
      1700000000000 (fun _ => 0) := by
    refine ⟨fun s savedAt hheader => ?_, fun p hp i r hr _ => ?_⟩
    · have hsaved : some savedAt = some (-3600000) :=
        (congrArg (fun header => header.toOption.map Prod.snd) hheader).symm.trans (by decide)
      rw [Option.some.inj hsaved]
      decide
    · cases hp.symm.trans hparsed
      rw [List.mem_singleton.mp (List.mem_of_getElem? hr)]
      dsimp only
      decide
  have hall := (loadInt64_iff (fun _ => 0) (.unbounded 1) _ (by decide) (fun _ => by decide)).mpr
    hrange
  obtain ⟨st, st', hbefore, hafter, hiff, -⟩ := hall.2 _ hparsed 0 _ rfl (by decide)
  exact ⟨hall.1, st, st', hbefore, hafter, hiff.mpr (by decide)⟩

end CacheX
