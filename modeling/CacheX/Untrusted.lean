import CacheX.Trailing

/-!
# What a file can make `load` ask for

Counts and lengths come from the file. `load` compares the count with the bytes that are left and
the lengths with the size of the file before it reserves or resizes anything. A log next to the
parsing phase keeps what it reserves, what it resizes and what it subtracts in these checks.

* `loadLog_forget`: the log changes nothing in what `load` does.
* `recordLog_spec`, `recordsLog_spec`: what one round and what the loop asks for.
* `count_cases`: what `bytes_left` subtracts. If the count is the last thing in the file, `tellg`
  has failed and the subtraction is of `-1`.
* `loadLog_bounded_iff`: everything is bounded by the size of the file, and nothing overflows unless
  the file is the largest there can be and ends with its count.
-/

namespace CacheX

open Decimal (ascii)
open SnapshotLemmas TruncationLemmas TrailingLemmas
open IStream (IsField)

/-! ## The log -/

/-- What one round of the record loop subtracts in its length check, and the sizes in its calls of
`resize`. -/
structure RecordLog where
  subtractions : List (Int × Int) := []
  resizes : List Nat := []
deriving DecidableEq, Repr

/-- What the parsing phase subtracts in the count check, what it reserves, and what the rounds of
the record loop do. -/
structure LoadLog where
  subtractions : List (Int × Int) := []
  reserved : Option Nat := none
  rounds : List RecordLog := []
deriving DecidableEq, Repr

/-- `parseCount` with the subtraction of `bytes_left`. -/
def parseCountLog (fileBytes : Int) (s : IStream) :
    Except LoadError (IStream × Nat) × List (Int × Int) :=
  let count := readLongLong s 0
  if count.1.fail = true ∨ count.2 < 0 then (.error .invalidCount, [])
  else
    let here := count.1.get.1.tellg
    if (fileBytes - here.2).tdiv kMinRecordBytes < count.2 then
      (.error (.countExceeds count.2), [(fileBytes, here.2)])
    else (.ok (here.1, count.2.toNat), [(fileBytes, here.2)])

/-- `parseRecord` with its log. The subtraction is evaluated only if the key fits the file, and the
value is resized only if the key was read. -/
def parseRecordLog (fileBytes : Int) (i : Nat) (s : IStream) :
    Except LoadError (IStream × Record) × RecordLog :=
  let keyLen := readLongLong s 0
  let valueLen := readLongLong keyLen.1 0
  let ttl := readLongLong valueLen.1 0
  if ttl.1.fail = true then (.error (.truncatedHeader i), {})
  else if keyLen.2 < 0 ∨ valueLen.2 < 0 then (.error (.negativeLength i), {})
  else
    let lineEnd := ttl.1.get
    let checked := [(fileBytes, keyLen.2)]
    if lineEnd.2 ≠ some newline then (.error (.malformedHeader i), {})
    else if fileBytes < keyLen.2 then (.error (.lengthExceeds i), {})
    else if fileBytes - keyLen.2 < valueLen.2 then (.error (.lengthExceeds i), ⟨checked, []⟩)
    else
      let key := readExact lineEnd.1 keyLen.2.toNat
      if key.2.2 = false then (.error (.truncatedPayload i), ⟨checked, [keyLen.2.toNat]⟩)
      else
        let log := ⟨checked, [keyLen.2.toNat, valueLen.2.toNat]⟩
        let value := readExact key.1 valueLen.2.toNat
        if value.2.2 = false then (.error (.truncatedPayload i), log)
        else
          let recordEnd := value.1.get
          if recordEnd.2 ≠ some newline then (.error (.payloadMismatch i), log)
          else (.ok (recordEnd.1, ⟨key.2.1, value.2.1, ttl.2⟩), log)

/-- `parseRecords` with the log of each round. -/
def parseRecordsLog (fileBytes : Int) (count i : Nat) (s : IStream) :
    Except LoadError (IStream × List Record) × List RecordLog :=
  IStream.timesLog (parseRecordLog fileBytes) count i s

/-- `parseSnapshot` with the log. -/
def parseSnapshotLog (file : Bytes) : Except LoadError Parsed × LoadLog :=
  match parseHeader (.ofBytes file) with
  | .error e => (.error e, {})
  | .ok (s, savedAt) =>
    match parseCountLog file.length s with
    | (.error e, subtractions) => (.error e, { subtractions := subtractions })
    | (.ok (s, count), subtractions) =>
      let records := parseRecordsLog file.length count 0 s
      (records.1.map fun p => ⟨savedAt, count, p.2⟩, ⟨subtractions, some count, records.2⟩)

/-- `load` of a file with the log. -/
def loadLog (stdHash : Bytes → UInt64) (sc : ShardedCache) (file : Bytes) (wall : Millis)
    (clock : Nat → Time) : Option (ShardedCache × LoadResult) × LoadLog :=
  let parsed := parseSnapshotLog file
  (applyParsed stdHash sc wall clock parsed.1, parsed.2)

/-- The file ends with its entry count: there is not even the newline after it. -/
def EndsWithCount (file : Bytes) : Prop :=
  ∃ space version savedAt count saved n, (∀ x ∈ space, IStream.isSpace x = true) ∧
    IsField int32Min int32Max kVersion version ∧
    (∃ c u, version = c :: u ∧ IStream.isSpace c = true) ∧
    LongField saved savedAt ∧ Stops savedAt ∧ LongField n count ∧ Stops count ∧ 0 ≤ n ∧
    file = space ++ (kMagic ++ (version ++ (savedAt ++ count)))

/-- Nothing that a load of `size` bytes asked for is out of proportion, and no subtraction in its
checks overflows. -/
structure LoadLog.Bounded (size : Nat) (log : LoadLog) : Prop where
  reserved : ∀ n, log.reserved = some n → n ≤ (size + 1) / 7
  rounds : log.rounds.length ≤ (size + 1) / 7
  record : ∀ round ∈ log.rounds, round.resizes.sum ≤ size
  total : ∀ k, ((log.rounds.flatMap RecordLog.resizes).take k).sum ≤ 2 * size
  subtractions : ∀ p ∈ log.subtractions ++ log.rounds.flatMap RecordLog.subtractions,
    Fits (p.1 - p.2)

namespace UntrustedLemmas

theorem parseCountLog_forget (fileBytes : Int) (s : IStream) :
    (parseCountLog fileBytes s).1 = parseCount fileBytes s := by
  unfold parseCountLog parseCount
  dsimp only
  split
  · rfl
  · split
    · rfl
    · rfl

theorem parseRecordLog_forget (fileBytes : Int) (i : Nat) (s : IStream) :
    (parseRecordLog fileBytes i s).1 = parseRecord fileBytes i s := by
  unfold parseRecordLog parseRecord
  dsimp only
  split
  · rfl
  · split
    · rfl
    · split
      · rfl
      · by_cases hk : fileBytes < (readLongLong s 0).2
        · rw [if_pos hk, if_pos (Or.inl hk)]
        · by_cases hv : fileBytes - (readLongLong s 0).2
              < (readLongLong (readLongLong s 0).1 0).2
          · rw [if_neg hk, if_pos hv, if_pos (Or.inr hv)]
          · rw [if_neg hk, if_neg hv, if_neg (not_or.mpr ⟨hk, hv⟩)]
            generalize readExact _ _ = key
            by_cases hkey : key.2.2 = false
            · rw [if_pos hkey, if_pos (Or.inl hkey)]
            · rw [if_neg hkey]
              generalize readExact _ _ = value
              by_cases hvalue : value.2.2 = false
              · rw [if_pos hvalue, if_pos (Or.inr hvalue)]
              · rw [if_neg hvalue, if_neg (not_or.mpr ⟨hkey, hvalue⟩)]
                exact apply_ite Prod.fst _ _ _

theorem parseRecordsLog_forget (fileBytes : Int) (n i : Nat) (s : IStream) :
    (parseRecordsLog fileBytes n i s).1 = parseRecords fileBytes n i s :=
  IStream.timesLog_forget (parseRecordLog_forget fileBytes) n i s

theorem parseSnapshotLog_forget (file : Bytes) :
    (parseSnapshotLog file).1 = parseSnapshot file := by
  unfold parseSnapshotLog parseSnapshot
  rcases parseHeader (.ofBytes file) with _ | ⟨s, savedAt⟩
  · rfl
  · dsimp only
    rw [← parseCountLog_forget]
    generalize parseCountLog file.length s = out
    obtain ⟨_ | ⟨s₁, count⟩, subtractions⟩ := out
    · rfl
    · dsimp only
      rw [parseRecordsLog_forget]
      cases parseRecords file.length count 0 s₁ <;> rfl

theorem loadLog_forget (stdHash : Bytes → UInt64) (sc : ShardedCache) (file : Bytes) (wall : Millis)
    (clock : Nat → Time) :
    (loadLog stdHash sc file wall clock).1 = load stdHash sc (some file) wall clock := by
  rw [loadLog, parseSnapshotLog_forget]
  rfl

/-! ### One round -/

/-- What a round does to a file of `size` bytes. -/
structure RoundBounded (size : Nat) (out : Except LoadError (IStream × Record) × RecordLog) :
    Prop where
  subtractions : ∀ p ∈ out.2.subtractions, p.1 = size ∧ 0 ≤ p.2 ∧ p.2 ≤ size
  resizes : out.2.resizes.sum ≤ size
  read : ∀ s r, out.1 = .ok (s, r) → out.2.resizes = [r.key.length, r.value.length]

theorem length_readExact {s : IStream} {n : Nat} (h : (readExact s n).2.2 ≠ false) :
    (readExact s n).2.1.length = n := by
  unfold readExact at h ⊢
  split
  · next h0 =>
    rw [h0]
    rfl
  · next h0 =>
    rw [if_neg h0] at h
    have hlen : (s.read n).2.length = n := by simpa using h
    rw [List.length_append, List.length_replicate, hlen]
    omega

theorem recordLog_spec (size i : Nat) (s : IStream) :
    RoundBounded size (parseRecordLog size i s) := by
  have hempty : ∀ e, RoundBounded size (.error e, {}) := fun e =>
    ⟨fun p hp => absurd hp List.not_mem_nil, Nat.zero_le _, fun s r h => (by cases h)⟩
  unfold parseRecordLog
  dsimp only
  refine iteInduction (fun _ => hempty _) fun _ => ?_
  refine iteInduction (fun _ => hempty _) fun hneg => ?_
  refine iteInduction (fun _ => hempty _) fun _ => ?_
  refine iteInduction (fun _ => hempty _) fun hk => ?_
  have hkey : 0 ≤ (readLongLong s 0).2 := by omega
  have hchecked : ∀ p ∈ [((size : Int), (readLongLong s 0).2)],
      p.1 = size ∧ 0 ≤ p.2 ∧ p.2 ≤ size := by
    intro p hp
    rw [List.mem_singleton.mp hp]
    exact ⟨rfl, hkey, Int.not_lt.mp hk⟩
  refine iteInduction (fun _ => ⟨hchecked, Nat.zero_le _, fun s r h => (by cases h)⟩) fun hv => ?_
  refine iteInduction (fun _ => ⟨hchecked, ?_, fun s r h => (by cases h)⟩) fun hk' => ?_
  · simp only [List.sum_cons, List.sum_nil]
    omega
  have hsum : [(readLongLong s 0).2.toNat, (readLongLong (readLongLong s 0).1 0).2.toNat].sum
      ≤ size := by
    simp only [List.sum_cons, List.sum_nil]
    omega
  refine iteInduction (fun _ => ⟨hchecked, hsum, fun s r h => (by cases h)⟩) fun hv' => ?_
  refine iteInduction (fun _ => ⟨hchecked, hsum, fun s r h => (by cases h)⟩) fun _ => ?_
  refine ⟨hchecked, hsum, fun s' r h => ?_⟩
  cases h
  rw [length_readExact hk', length_readExact hv']

/-! ### The loop -/

/-- The loop asks for no more than it read and one round more. -/
theorem recordsLog_spec (size n i : Nat) (s : IStream) :
    (parseRecordsLog size n i s).2.length ≤ n ∧
    (∀ log ∈ (parseRecordsLog size n i s).2, log.resizes.sum ≤ size ∧
      ∀ p ∈ log.subtractions, p.1 = size ∧ 0 ≤ p.2 ∧ p.2 ≤ size) ∧
    ((parseRecordsLog size n i s).2.flatMap RecordLog.resizes).sum ≤ s.rest.length + size := by
  unfold parseRecordsLog
  induction n generalizing i s with
  | zero => exact ⟨Nat.le_refl _, fun log h => absurd h List.not_mem_nil, Nat.zero_le _⟩
  | succ n ih =>
    have hround := recordLog_spec size i s
    have hparse := parseRecordLog_forget size i s
    rw [IStream.timesLog]
    generalize parseRecordLog size i s = out at hround hparse
    obtain ⟨_ | ⟨s₁, record⟩, log⟩ := out
    · refine ⟨Nat.le_add_left _ _, fun log' h => ?_, ?_⟩
      · rw [List.mem_singleton.mp h]
        exact ⟨hround.resizes, hround.subtractions⟩
      · have hsum : log.resizes.sum ≤ size := hround.resizes
        simp only [List.flatMap_cons, List.flatMap_nil, List.append_nil]
        omega
    · obtain ⟨hlen, hall, hsum⟩ := ih (i + 1) s₁
      dsimp only
      refine ⟨Nat.succ_le_succ hlen, fun log' h => ?_, ?_⟩
      · rcases List.mem_cons.mp h with rfl | h
        · exact ⟨hround.resizes, hround.subtractions⟩
        · exact hall log' h
      · -- what a finished round asked for was in the file
        obtain ⟨-, t, ht, hc⟩ := recordText_of_parse hparse.symm
        have hrest : s.rest = t ++ s₁.rest := congrArg IStream.rest hc.1
        have htext := length_recordText ht
        have hread := hround.read s₁ record rfl
        dsimp only at hread
        rw [List.flatMap_cons, List.sum_append, hread, hrest, List.length_append]
        simp only [List.sum_cons, List.sum_nil]
        omega

/-! ### The count -/

theorem readLongLong_last {z : Int} {t : Bytes} (ht : LongField z t) (pos : Nat) :
    readLongLong (.ready pos t) 0 = ((IStream.ready (pos + t.length) []).noteEnd, z) := by
  have h := @IStream.readInt_stopped int64Min int64Max z 0 t [] ht IStream.stopped_nil pos
  rwa [List.append_nil] at h

/-- The header of a file that ends with its count, and the count. -/
theorem parse_endsWithCount {file : Bytes} (h : EndsWithCount file) :
    ∃ (s : IStream) (savedAt n : Int) (pos : Nat), parseHeader (.ofBytes file) = .ok (s, savedAt) ∧
      readLongLong s 0 = ((IStream.ready pos []).noteEnd, n) ∧ 0 ≤ n := by
  obtain ⟨space, version, savedAt, count, saved, n, hspace, hversion, ⟨c, u, rfl, hc⟩, hsaved,
    hsavedStops, hcount, hcountStops, hn, rfl⟩ := h
  refine ⟨.ready (0 + space.length + kMagic.length + (c :: u).length + savedAt.length) count, saved,
    n, _, ?_, readLongLong_last hcount _, hn⟩
  refine parseHeader_ok.mpr ⟨_, _, IStream.readWord_skip hspace (by decide) isSpace_kMagic hc,
    readInt_stops hversion hsavedStops _ _, ?_, IStream.fail_ready _ _⟩
  have hread := readLongLong_field hsaved hcountStops
    (0 + space.length + kMagic.length + (c :: u).length) []
  rwa [List.append_nil] at hread

/-- What `bytes_left` subtracts from the size of the file: -1 if the file ends with the count, and
the position after the count otherwise. -/
theorem count_cases {file : Bytes} {s : IStream} {savedAt : Int}
    (hheader : parseHeader (.ofBytes file) = .ok (s, savedAt)) {s₁ : IStream} {n : Int}
    (hcount : readLongLong s 0 = (s₁, n)) (hfail : s₁.fail = false) (hn : 0 ≤ n) :
    (EndsWithCount file ∧ s₁.get.1.tellg.2 = -1 ∧ s₁.get.1.tellg.1.rest = []) ∨
    (¬ EndsWithCount file ∧ ∃ pos : Nat, s₁.get.1.tellg.2 = pos ∧
      pos + s₁.get.1.tellg.1.rest.length = file.length) := by
  obtain ⟨t, rest, ht, hs, rfl, hstop⟩ := IStream.readInt_text hcount hfail
  have hgood : s.good = true := by
    rw [hs]
    rfl
  obtain ⟨hstops, space, version, saved, hspace, hversion, hblank, hsaved, hsavedStops, hc⟩ :=
    headerText_of_parse hheader hgood
  have hrest : s.rest = t ++ rest := congrArg IStream.rest hs
  have hfile : file = (space ++ kMagic ++ (version ++ saved)) ++ s.rest :=
    congrArg IStream.rest hc.1
  have hpos : s.pos = 0 + (space ++ kMagic ++ (version ++ saved)).length :=
    congrArg IStream.pos hc.2
  cases rest with
  | nil =>
    rw [List.append_nil] at hrest
    refine Or.inl ⟨⟨space, version, saved, t, savedAt, n, hspace, hversion, hblank, hsaved,
      hsavedStops, ht, hrest ▸ hstops, hn, ?_⟩, rfl, rfl⟩
    rw [hfile, hrest]
    simp only [List.append_assoc]
  | cons b rest =>
    rw [IStream.noteEnd_ready, IStream.get_ready]
    refine Or.inr ⟨fun hends => ?_, s.pos + t.length + 1, rfl, ?_⟩
    · obtain ⟨s', savedAt', n', pos, hheader', hcount', -⟩ := parse_endsWithCount hends
      cases hheader.symm.trans hheader'
      have heof := congrArg (fun p => p.1.eof) (hcount.symm.trans hcount')
      cases heof
    · have hlen := congrArg List.length hfile
      simp only [hrest, List.length_append, List.length_cons] at hlen hpos
      rw [IStream.tellg_ready, IStream.rest_ready]
      omega

/-- A count and the position after it that pass the check. -/
theorem count_le {size : Nat} {here n : Int} (hhere : -1 ≤ here)
    (h : ¬ ((size : Int) - here).tdiv kMinRecordBytes < n) : n.toNat ≤ (size + 1) / 7 := by
  have hle : ((size : Int) - here).tdiv kMinRecordBytes
      ≤ ((size : Int) + 1).tdiv kMinRecordBytes := Int.tdiv_le_tdiv (by decide) (by omega)
  have hdiv : ((size : Int) + 1).tdiv kMinRecordBytes = ((size : Int) + 1) / kMinRecordBytes :=
    Int.tdiv_eq_ediv_of_nonneg (by omega)
  unfold kMinRecordBytes at hle h hdiv
  omega

/-- The ways in which the parsing phase goes on after the header: it stops before the check of the
count, at the check, or it goes into the loop. -/
theorem countLog_cases {file : Bytes} {s : IStream} {savedAt : Int}
    (hheader : parseHeader (.ofBytes file) = .ok (s, savedAt)) :
    (¬ EndsWithCount file ∧ ∃ e, parseCountLog file.length s = (.error e, [])) ∨
    ∃ (here : Int), (EndsWithCount file ∧ here = -1 ∨
        ¬ EndsWithCount file ∧ 0 ≤ here ∧ here ≤ file.length) ∧
      ((∃ e, parseCountLog file.length s = (.error e, [((file.length : Int), here)])) ∨
        ∃ (n : Nat) (s₁ : IStream), n ≤ (file.length + 1) / 7 ∧ s₁.rest.length ≤ file.length ∧
          parseCountLog file.length s = (.ok (s₁, n), [((file.length : Int), here)])) := by
  unfold parseCountLog
  rcases hcount : readLongLong s 0 with ⟨s₁, n⟩
  dsimp only
  by_cases hinvalid : s₁.fail = true ∨ n < 0
  · refine Or.inl ⟨fun hends => ?_, _, if_pos hinvalid⟩
    obtain ⟨s', savedAt', n', pos, hok, hcount', hn'⟩ := parse_endsWithCount hends
    cases hheader.symm.trans hok
    cases hcount.symm.trans hcount'
    rcases hinvalid with hfail | hneg
    · cases hfail
    · omega
  · right
    rw [if_neg hinvalid]
    obtain ⟨hfail, hn⟩ : s₁.fail = false ∧ 0 ≤ n := by
      simpa only [not_or, Bool.not_eq_true, Int.not_lt] using hinvalid
    have hcases := count_cases hheader hcount hfail hn
    generalize s₁.get.1.tellg = here at hcases
    refine ⟨here.2, ?_, ?_⟩
    · rcases hcases with ⟨hends, hminus, -⟩ | ⟨hnot, pos, hpos, hlen⟩
      · exact Or.inl ⟨hends, hminus⟩
      · exact Or.inr ⟨hnot, by omega, by omega⟩
    · by_cases hexceeds : ((file.length : Int) - here.2).tdiv kMinRecordBytes < n
      · exact Or.inl ⟨_, if_pos hexceeds⟩
      · refine Or.inr ⟨n.toNat, here.1, count_le ?_ hexceeds, ?_, if_neg hexceeds⟩
        · rcases hcases with ⟨-, hminus, -⟩ | ⟨-, pos, hpos, -⟩ <;> omega
        · rcases hcases with ⟨-, -, hrest⟩ | ⟨-, pos, -, hlen⟩
          · rw [hrest]
            exact Nat.zero_le _
          · omega

/-- What the log is, by where the parsing phase stops. -/
theorem snapshotLog_cases (file : Bytes) :
    (¬ EndsWithCount file ∧ (parseSnapshotLog file).2 = {}) ∨
    ∃ (here : Int), (EndsWithCount file ∧ here = -1 ∨
        ¬ EndsWithCount file ∧ 0 ≤ here ∧ here ≤ file.length) ∧
      ((parseSnapshotLog file).2 = { subtractions := [((file.length : Int), here)] } ∨
        ∃ (n : Nat) (s : IStream), n ≤ (file.length + 1) / 7 ∧ s.rest.length ≤ file.length ∧
          (parseSnapshotLog file).2
            = ⟨[((file.length : Int), here)], some n, (parseRecordsLog file.length n 0 s).2⟩) := by
  unfold parseSnapshotLog
  cases hheader : parseHeader (.ofBytes file) with
  | error e =>
    refine Or.inl ⟨fun hends => ?_, rfl⟩
    obtain ⟨s, savedAt, n, pos, hok, -⟩ := parse_endsWithCount hends
    cases hheader.symm.trans hok
  | ok p =>
    dsimp only
    rcases countLog_cases hheader with ⟨hnot, e, hlog⟩ | ⟨here, hhere, hlog⟩
    · rw [hlog]
      exact Or.inl ⟨hnot, rfl⟩
    · refine Or.inr ⟨here, hhere, ?_⟩
      rcases hlog with ⟨e, hlog⟩ | ⟨n, s₁, hn, hs, hlog⟩
      · rw [hlog]
        exact Or.inl rfl
      · rw [hlog]
        exact Or.inr ⟨n, s₁, hn, hs, rfl⟩

theorem fits_subtraction {size : Nat} (hsize : (size : Int) ≤ int64Max) {b : Int} (h : 0 ≤ b)
    (hle : b ≤ size) : Fits ((size : Int) - b) := by
  unfold Fits int64Min int64Max at *
  omega

/-- Before the loop nothing is asked for. -/
theorem bounded_check (size : Nat) (subtractions : List (Int × Int)) :
    LoadLog.Bounded size { subtractions := subtractions } ↔
      ∀ p ∈ subtractions, Fits (p.1 - p.2) := by
  constructor
  · exact fun h p hp => h.subtractions p (List.mem_append_left _ hp)
  · intro hfits
    refine ⟨fun n hn => (by cases hn), Nat.zero_le _, fun r hr => (by cases hr), fun k => ?_,
      fun p hp => ?_⟩
    · rw [List.flatMap_nil, List.take_nil]
      exact Nat.zero_le _
    · rw [List.flatMap_nil, List.append_nil] at hp
      exact hfits p hp

/-- In the loop everything is bounded. -/
theorem bounded_loop {size : Nat} (hsize : (size : Int) ≤ int64Max) {n : Nat}
    (hn : n ≤ (size + 1) / 7) {s : IStream} (hs : s.rest.length ≤ size) {here : Int} :
    LoadLog.Bounded size ⟨[((size : Int), here)], some n, (parseRecordsLog size n 0 s).2⟩ ↔
      Fits ((size : Int) - here) := by
  obtain ⟨hlen, hall, hsum⟩ := recordsLog_spec size n 0 s
  generalize (parseRecordsLog size n 0 s).2 = rounds at hlen hall hsum
  constructor
  · exact fun h => h.subtractions _ (List.mem_append_left _ List.mem_cons_self)
  · intro hfits
    refine ⟨fun m hm => ?_, by dsimp only; omega, fun round hround => (hall round hround).1,
      fun k => ?_, fun p hp => ?_⟩
    · cases hm
      exact hn
    · have hle := (List.take_sublist k (rounds.flatMap RecordLog.resizes)).sum_le_sum
        (fun _ _ => Nat.zero_le _)
      dsimp only
      omega
    · rcases List.mem_append.mp hp with hp | hp
      · rw [List.mem_singleton.mp hp]
        exact hfits
      · obtain ⟨round, hround, hp⟩ := List.mem_flatMap.mp hp
        obtain ⟨hfirst, h0, hle⟩ := (hall round hround).2 p hp
        rw [hfirst]
        exact fits_subtraction hsize h0 hle

end UntrustedLemmas

open UntrustedLemmas

/-- **Untrusted files.** For every file whose size `tellg` can report, on any reachable cache: the
load returns; it reserves at most an entry for every seven bytes and one more, and makes at most as
many rounds; it resizes by at most the size of the file in each round, and by at most twice the size
in all; and no subtraction in its checks overflows. The last holds unless the file has the largest
size and ends with its count, and the others always hold. -/
theorem loadLog_bounded_iff {stdHash : Bytes → UInt64} {sc : ShardedCache}
    (hreach : Reachable stdHash sc) {file : Bytes} (hsize : (file.length : Int) ≤ int64Max)
    (wall : Millis) (clock : Nat → Time) :
    ((∃ sc' res, (loadLog stdHash sc file wall clock).1 = some (sc', res)) ∧
      (loadLog stdHash sc file wall clock).2.Bounded file.length) ↔
    ¬ ((file.length : Int) = int64Max ∧ EndsWithCount file) := by
  have hreturns : ∃ sc' res, (loadLog stdHash sc file wall clock).1 = some (sc', res) := by
    obtain ⟨sc', res, hload, -⟩ := load_wf hreach.wf (some file) wall clock
    exact ⟨sc', res, (loadLog_forget stdHash sc file wall clock).trans hload⟩
  rw [and_iff_right hreturns]
  show LoadLog.Bounded file.length (parseSnapshotLog file).2 ↔ _
  rcases snapshotLog_cases file with ⟨hnot, hlog⟩ | ⟨here, hhere, hlog⟩
  · rw [hlog, bounded_check]
    exact iff_of_true (fun p hp => absurd hp List.not_mem_nil) fun h => hnot h.2
  · have hfits : Fits ((file.length : Int) - here) ↔
        ¬ ((file.length : Int) = int64Max ∧ EndsWithCount file) := by
      rcases hhere with ⟨hends, rfl⟩ | ⟨hnot, h0, hle⟩
      · unfold Fits int64Min int64Max at *
        simp only [hends, and_true]
        omega
      · exact iff_of_true (fits_subtraction hsize h0 hle) fun h => hnot h.2
    rw [← hfits]
    rcases hlog with hlog | ⟨n, s, hn, hs, hlog⟩
    · rw [hlog, bounded_check, List.forall_mem_singleton]
    · rw [hlog]
      exact bounded_loop hsize hn hs

/-- One record of which the key is said to be longer than what is left. -/
def overstated : Bytes := ascii "CACHEX-SNAPSHOT 1 0\n1\n20 9 0\nab"

/-- The key is resized to the 20 bytes of its header, which the file does not have. -/
theorem loadLog_bounded_iff_overstated :
    (loadLog (fun _ => 0) (.unbounded 1) overstated 0 fun _ => 0).2
        = ⟨[(31, 22)], some 1, [⟨[(31, 20)], [20]⟩]⟩ ∧
      (loadLog (fun _ => 0) (.unbounded 1) overstated 0 fun _ => 0).2.Bounded 31 :=
  ⟨by decide, ((@loadLog_bounded_iff (fun _ => 0) (.unbounded 1) (.unbounded 1) overstated
    (by decide) 0 fun _ => 0).mpr fun h => absurd h.1 (by decide)).2⟩

/-- A header and the count zero after `n` spaces, with nothing after the count. -/
def paddedCount (n : Nat) : Bytes := List.replicate n space ++ ascii "CACHEX-SNAPSHOT 1 0 0"

theorem length_paddedCount (n : Nat) : (paddedCount n).length = n + 21 := by
  rw [paddedCount, List.length_append, List.length_replicate]
  rfl

theorem isField_after_space {lo hi : Int} {ds : Bytes} (hne : ds ≠ [])
    (hds : ∀ d ∈ ds, Decimal.isDigit d = true) (hlo : lo ≤ Decimal.value ds)
    (hhi : Decimal.value ds ≤ hi) : IsField lo hi (Decimal.value ds) (space :: ds) := by
  refine ⟨⟨[space], [], ds, rfl, fun x hx => ?_, Or.inl rfl, hne, hds, rfl⟩, hlo, hhi⟩
  rw [List.mem_singleton.mp hx]
  exact isSpace_space

theorem endsWithCount_padded (n : Nat) : EndsWithCount (paddedCount n) := by
  have hzero : LongField 0 (ascii " 0") :=
    @isField_after_space _ _ (ascii "0") (by decide) (List.all_eq_true.mp (by decide)) (by decide)
      (by decide)
  refine ⟨List.replicate n space, ascii " 1", ascii " 0", ascii " 0", 0, 0, fun x hx => ?_,
    @isField_after_space _ _ (ascii "1") (by decide) (List.all_eq_true.mp (by decide)) (by decide)
      (by decide),
    ⟨space, ascii "1", rfl, rfl⟩, hzero, ⟨space, ascii "0", rfl, rfl⟩, hzero,
    ⟨space, ascii "0", rfl, rfl⟩, Int.le_refl _, rfl⟩
  rw [List.eq_of_mem_replicate hx]
  exact isSpace_space

theorem subtraction_of_endsWithCount {file : Bytes} (h : EndsWithCount file) {size : Int}
    (hsize : (file.length : Int) = size) (stdHash : Bytes → UInt64) (sc : ShardedCache)
    (wall : Millis) (clock : Nat → Time) :
    (size, -1) ∈ (loadLog stdHash sc file wall clock).2.subtractions := by
  rw [← hsize]
  show _ ∈ (parseSnapshotLog file).2.subtractions
  rcases snapshotLog_cases file with ⟨hnot, -⟩ | ⟨here, ⟨-, rfl⟩ | ⟨hnot, -⟩, hlog⟩
  · exact absurd h hnot
  · rcases hlog with hlog | ⟨n, s, -, -, hlog⟩ <;> rw [hlog] <;> exact List.mem_cons_self
  · exact absurd h hnot

/-- The largest file, which ends with its count: `bytes_left` subtracts -1 from 2 ^ 63 - 1. -/
theorem loadLog_overflows :
    (paddedCount 9223372036854775786).length = 9223372036854775807 ∧
      ((9223372036854775807 : Int), -1) ∈ (loadLog (fun _ => 0) (.unbounded 1)
        (paddedCount 9223372036854775786) 0 fun _ => 0).2.subtractions ∧
      ¬ Fits ((9223372036854775807 : Int) - -1) := by
  have hlen : (paddedCount 9223372036854775786).length = 9223372036854775807 :=
    length_paddedCount 9223372036854775786
  have hsize : ((paddedCount 9223372036854775786).length : Int) = 9223372036854775807 := by
    rw [hlen]
    rfl
  exact ⟨hlen, subtraction_of_endsWithCount (endsWithCount_padded _) hsize _ _ _ _,
    by unfold Fits; decide⟩

end CacheX
