import CacheX.Cache
import CacheX.Lib.IStream

/-!
# The snapshot format

The bytes `PersistenceManager::save` writes (`saveBytes`) and the parsing phase of
`PersistenceManager::load` (`parseSnapshot`), both of `persistence.cpp`. The parser reads the file
through an `IStream`, with formatted extractions for the numbers and raw reads for the payload, in
the source's order and with the source's checks, some of them on a stream that has already failed.

Main result: `parse_saveBytes`, the parser accepts what `save` wrote and gives the entries back.
-/

namespace CacheX

open Decimal (ascii)

def kMagic : Bytes := ascii "CACHEX-SNAPSHOT"

def kVersion : Int := 1

/-- The time-to-live of a record that never expires. -/
def kNoExpiry : Int := -1

/-- The length of the smallest record, `0 0 0\n\n`. -/
def kMinRecordBytes : Int := 7

def int32Min : Int := -2 ^ 31

def int32Max : Int := 2 ^ 31 - 1

def int64Min : Int := -2 ^ 63

def int64Max : Int := 2 ^ 63 - 1

def space : UInt8 := 32

def newline : UInt8 := 10

/-! ## Writing -/

/-- `ttl_ms` of an entry. -/
def ttlMs (entry : EntrySnapshot) : Int := entry.remainingTtl.getD kNoExpiry

/-- `<key_len> <value_len> <ttl_ms>\n<key bytes><value bytes>\n`. -/
def entryBytes (entry : EntrySnapshot) : Bytes :=
  Decimal.ofNat entry.key.length ++ [space] ++ Decimal.ofNat entry.value.length ++ [space]
    ++ Decimal.ofInt (ttlMs entry) ++ [newline] ++ entry.key ++ entry.value ++ [newline]

/-- `CACHEX-SNAPSHOT 1 <saved_at_ms>\n<entry_count>\n`. -/
def headerBytes (savedAt : Int) (count : Nat) : Bytes :=
  kMagic ++ [space] ++ Decimal.ofInt kVersion ++ [space] ++ Decimal.ofInt savedAt ++ [newline]
    ++ Decimal.ofNat count ++ [newline]

/-- Everything `save` writes, for a wall clock that reads `savedAt` milliseconds. -/
def saveBytes (savedAt : Int) (entries : List EntrySnapshot) : Bytes :=
  headerBytes savedAt entries.length ++ entries.flatMap entryBytes

/-! ## Reading -/

/-- One record as read back, before anything is applied to a cache. -/
structure Record where
  key : Bytes
  value : Bytes
  ttlMs : Int
deriving DecidableEq, Repr

/-- The reasons for which `load` refuses a file; `i` is the index of the record. -/
inductive LoadError
  | notSnapshot
  | unsupportedVersion (version : Int)
  | invalidCount
  | countExceeds (count : Int)
  | truncatedHeader (i : Nat)
  | negativeLength (i : Nat)
  | malformedHeader (i : Nat)
  | lengthExceeds (i : Nat)
  | truncatedPayload (i : Nat)
  | payloadMismatch (i : Nat)
deriving DecidableEq, Repr

/-- `LoadResult::error`. -/
def LoadError.text : LoadError → Bytes
  | .notSnapshot => ascii "not a CacheX snapshot"
  | .unsupportedVersion version =>
    ascii "unsupported snapshot version " ++ Decimal.ofInt version
  | .invalidCount => ascii "missing or invalid entry count"
  | .countExceeds count =>
    ascii "entry count " ++ Decimal.ofInt count ++ ascii " exceeds what the file can hold"
  | .truncatedHeader i => ascii "truncated entry header at record " ++ Decimal.ofNat i
  | .negativeLength i => ascii "negative length at record " ++ Decimal.ofNat i
  | .malformedHeader i => ascii "malformed entry header at record " ++ Decimal.ofNat i
  | .lengthExceeds i => ascii "length exceeds file size at record " ++ Decimal.ofNat i
  | .truncatedPayload i => ascii "truncated payload at record " ++ Decimal.ofNat i
  | .payloadMismatch i => ascii "payload length mismatch at record " ++ Decimal.ofNat i

/-- `in >> x` for a `long long`. -/
def readLongLong (s : IStream) (old : Int) : IStream × Int := s.readInt int64Min int64Max old

/-- `read_exact`: the stream, `out`, and whether `count` bytes were there. -/
def readExact (s : IStream) (count : Nat) : IStream × Bytes × Bool :=
  if count = 0 then (s, [], true)
  else
    let got := s.read count
    (got.1, got.2 ++ List.replicate (count - got.2.length) 0, decide (got.2.length = count))

/-- Magic, version and `saved_at_ms`. -/
def parseHeader (s : IStream) : Except LoadError (IStream × Int) :=
  let magic := s.readWord []
  let version := magic.1.readInt int32Min int32Max 0
  let savedAt := readLongLong version.1 0
  if savedAt.1.fail = true ∨ magic.2 ≠ kMagic then .error .notSnapshot
  else if version.2 ≠ kVersion then .error (.unsupportedVersion version.2)
  else .ok savedAt

/-- The entry count and the newline after it, which is not looked at. -/
def parseCount (fileBytes : Int) (s : IStream) : Except LoadError (IStream × Nat) :=
  let count := readLongLong s 0
  if count.1.fail = true ∨ count.2 < 0 then .error .invalidCount
  else
    -- `tellg` is -1 if the count was the last thing in the file
    let here := count.1.get.1.tellg
    if (fileBytes - here.2).tdiv kMinRecordBytes < count.2 then .error (.countExceeds count.2)
    else .ok (here.1, count.2.toNat)

/-- The body of the record loop. -/
def parseRecord (fileBytes : Int) (i : Nat) (s : IStream) : Except LoadError (IStream × Record) :=
  let keyLen := readLongLong s 0
  let valueLen := readLongLong keyLen.1 0
  let ttl := readLongLong valueLen.1 0
  if ttl.1.fail = true then .error (.truncatedHeader i)
  else if keyLen.2 < 0 ∨ valueLen.2 < 0 then .error (.negativeLength i)
  else
    let lineEnd := ttl.1.get
    if lineEnd.2 ≠ some newline then .error (.malformedHeader i)
    else if fileBytes < keyLen.2 ∨ fileBytes - keyLen.2 < valueLen.2 then
      .error (.lengthExceeds i)
    else
      let key := readExact lineEnd.1 keyLen.2.toNat
      let value := readExact key.1 valueLen.2.toNat
      if key.2.2 = false ∨ value.2.2 = false then .error (.truncatedPayload i)
      else
        let recordEnd := value.1.get
        if recordEnd.2 ≠ some newline then .error (.payloadMismatch i)
        else .ok (recordEnd.1, ⟨key.2.1, value.2.1, ttl.2⟩)

/-- The record loop: `count` records from the record with index `i` on. -/
def parseRecords (fileBytes : Int) (count i : Nat) (s : IStream) :
    Except LoadError (IStream × List Record) :=
  IStream.times (parseRecord fileBytes) count i s

/-- What the parsing phase hands to the replay. -/
structure Parsed where
  savedAt : Int
  count : Nat
  records : List Record
deriving DecidableEq, Repr

/-- The parsing phase of `load`: header, count, records. -/
def parseSnapshot (file : Bytes) : Except LoadError Parsed :=
  match parseHeader (.ofBytes file) with
  | .error e => .error e
  | .ok (s, savedAt) =>
    match parseCount file.length s with
    | .error e => .error e
    | .ok (s, count) =>
      match parseRecords file.length count 0 s with
      | .error e => .error e
      | .ok (_, records) => .ok ⟨savedAt, count, records⟩

/-! ## The parser reads back what `save` wrote -/

namespace SnapshotLemmas

theorem isSpace_space : IStream.isSpace space = true := by decide

theorem isSpace_newline : IStream.isSpace newline = true := by decide

theorem isDigit_space : Decimal.isDigit space = false := by decide

theorem isDigit_newline : Decimal.isDigit newline = false := by decide

theorem isSpace_kMagic : ∀ x ∈ kMagic, IStream.isSpace x = false := by
  have hall : kMagic.all (fun x => !IStream.isSpace x) = true := by decide
  intro x hx
  rw [← Bool.not_eq_true']
  exact List.all_eq_true.mp hall x hx

/-- A number that fits an `int64`. -/
def Fits (z : Int) : Prop := int64Min ≤ z ∧ z ≤ int64Max

theorem readLongLong_front {z old : Int} (h : Fits z) {pos : Nat} {rest : Bytes} {b : UInt8}
    (hb : Decimal.isDigit b = false) :
    readLongLong (.ready pos (Decimal.ofInt z ++ b :: rest)) old
      = (.ready (pos + (Decimal.ofInt z).length) (b :: rest), z) :=
  IStream.readInt_front h.1 h.2 hb

theorem readLongLong_after {z old : Int} (h : Fits z) {pos : Nat} {rest : Bytes} {w b : UInt8}
    (hw : IStream.isSpace w = true) (hb : Decimal.isDigit b = false) :
    readLongLong (.ready pos (w :: (Decimal.ofInt z ++ b :: rest))) old
      = (.ready (pos + 1 + (Decimal.ofInt z).length) (b :: rest), z) :=
  IStream.readInt_after h.1 h.2 hw hb

theorem readExact_ready (pos : Nat) (bytes rest : Bytes) :
    readExact (.ready pos (bytes ++ rest)) bytes.length
      = (.ready (pos + bytes.length) rest, bytes, true) := by
  unfold readExact
  split
  · next h =>
    rw [List.length_eq_zero_iff.mp h]
    rfl
  · rw [IStream.read_ready]
    simp

theorem fits_length {n : Nat} (h : (n : Int) ≤ int64Max) : Fits n :=
  ⟨by unfold int64Min; omega, h⟩

end SnapshotLemmas

open SnapshotLemmas

theorem parseHeader_saveBytes {savedAt : Int} (h : Fits savedAt) (rest : Bytes) :
    parseHeader (.ofBytes (kMagic ++ space :: (Decimal.ofInt kVersion ++ space ::
        (Decimal.ofInt savedAt ++ newline :: rest))))
      = .ok (.ready (18 + (Decimal.ofInt savedAt).length) (newline :: rest), savedAt) := by
  have hword : (IStream.ready 0 (kMagic ++ space :: (Decimal.ofInt kVersion ++ space ::
      (Decimal.ofInt savedAt ++ newline :: rest)))).readWord []
        = (.ready (0 + kMagic.length) (space :: (Decimal.ofInt kVersion ++ space ::
            (Decimal.ofInt savedAt ++ newline :: rest))), kMagic) :=
    IStream.readWord_ready (by decide) isSpace_kMagic isSpace_space
  have hversion : ∀ pos, (IStream.ready pos (space :: (Decimal.ofInt kVersion ++ space ::
      (Decimal.ofInt savedAt ++ newline :: rest)))).readInt int32Min int32Max 0
        = (.ready (pos + 1 + 1) (space :: (Decimal.ofInt savedAt ++ newline :: rest)), kVersion) :=
    fun pos => IStream.readInt_after (by decide) (by decide) isSpace_space isDigit_space
  unfold parseHeader IStream.ofBytes
  simp only [hword, hversion, readLongLong_after h isSpace_space isDigit_newline,
    IStream.fail_ready]
  rw [if_neg (by simp), if_neg (by simp)]
  rfl

/-- One round of the record loop on the bytes of one entry. -/
theorem parseRecord_entryBytes {e : EntrySnapshot} {fileBytes : Int} (httl : Fits (ttlMs e))
    (hlen : (e.key.length : Int) + e.value.length ≤ fileBytes) (hmax : fileBytes ≤ int64Max)
    (i pos : Nat) (rest : Bytes) :
    parseRecord fileBytes i (.ready pos (entryBytes e ++ rest))
      = .ok (.ready (pos + (entryBytes e).length) rest, ⟨e.key, e.value, ttlMs e⟩) := by
  have hk : Fits e.key.length := fits_length (by omega)
  have hv : Fits e.value.length := fits_length (by omega)
  have hbytes : entryBytes e ++ rest = Decimal.ofInt e.key.length ++ space ::
      (Decimal.ofInt e.value.length ++ space :: (Decimal.ofInt (ttlMs e) ++ newline ::
        (e.key ++ (e.value ++ newline :: rest)))) := by
    simp only [entryBytes, Decimal.ofInt_natCast, List.append_assoc, List.cons_append,
      List.nil_append]
  have hpos : pos + (entryBytes e).length = pos + (Decimal.ofInt e.key.length).length + 1
      + (Decimal.ofInt e.value.length).length + 1 + (Decimal.ofInt (ttlMs e)).length + 1
      + e.key.length + e.value.length + 1 := by
    simp only [entryBytes, Decimal.ofInt_natCast, List.length_append, List.length_singleton]
    omega
  unfold parseRecord
  rw [hbytes, hpos]
  simp only [readLongLong_front hk isDigit_space, readLongLong_after hv isSpace_space isDigit_space,
    readLongLong_after httl isSpace_space isDigit_newline, IStream.get_ready,
    Int.toNat_natCast, readExact_ready, IStream.fail_ready]
  have hnonneg : ¬ ((e.key.length : Int) < 0 ∨ (e.value.length : Int) < 0) := by omega
  have hfits : ¬ (fileBytes < e.key.length ∨ fileBytes - e.key.length < e.value.length) := by
    omega
  simp [hnonneg, hfits]

/-- An accepted file has a header, a count and records. -/
theorem parseSnapshot_ok {file : Bytes} {p : Parsed} :
    parseSnapshot file = .ok p ↔
      ∃ s₀ s₁ s₂, parseHeader (.ofBytes file) = .ok (s₀, p.savedAt) ∧
        parseCount file.length s₀ = .ok (s₁, p.count) ∧
        parseRecords file.length p.count 0 s₁ = .ok (s₂, p.records) := by
  unfold parseSnapshot
  constructor
  · intro h
    split at h
    · cases h
    · next s₀ savedAt h0 =>
      split at h
      · cases h
      · next s₁ count h1 =>
        split at h
        · cases h
        · next s₂ records h2 =>
          cases h
          exact ⟨s₀, s₁, s₂, h0, h1, h2⟩
  · rintro ⟨s₀, s₁, s₂, h0, h1, h2⟩
    rw [h0]
    dsimp only
    rw [h1]
    dsimp only
    rw [h2]

/-- The record loop on the bytes of a list of entries. -/
theorem parseRecords_entries {fileBytes : Int} (hmax : fileBytes ≤ int64Max)
    {entries : List EntrySnapshot} (httl : ∀ e ∈ entries, Fits (ttlMs e))
    (hlen : ((entries.flatMap entryBytes).length : Int) ≤ fileBytes) (i pos : Nat) (rest : Bytes) :
    parseRecords fileBytes entries.length i (.ready pos (entries.flatMap entryBytes ++ rest))
      = .ok (.ready (pos + (entries.flatMap entryBytes).length) rest,
          entries.map fun e => ⟨e.key, e.value, ttlMs e⟩) := by
  induction entries generalizing i pos with
  | nil => rfl
  | cons e entries ih =>
    rw [List.flatMap_cons, List.length_append] at hlen
    have hle : e.key.length + e.value.length ≤ (entryBytes e).length := by
      simp only [entryBytes, List.length_append]
      omega
    have hrec := parseRecord_entryBytes (httl e List.mem_cons_self)
      (show (e.key.length : Int) + e.value.length ≤ fileBytes by omega) hmax i pos
      (entries.flatMap entryBytes ++ rest)
    have hloop := ih (fun e he => httl e (List.mem_cons_of_mem _ he)) (by omega) (i + 1)
      (pos + (entryBytes e).length)
    rw [List.flatMap_cons, List.append_assoc, List.length_cons, List.length_append,
      ← Nat.add_assoc]
    exact IStream.times_succ.mpr ⟨_, _, _, hrec, hloop, rfl⟩

theorem length_entryBytes (e : EntrySnapshot) : 7 ≤ (entryBytes e).length := by
  have h1 := Decimal.length_ofNat_pos e.key.length
  have h2 := Decimal.length_ofNat_pos e.value.length
  have h3 := Decimal.length_ofInt_pos (ttlMs e)
  simp only [entryBytes, List.length_append, List.length_singleton]
  omega

theorem length_entries (entries : List EntrySnapshot) :
    7 * entries.length ≤ (entries.flatMap entryBytes).length := by
  induction entries with
  | nil => exact Nat.le_refl _
  | cons e entries ih =>
    have := length_entryBytes e
    rw [List.flatMap_cons, List.length_append, List.length_cons]
    omega

theorem length_saveBytes (savedAt : Int) (entries : List EntrySnapshot) :
    entries.length ≤ (saveBytes savedAt entries).length := by
  have := length_entries entries
  rw [saveBytes, List.length_append]
  omega

/-- The count is never too large for the file: every record has at least seven bytes. -/
theorem parseCount_entries {fileBytes : Int} (hmax : fileBytes ≤ int64Max)
    {entries : List EntrySnapshot} {pos : Nat}
    (hfile : fileBytes
      = pos + 2 + (Decimal.ofNat entries.length).length + (entries.flatMap entryBytes).length) :
    parseCount fileBytes (.ready pos (newline :: (Decimal.ofNat entries.length ++ newline ::
        entries.flatMap entryBytes)))
      = .ok (.ready (pos + 2 + (Decimal.ofNat entries.length).length)
          (entries.flatMap entryBytes), entries.length) := by
  have hlen := length_entries entries
  have hcount : Fits entries.length := fits_length (by omega)
  have hread : readLongLong (.ready pos (newline :: (Decimal.ofNat entries.length ++ newline ::
      entries.flatMap entryBytes))) 0
        = (.ready (pos + 1 + (Decimal.ofNat entries.length).length)
            (newline :: entries.flatMap entryBytes), (entries.length : Int)) :=
    readLongLong_after hcount isSpace_newline isDigit_newline
  have hpos : pos + 1 + (Decimal.ofNat entries.length).length + 1
      = pos + 2 + (Decimal.ofNat entries.length).length := by omega
  have hdiv : (entries.length : Int) ≤ (fileBytes
      - ((pos + 2 + (Decimal.ofNat entries.length).length : Nat) : Int)).tdiv kMinRecordBytes := by
    rw [Int.tdiv_eq_ediv_of_nonneg (by omega)]
    refine (Int.le_ediv_iff_mul_le (by decide)).mpr ?_
    unfold kMinRecordBytes
    omega
  unfold parseCount
  simp only [hread, IStream.get_ready, IStream.tellg_ready, IStream.fail_ready,
    Int.toNat_natCast, hpos]
  rw [if_neg (by simp), if_neg (by omega)]

/-- The three phases of the parser on a file that `save` wrote. The last byte is used. -/
theorem phases_saveBytes {savedAt : Int} {entries : List EntrySnapshot}
    (hsaved : Fits savedAt) (httl : ∀ e ∈ entries, Fits (ttlMs e))
    (hsize : ((saveBytes savedAt entries).length : Int) ≤ int64Max) :
    ∃ pos₀ pos₁ pos₂,
      parseHeader (.ofBytes (saveBytes savedAt entries))
        = .ok (.ready pos₀ (newline :: (Decimal.ofNat entries.length ++ newline ::
            entries.flatMap entryBytes)), savedAt) ∧
      parseCount (saveBytes savedAt entries).length (.ready pos₀ (newline ::
          (Decimal.ofNat entries.length ++ newline :: entries.flatMap entryBytes)))
        = .ok (.ready pos₁ (entries.flatMap entryBytes), entries.length) ∧
      parseRecords (saveBytes savedAt entries).length entries.length 0
          (.ready pos₁ (entries.flatMap entryBytes))
        = .ok (.ready pos₂ [], entries.map fun e => ⟨e.key, e.value, ttlMs e⟩) := by
  have hbytes : saveBytes savedAt entries = kMagic ++ space :: (Decimal.ofInt kVersion ++ space ::
      (Decimal.ofInt savedAt ++ newline :: (Decimal.ofNat entries.length ++ newline ::
        entries.flatMap entryBytes))) := by
    simp only [saveBytes, headerBytes, List.append_assoc, List.cons_append, List.nil_append]
  have hlen : (saveBytes savedAt entries).length = 18 + (Decimal.ofInt savedAt).length + 2
      + (Decimal.ofNat entries.length).length + (entries.flatMap entryBytes).length := by
    rw [hbytes]
    simp only [List.length_append, List.length_cons, show kMagic.length = 15 from rfl,
      show (Decimal.ofInt kVersion).length = 1 from rfl]
    omega
  have hheader := parseHeader_saveBytes hsaved
    (Decimal.ofNat entries.length ++ newline :: entries.flatMap entryBytes)
  have hcount := @parseCount_entries _ hsize entries (18 + (Decimal.ofInt savedAt).length)
    (by rw [hlen]; push_cast; rfl)
  have hloop := parseRecords_entries hsize httl (by omega) 0
    (18 + (Decimal.ofInt savedAt).length + 2 + (Decimal.ofNat entries.length).length) []
  rw [List.append_nil] at hloop
  rw [← hbytes] at hheader
  exact ⟨_, _, _, hheader, hcount, hloop⟩

/-- The parser accepts every file `save` writes, for any numbers that fit their type. -/
theorem parseSnapshot_saveBytes {savedAt : Int} {entries : List EntrySnapshot}
    (hsaved : Fits savedAt) (httl : ∀ e ∈ entries, Fits (ttlMs e))
    (hsize : ((saveBytes savedAt entries).length : Int) ≤ int64Max) :
    parseSnapshot (saveBytes savedAt entries)
      = .ok ⟨savedAt, entries.length, entries.map fun e => ⟨e.key, e.value, ttlMs e⟩⟩ := by
  obtain ⟨_, _, _, hheader, hcount, hloop⟩ := phases_saveBytes hsaved httl hsize
  exact parseSnapshot_ok.mpr ⟨_, _, _, hheader, hcount, hloop⟩

/-- **Round trip.** The parsing phase of `load` gives back `saved_at` and the entries of every
file `save` writes. -/
theorem parse_saveBytes {savedAt : Int} {entries : List EntrySnapshot}
    (h0 : 0 ≤ savedAt) (h1 : savedAt ≤ int64Max)
    (httl : ∀ e ∈ entries, ∀ t, e.remainingTtl = some t → 0 ≤ t ∧ t ≤ int64Max)
    (hsize : (saveBytes savedAt entries).length < 2 ^ 63) :
    parseSnapshot (saveBytes savedAt entries) = .ok ⟨savedAt, entries.length,
        entries.map fun e => ⟨e.key, e.value, e.remainingTtl.getD (-1)⟩⟩ ∧
      ∀ e ∈ entries, e.remainingTtl.getD (-1) = -1 ↔ e.remainingTtl = none := by
  refine ⟨?_, fun e he => ?_⟩
  · refine parseSnapshot_saveBytes ⟨by unfold int64Min; omega, h1⟩ (fun e he => ?_) ?_
    · cases ht : e.remainingTtl with
      | none =>
        simp only [ttlMs, ht]
        exact ⟨by decide, by decide⟩
      | some t =>
        obtain ⟨ht0, ht1⟩ := httl e he t ht
        simp only [ttlMs, ht, Option.getD_some]
        exact ⟨Int.le_trans (by decide) ht0, ht1⟩
    · unfold int64Max
      omega
  · cases ht : e.remainingTtl with
    | none => simp
    | some t =>
      obtain ⟨ht0, -⟩ := httl e he t ht
      simp only [Option.getD_some, reduceCtorEq, iff_false]
      exact Int.ne_of_gt (Int.lt_of_lt_of_le (by decide) ht0)

/-- A key of white space and a NUL, an empty value, an empty key, a value that looks like a
header. -/
theorem parse_saveBytes_awkward :
    parseSnapshot (saveBytes 1700000000000
        [⟨[32, 10, 0], [], none⟩, ⟨[], [55, 32, 49, 10], some 60000⟩])
      = .ok ⟨1700000000000, 2, [⟨[32, 10, 0], [], -1⟩, ⟨[], [55, 32, 49, 10], 60000⟩]⟩ := by
  refine (parse_saveBytes (by decide) (by decide) (fun e he t ht => ?_) (by decide)).1
  rcases List.mem_pair.mp he with rfl | rfl
  · cases ht
  · cases ht
    exact ⟨by decide, by decide⟩

end CacheX
