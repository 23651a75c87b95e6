import CacheX.Restore

/-!
# Truncated snapshots

Every proper beginning of a file with records is refused, and a refused file changes nothing.

The parser of records is local: from a good stream to a good stream, it reads the same records when
more bytes follow (`parseRecord_local`, `parseRecords_local`). So a cut file that is accepted would
leave the bytes that were cut off over when the whole file is parsed, and the whole file is used up
to its last byte. A cut in the header or in the count is seen by the next extraction, since a
numeral cut short still counts at least one record (`parseCount_cut`).

Main result: `load_all_or_nothing`.
-/

namespace CacheX

open SnapshotLemmas

namespace TruncationLemmas

/-- An accepted record: every extraction and every check of the loop body. -/
theorem parseRecord_ok {fileBytes : Int} {i : Nat} {s s' : IStream} {r : Record} :
    parseRecord fileBytes i s = .ok (s', r) ↔
      ∃ s₁ keyLen s₂ valueLen s₃ s₄ s₅ s₆,
        readLongLong s 0 = (s₁, keyLen) ∧ readLongLong s₁ 0 = (s₂, valueLen) ∧
        readLongLong s₂ 0 = (s₃, r.ttlMs) ∧ s₃.fail = false ∧ 0 ≤ keyLen ∧ 0 ≤ valueLen ∧
        s₃.get = (s₄, some newline) ∧ keyLen ≤ fileBytes ∧ valueLen ≤ fileBytes - keyLen ∧
        readExact s₄ keyLen.toNat = (s₅, r.key, true) ∧
        readExact s₅ valueLen.toNat = (s₆, r.value, true) ∧ s₆.get = (s', some newline) := by
  obtain ⟨key, value, ttl⟩ := r
  constructor
  · intro h
    unfold parseRecord at h
    dsimp only at h
    split at h
    · cases h
    · next hfail =>
      split at h
      · cases h
      · next hneg =>
        split at h
        · cases h
        · next hline =>
          split at h
          · cases h
          · next hexceeds =>
            split at h
            · cases h
            · next hpayload =>
              split at h
              · cases h
              · next hend =>
                cases h
                simp only [not_or, Int.not_lt, Bool.not_eq_true, Bool.not_eq_false,
                  Decidable.not_not] at hfail hneg hline hexceeds hpayload hend
                exact ⟨_, _, _, _, _, _, _, _, Prod.mk.eta.symm, Prod.mk.eta.symm, Prod.mk.eta.symm,
                  hfail, hneg.1, hneg.2, Prod.ext rfl hline, hexceeds.1, hexceeds.2,
                  Prod.ext rfl (Prod.ext rfl hpayload.1), Prod.ext rfl (Prod.ext rfl hpayload.2),
                  Prod.ext rfl hend⟩
  · rintro ⟨s₁, keyLen, s₂, valueLen, s₃, s₄, s₅, s₆, h1, h2, h3, hfail, hk, hv, hline, hkf, hvf,
      hkey, hvalue, hend⟩
    unfold parseRecord
    simp only [h1, h2, h3, hline, hkey, hvalue, hend, hfail]
    rw [if_neg (by simp), if_neg (by omega), if_neg (by simp), if_neg (by omega), if_neg (by simp),
      if_neg (by simp)]

theorem parseHeader_ok {s s' : IStream} {savedAt : Int} :
    parseHeader s = .ok (s', savedAt) ↔
      ∃ s₁ s₂, s.readWord [] = (s₁, kMagic) ∧ s₁.readInt int32Min int32Max 0 = (s₂, kVersion) ∧
        readLongLong s₂ 0 = (s', savedAt) ∧ s'.fail = false := by
  constructor
  · intro h
    unfold parseHeader at h
    dsimp only at h
    split at h
    · cases h
    · next hfail =>
      split at h
      · cases h
      · next hversion =>
        have hs := Except.ok.inj h
        simp only [not_or, Bool.not_eq_true, Decidable.not_not] at hfail hversion
        rw [hs] at hfail
        exact ⟨_, _, Prod.ext rfl hfail.2, Prod.ext rfl hversion, hs, hfail.1⟩
  · rintro ⟨s₁, s₂, hmagic, hversion, hsaved, hfail⟩
    unfold parseHeader
    simp only [hmagic, hversion, hsaved, hfail]
    rw [if_neg (by simp), if_neg (by simp)]

theorem parseCount_ok {fileBytes : Int} {s s' : IStream} {n : Nat} :
    parseCount fileBytes s = .ok (s', n) ↔
      ∃ s₁ count s₂ b here, readLongLong s 0 = (s₁, count) ∧ s₁.fail = false ∧ 0 ≤ count ∧
        s₁.get = (s₂, b) ∧ s₂.tellg = (s', here) ∧
        count ≤ (fileBytes - here).tdiv kMinRecordBytes ∧ n = count.toNat := by
  constructor
  · intro h
    unfold parseCount at h
    dsimp only at h
    split at h
    · cases h
    · next hfail =>
      split at h
      · cases h
      · next hexceeds =>
        cases h
        simp only [not_or, Bool.not_eq_true, Int.not_lt] at hfail hexceeds
        exact ⟨_, _, _, _, _, Prod.mk.eta.symm, hfail.1, hfail.2, Prod.mk.eta.symm,
          Prod.mk.eta.symm, hexceeds, rfl⟩
  · rintro ⟨s₁, count, s₂, b, here, hcount, hfail, hpos, hget, htell, hle, rfl⟩
    unfold parseCount
    simp only [hcount, hget, htell, hfail]
    rw [if_neg (by simp; omega), if_neg (by omega)]

/-! ### Locality -/

theorem readLongLong_local (old : Int) : IStream.Local fun s => readLongLong s old :=
  IStream.readInt_local _ _ _

theorem readExact_local (n : Nat) : IStream.Local fun s => readExact s n := by
  intro s h
  by_cases h0 : n = 0
  · simp only [readExact, if_pos h0] at h ⊢
    exact ⟨h, fun _ => trivial⟩
  · simp only [readExact, if_neg h0] at h ⊢
    obtain ⟨hs, hext⟩ := IStream.read_local n s h
    refine ⟨hs, fun q => ?_⟩
    have hread : (s.extend q).read n = ((s.read n).1.extend q, (s.read n).2) := hext q
    rw [hread]

theorem parseHeader_local {s s' : IStream} {savedAt : Int} (h : parseHeader s = .ok (s', savedAt))
    (hgood : s'.good = true) (q : Bytes) :
    parseHeader (s.extend q) = .ok (s'.extend q, savedAt) := by
  obtain ⟨s₁, s₂, hmagic, hversion, hsaved, hfail⟩ := parseHeader_ok.mp h
  obtain ⟨h2, hsaved'⟩ := (readLongLong_local 0).eq hsaved hgood
  obtain ⟨h1, hversion'⟩ := (IStream.readInt_local _ _ _).eq hversion h2
  obtain ⟨-, hmagic'⟩ := (IStream.readWord_local _).eq hmagic h1
  exact parseHeader_ok.mpr ⟨_, _, hmagic' q, hversion' q, hsaved' q, hfail⟩

/-- A larger file never makes the count too large. -/
theorem parseCount_local {fileBytes fileBytes' : Int} (hle : fileBytes ≤ fileBytes')
    {s s' : IStream} {n : Nat} (h : parseCount fileBytes s = .ok (s', n)) (hgood : s'.good = true)
    (q : Bytes) : parseCount fileBytes' (s.extend q) = .ok (s'.extend q, n) := by
  obtain ⟨s₁, count, s₂, b, here, hcount, hfail, hpos, hget, htell, hbound, rfl⟩ :=
    parseCount_ok.mp h
  obtain ⟨h2, htell'⟩ := IStream.tellg_local.eq htell hgood
  obtain ⟨h1, hget'⟩ := IStream.get_local.eq hget h2
  obtain ⟨-, hcount'⟩ := (readLongLong_local 0).eq hcount h1
  refine parseCount_ok.mpr ⟨_, _, _, _, _, hcount' q, hfail, hpos, hget' q, htell' q, ?_, rfl⟩
  exact hbound.trans (Int.tdiv_le_tdiv (by decide) (Int.sub_le_sub_right hle _))

theorem parseRecord_local {fileBytes fileBytes' : Int} (hle : fileBytes ≤ fileBytes') {i : Nat}
    {s s' : IStream} {r : Record} (h : parseRecord fileBytes i s = .ok (s', r)) :
    s.good = true ∧ s'.good = true ∧
      ∀ q, parseRecord fileBytes' i (s.extend q) = .ok (s'.extend q, r) := by
  obtain ⟨s₁, keyLen, s₂, valueLen, s₃, s₄, s₅, s₆, hkl, hvl, httl, hfail, hk, hv, hline, hkf, hvf,
    hkey, hvalue, hend⟩ := parseRecord_ok.mp h
  -- the last `get` gave a byte, so the stream was good all along
  have hgood := IStream.get_some hend
  obtain ⟨h6, hend'⟩ := IStream.get_local.eq hend hgood
  obtain ⟨h5, hvalue'⟩ := (readExact_local _).eq hvalue h6
  obtain ⟨h4, hkey'⟩ := (readExact_local _).eq hkey h5
  obtain ⟨h3, hline'⟩ := IStream.get_local.eq hline h4
  obtain ⟨h2, httl'⟩ := (readLongLong_local 0).eq httl h3
  obtain ⟨h1, hvl'⟩ := (readLongLong_local 0).eq hvl h2
  obtain ⟨h0, hkl'⟩ := (readLongLong_local 0).eq hkl h1
  refine ⟨h0, hgood, fun q => parseRecord_ok.mpr ⟨_, _, _, _, _, _, _, _, hkl' q, hvl' q, httl' q,
    hfail, hk, hv, hline' q, hkf.trans hle, ?_, hkey' q, hvalue' q, hend' q⟩⟩
  exact hvf.trans (Int.sub_le_sub_right hle _)

theorem parseRecords_local {fileBytes fileBytes' : Int} (hle : fileBytes ≤ fileBytes') {n i : Nat}
    {s s' : IStream} {rs : List Record} (h : parseRecords fileBytes n i s = .ok (s', rs))
    (hs : s.good = true) (q : Bytes) :
    parseRecords fileBytes' n i (s.extend q) = .ok (s'.extend q, rs) := by
  induction n generalizing i s rs with
  | zero =>
    cases h
    rfl
  | succ n ih =>
    obtain ⟨s₁, r, tail, hrec, hloop, rfl⟩ := IStream.times_succ.mp h
    obtain ⟨-, hs₁, hrec'⟩ := parseRecord_local hle hrec
    exact IStream.times_succ.mpr ⟨_, r, tail, hrec' q, ih hloop hs₁, rfl⟩

/-! ### Cuts in the header -/

theorem readLongLong_bad {s : IStream} (h : s.good = false) (old : Int) :
    (readLongLong s old).1.fail = true := by
  have hsen : s.sentry = s.setFail := if_neg (by rw [h]; exact Bool.false_ne_true)
  simp only [readLongLong, IStream.readInt, hsen, IStream.good_setFail, Bool.false_eq_true,
    if_false]
  rfl

/-- What is left of a cut numeral is read to the end of the file, as a smaller number that is not
zero. -/
theorem readLongLong_cut {n pos : Nat} (hn : 0 < n) {ds more : Bytes}
    (h : Decimal.ofNat n = ds ++ more)
    {s' : IStream} {count : Int}
    (hread : readLongLong (.ready pos (newline :: ds)) 0 = (s', count)) (hfail : s'.fail = false) :
    0 < count := by
  have hdig : ∀ d ∈ ds, Decimal.isDigit d = true := fun d hd =>
    @Decimal.isDigit_of_mem_ofNat n d (by rw [h]; exact List.mem_append_left _ hd)
  cases ds with
  | nil =>
    cases hread
    cases hfail
  | cons d ds =>
    have hd := hdig d List.mem_cons_self
    have hsen : (IStream.ready pos (newline :: d :: ds)).sentry
        = .ready (pos + 1) ([] ++ d :: ds ++ []) := by
      rw [List.append_nil]
      exact @IStream.sentry_ready pos [newline] ds d
        (fun x hx => by rw [List.mem_singleton.mp hx]; exact isSpace_newline)
        (IStream.isSpace_digit hd)
    have hval := Decimal.value_pos_of_prefix hn (List.cons_ne_nil d ds) h
    have hparts := @IStream.readInt_parts int64Min int64Max 0 _ _ [] (d :: ds) [] hsen
      (IStream.sign_digit hd _) (List.cons_ne_nil _ _) hdig rfl
    rw [readLongLong, hparts, if_neg (by simp)] at hread
    unfold IStream.storeInt at hread
    split at hread
    · cases hread
      cases hfail
    · split at hread
      · cases hread
        cases hfail
      · cases hread
        exact Int.natCast_pos.mpr hval

/-- The count of a cut file is not zero. -/
theorem parseCount_cut {fileBytes : Int} {n pos : Nat} (hn : 0 < n) (hfits : Fits n)
    {l q tail : Bytes}
    (hcut : l ++ q = newline :: (Decimal.ofNat n ++ newline :: tail)) {s' : IStream} {m : Nat}
    (h : parseCount fileBytes (.ready pos l) = .ok (s', m)) : 0 < m := by
  obtain ⟨s₁, count, s₂, b, here, hcount, hfail, -, -, -, -, rfl⟩ := parseCount_ok.mp h
  suffices hpos : 0 < count by omega
  cases l with
  | nil =>
    cases hcount
    cases hfail
  | cons c l =>
    obtain ⟨rfl, hl⟩ := List.cons.inj hcut
    -- the cut is in the numeral, or the numeral is there with its newline
    rcases List.append_eq_append_iff.mp hl with ⟨more, hds, -⟩ | ⟨x, rfl, hx⟩
    · exact readLongLong_cut hn hds hcount hfail
    · cases x with
      | nil =>
        rw [List.append_nil] at hcount
        exact readLongLong_cut hn (List.append_nil _).symm hcount hfail
      | cons y x =>
        obtain ⟨rfl, -⟩ := List.cons.inj hx
        have hread := @readLongLong_after n 0 hfits pos x newline newline isSpace_newline
          isDigit_newline
        rw [Decimal.ofInt_natCast] at hread
        cases hcount.symm.trans hread
        exact Int.natCast_pos.mpr hn

end TruncationLemmas

open TruncationLemmas

/-- The count that a file states: the number after the header line. -/
def statedCount (file : Bytes) : Option Int :=
  (parseHeader (.ofBytes file)).toOption.map fun header => (readLongLong header.1 0).2

/-- As many records are read as the file states. -/
theorem statedCount_of_parse {file : Bytes} {p : Parsed} (h : parseSnapshot file = .ok p) :
    statedCount file = some (p.records.length : Int) := by
  obtain ⟨s₀, s₁, s₂, hheader, hcount, hrecords⟩ := parseSnapshot_ok.mp h
  obtain ⟨_, count, _, _, _, hread, -, hpos, -, -, -, hn⟩ := parseCount_ok.mp hcount
  have hlen : p.records.length = p.count := IStream.length_times hrecords
  rw [hlen, hn, Int.toNat_of_nonneg hpos, statedCount, hheader]
  show some (readLongLong s₀ 0).2 = _
  rw [hread]

/-- No proper beginning of a file with records is accepted. -/
theorem parseSnapshot_cut {savedAt : Int} {entries : List EntrySnapshot} (hsaved : Fits savedAt)
    (httl : ∀ e ∈ entries, Fits (ttlMs e))
    (hsize : ((saveBytes savedAt entries).length : Int) ≤ int64Max) (hne : entries ≠ [])
    {p q : Bytes} (hcut : saveBytes savedAt entries = p ++ q) (hq : q ≠ []) (parsed : Parsed) :
    parseSnapshot p ≠ .ok parsed := by
  intro hparse
  obtain ⟨s₀, s₁, s₂, hheader, hcount, hrecords⟩ := parseSnapshot_ok.mp hparse
  obtain ⟨pos₀, pos₁, pos₂, hheader', hcount', hrecords'⟩ := phases_saveBytes hsaved httl hsize
  rw [hcut] at hheader' hcount' hrecords'
  have hle : (p.length : Int) ≤ (p ++ q).length := by simp
  -- the header
  have hs₀ : s₀.good = true := by
    by_contra hbad
    obtain ⟨_, _, _, _, _, hread, hfail, -⟩ := parseCount_ok.mp hcount
    have := readLongLong_bad (Bool.eq_false_iff.mpr hbad) 0
    rw [hread, hfail] at this
    cases this
  have hstream₀ := (parseHeader_local hheader hs₀ q).symm.trans hheader'
  have h₀ : s₀.extend q = .ready pos₀ (newline :: (Decimal.ofNat entries.length ++ newline ::
      entries.flatMap entryBytes)) := (Prod.mk.inj (Except.ok.inj hstream₀)).1
  -- the count is that of the whole file or what is left of it
  have hpos : 0 < parsed.count := by
    rw [IStream.eq_ready hs₀] at hcount
    refine parseCount_cut (List.length_pos_iff.mpr hne) (fits_length ?_)
      (congrArg IStream.rest h₀) hcount
    exact (Int.ofNat_le.mpr (length_saveBytes savedAt entries)).trans hsize
  -- a record was read, so the stream was still good after the count
  obtain ⟨n, hn⟩ := Nat.exists_eq_add_one.mpr hpos
  have hs₁ : s₁.good = true := by
    rw [hn] at hrecords
    obtain ⟨_, _, _, hrec, -, -⟩ := IStream.times_succ.mp hrecords
    exact (parseRecord_local hle hrec).1
  have hstream₁ := parseCount_local hle hcount hs₁ q
  rw [h₀, hcount'] at hstream₁
  obtain ⟨h₁, hlen⟩ := Prod.mk.inj (Except.ok.inj hstream₁)
  have hstream₂ := parseRecords_local hle hrecords hs₁ q
  rw [← h₁, ← hlen, hrecords'] at hstream₂
  -- the records use up the whole file, and the bytes that were cut off are left over
  have h₂ : [] = s₂.rest ++ q :=
    congrArg (fun x => IStream.rest (Prod.fst x)) (Except.ok.inj hstream₂)
  exact hq (List.append_eq_nil_iff.mp h₂.symm).2

/-- **All or nothing.** A file that `save` wrote with at least one record and that was cut short
anywhere is refused, and the cache stays as it is. Whatever the file is, a refused load leaves the
cache as it is, and an accepted one accounts for as many records as the file states. -/
theorem load_all_or_nothing (stdHash : Bytes → UInt64) {sc : ShardedCache}
    (hreach : Reachable stdHash sc) (wall : Millis) (clock : Nat → Time) :
    (∀ savedAt entries p q, Fits savedAt → (∀ e ∈ entries, Fits (ttlMs e)) →
      ((saveBytes savedAt entries).length : Int) ≤ int64Max → entries ≠ [] →
      saveBytes savedAt entries = p ++ q → q ≠ [] →
      ∃ res, load stdHash sc (some p) wall clock = some (sc, res) ∧ res.ok = false) ∧
    ∀ file, ∃ sc' res, load stdHash sc (some file) wall clock = some (sc', res) ∧
      (res.ok = false → sc' = sc) ∧
      (res.ok = true → statedCount file = some ((res.loaded + res.expired : Nat) : Int)) := by
  refine ⟨fun savedAt entries p q hsaved httl hsize hne hcut hq => ?_, fun file => ?_⟩
  · rcases load_cases hreach.wf p wall clock with ⟨e, -, hload⟩ | ⟨parsed, -, -, hparse, -⟩
    · exact ⟨_, hload, rfl⟩
    · exact absurd hparse (parseSnapshot_cut hsaved httl hsize hne hcut hq parsed)
  · rcases load_cases hreach.wf file wall clock with
      ⟨e, -, hload⟩ | ⟨parsed, sc', res, hparse, hload, hok, -, hcount, -⟩
    · exact ⟨sc, _, hload, fun _ => rfl, fun h => by cases h⟩
    · refine ⟨sc', res, hload, fun h => ?_, fun _ => ?_⟩
      · rw [hok] at h
        cases h
      · rw [hcount]
        exact statedCount_of_parse hparse

/-- Twelve records, and a cut that leaves a count of one. -/
theorem load_all_or_nothing_twelve :
    ∃ res, load (fun _ => 0) (.unbounded 2) (some ((saveBytes 1700000000000
        (List.replicate 12 ⟨[107], [118], some 60000⟩)).take 33)) 1700000000000 (fun _ => 0)
      = some (.unbounded 2, res) ∧ res.ok = false := by
  refine (load_all_or_nothing (fun _ => 0) (.unbounded 2) 1700000000000 (fun _ => 0)).1
    1700000000000 (List.replicate 12 ⟨[107], [118], some 60000⟩) _ _ ⟨by decide, by decide⟩
    (fun e he => ?_) (by decide +kernel) (by decide) (List.take_append_drop 33 _).symm
    (by decide +kernel)
  rw [List.eq_of_mem_replicate he]
  exact ⟨by decide, by decide⟩

end CacheX
