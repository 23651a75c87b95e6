import CacheX.Truncation

/-!
# Bytes after the last record

The loader reads as many records as the count says and does not look at what comes after them.

* `SnapshotText`: the texts that the extractions of the loader take for a snapshot.
* `parse_text`, `text_of_parse`: a file is accepted with `q` left over when it is such a text and
  `q`.
* `trailing_iff`: an accepted file is read to its end exactly when it is not a snapshot with more
  bytes after it; and a saved file with another count is refused exactly when that count is negative
  or too large.
* `trailing_dropped`: a saved file with two records and the count one is accepted.
-/

namespace CacheX

open SnapshotLemmas TruncationLemmas
open IStream (IsField)

/-! ## The texts of snapshots -/

/-- The beginning of a text that ends a numeral before it. -/
def Stops (t : Bytes) : Prop := ∃ b u, t = b :: u ∧ Decimal.isDigit b = false

/-- A text that `in >> x` takes for `z`, where `x` is a `long long`. -/
abbrev LongField (z : Int) (t : Bytes) : Prop := IsField int64Min int64Max z t

/-- A record: two lengths and a ttl, a newline, the payload, a newline. -/
def RecordText (r : Record) (t : Bytes) : Prop :=
  ∃ keyLen valueLen ttl, LongField r.key.length keyLen ∧ LongField r.value.length valueLen ∧
    Stops valueLen ∧ LongField r.ttlMs ttl ∧ Stops ttl ∧
    t = keyLen ++ (valueLen ++ (ttl ++ newline :: (r.key ++ (r.value ++ [newline]))))

/-- A snapshot: the magic word, the version, `saved_at_ms`, the count, any byte, and that many
records. -/
def SnapshotText (p : Parsed) (g : Bytes) : Prop :=
  ∃ space version savedAt count b texts, (∀ x ∈ space, IStream.isSpace x = true) ∧
    IsField int32Min int32Max kVersion version ∧
    (∃ c u, version = c :: u ∧ IStream.isSpace c = true) ∧
    LongField p.savedAt savedAt ∧ Stops savedAt ∧ LongField p.count count ∧ Stops count ∧
    Decimal.isDigit b = false ∧ p.count = p.records.length ∧
    List.Forall₂ RecordText p.records texts ∧
    g = space ++ (kMagic ++ (version ++ (savedAt ++ (count ++ b :: texts.flatten))))

/-- What the loader leaves unread of a file that it accepts. -/
def leftover (file : Bytes) : Option Bytes :=
  (parseHeader (.ofBytes file)).toOption.bind fun header =>
    (parseCount file.length header.1).toOption.bind fun count =>
      (parseRecords file.length count.2 0 count.1).toOption.map fun records => records.1.rest

namespace TrailingLemmas

theorem ok_of_toOption {ε α : Type} {x : Except ε α} {a : α} (h : x.toOption = some a) :
    x = .ok a := by
  cases x with
  | error e => cases h
  | ok b =>
    cases h
    rfl

theorem leftover_eq_some {file q : Bytes} :
    leftover file = some q ↔ ∃ (s₀ s₁ s₂ : IStream) (p : Parsed),
      parseHeader (.ofBytes file) = .ok (s₀, p.savedAt) ∧
      parseCount file.length s₀ = .ok (s₁, p.count) ∧
      parseRecords file.length p.count 0 s₁ = .ok (s₂, p.records) ∧ s₂.rest = q := by
  constructor
  · intro h
    obtain ⟨⟨s₀, savedAt⟩, h0, h⟩ := Option.bind_eq_some_iff.mp h
    obtain ⟨⟨s₁, count⟩, h1, h⟩ := Option.bind_eq_some_iff.mp h
    obtain ⟨⟨s₂, records⟩, h2, rfl⟩ := Option.map_eq_some_iff.mp h
    exact ⟨s₀, s₁, s₂, ⟨savedAt, count, records⟩, ok_of_toOption h0,
      ok_of_toOption h1, ok_of_toOption h2, rfl⟩
  · rintro ⟨s₀, s₁, s₂, p, h0, h1, h2, rfl⟩
    simp only [leftover, h0, Except.toOption, Option.bind_some, h1, h2, Option.map_some]

theorem isField_ne_nil {lo hi z : Int} {t : Bytes} (h : IsField lo hi z t) : 1 ≤ t.length := by
  obtain ⟨space, sg, ds, rfl, -, -, hne, -⟩ := h.parts
  have := List.length_pos_of_ne_nil hne
  simp only [List.length_append]
  omega

/-- A field that ends a numeral has a byte before its digits. -/
theorem two_le_length {lo hi z : Int} {t : Bytes} (h : IsField lo hi z t) (hstops : Stops t) :
    2 ≤ t.length := by
  obtain ⟨b, u, rfl, hb⟩ := hstops
  obtain ⟨space, sg, ds, ht, -, -, hne, hds, -⟩ := h.parts
  have hpos := List.length_pos_of_ne_nil hne
  have hlen := congrArg List.length ht
  simp only [List.length_append] at hlen
  by_contra hshort
  -- a single byte would be a digit
  have hspace : space = [] := List.length_eq_zero_iff.mp (by omega)
  have hsg : sg = [] := List.length_eq_zero_iff.mp (by omega)
  rw [hspace, hsg, List.nil_append, List.nil_append] at ht
  rw [hds b (ht ▸ List.mem_cons_self)] at hb
  cases hb

theorem length_recordText {r : Record} {t : Bytes} (h : RecordText r t) :
    7 + r.key.length + r.value.length ≤ t.length := by
  obtain ⟨keyLen, valueLen, ttl, hk, hv, hvs, ht, hts, rfl⟩ := h
  have h1 := isField_ne_nil hk
  have h2 := two_le_length hv hvs
  have h3 := two_le_length ht hts
  simp only [List.length_append, List.length_cons, List.length_nil]
  omega

theorem length_recordTexts {records : List Record} {texts : List Bytes}
    (h : List.Forall₂ RecordText records texts) :
    7 * records.length ≤ texts.flatten.length := by
  induction h with
  | nil => exact Nat.le_refl _
  | cons hr _ ih =>
    have := length_recordText hr
    simp only [List.length_cons, List.flatten_cons, List.length_append]
    omega

/-! ### A text is accepted -/

theorem readInt_stops {lo hi z : Int} {t u : Bytes} (ht : IsField lo hi z t) (hu : Stops u)
    (pos : Nat) (rest : Bytes) : (IStream.ready pos (t ++ (u ++ rest))).readInt lo hi 0
      = (.ready (pos + t.length) (u ++ rest), z) := by
  obtain ⟨b, u, rfl, hb⟩ := hu
  exact IStream.readInt_field ht hb pos (u ++ rest)

theorem readLongLong_field {z : Int} {t u : Bytes} (ht : LongField z t) (hu : Stops u) (pos : Nat)
    (rest : Bytes) : readLongLong (.ready pos (t ++ (u ++ rest))) 0
      = (.ready (pos + t.length) (u ++ rest), z) :=
  readInt_stops ht hu pos rest

theorem stops_cons {b : UInt8} (h : Decimal.isDigit b = false) (u : Bytes) : Stops (b :: u) :=
  ⟨b, u, rfl, h⟩

theorem parseRecord_text {r : Record} {t : Bytes} (h : RecordText r t) {fileBytes : Int}
    (hfile : (t.length : Int) ≤ fileBytes) (i pos : Nat) (rest : Bytes) :
    parseRecord fileBytes i (.ready pos (t ++ rest)) = .ok (.ready (pos + t.length) rest, r) := by
  have hlen := length_recordText h
  obtain ⟨keyLen, valueLen, ttl, hk, hv, hvs, ht, hts, rfl⟩ := h
  have hbytes :
      keyLen ++ (valueLen ++ (ttl ++ newline :: (r.key ++ (r.value ++ [newline])))) ++ rest
        = keyLen ++ (valueLen ++ (ttl ++ ([newline] ++ (r.key ++ (r.value ++ newline :: rest)))))
      := by
    simp only [List.append_assoc, List.cons_append, List.nil_append]
  have hpos :
      pos + (keyLen ++ (valueLen ++ (ttl ++ newline :: (r.key ++ (r.value ++ [newline]))))).length
        = pos + keyLen.length + valueLen.length + ttl.length + 1 + r.key.length + r.value.length
          + 1 := by
    simp only [List.length_append, List.length_cons, List.length_nil]
    omega
  rw [hbytes, hpos]
  refine parseRecord_ok.mpr ⟨_, _, _, _, _, _, _, _,
    readLongLong_field hk hvs pos _, readLongLong_field hv hts _ _,
    readLongLong_field ht (stops_cons isDigit_newline []) _ _, IStream.fail_ready _ _, by omega,
    by omega, IStream.get_ready _ _ _, by omega, by omega,
    readExact_ready _ r.key (r.value ++ newline :: rest),
    readExact_ready _ r.value (newline :: rest), IStream.get_ready _ _ _⟩

theorem parseRecords_text {records : List Record} {texts : List Bytes}
    (h : List.Forall₂ RecordText records texts) {fileBytes : Int}
    (hfile : (texts.flatten.length : Int) ≤ fileBytes) (i pos : Nat) (rest : Bytes) :
    parseRecords fileBytes records.length i (.ready pos (texts.flatten ++ rest))
      = .ok (.ready (pos + texts.flatten.length) rest, records) := by
  induction h generalizing i pos with
  | nil => rfl
  | @cons r t records texts hr hrs ih =>
    rw [List.flatten_cons, List.length_append] at hfile
    have hrec := @parseRecord_text r t hr fileBytes (by omega) i pos (texts.flatten ++ rest)
    rw [List.flatten_cons, List.append_assoc, List.length_append, ← Nat.add_assoc]
    exact IStream.times_succ.mpr ⟨_, r, records, hrec, ih (by omega) (i + 1) _, rfl⟩

/-- A snapshot is accepted, whatever comes after it. -/
theorem parse_text {p : Parsed} {g : Bytes} (h : SnapshotText p g) (q : Bytes) :
    leftover (g ++ q) = some q := by
  obtain ⟨space, version, savedAt, count, b, texts, hspace, hversion, ⟨c, u, rfl, hc⟩, hsaved,
    hsavedStops, hcount, hcountStops, hb, hlen, htexts, rfl⟩ := h
  have hbytes : space ++ (kMagic ++ (c :: u ++ (savedAt ++ (count ++ b :: texts.flatten)))) ++ q
      = space ++ (kMagic ++ c :: (u ++ (savedAt ++ (count ++ ([b] ++ (texts.flatten ++ q)))))) := by
    simp only [List.append_assoc, List.cons_append, List.nil_append]
  have hrecords := length_recordTexts htexts
  rw [hbytes]
  generalize hfile :
    space ++ (kMagic ++ c :: (u ++ (savedAt ++ (count ++ ([b] ++ (texts.flatten ++ q)))))) = file
  have hsize := congrArg List.length hfile
  simp only [List.length_append, List.length_cons, List.length_nil] at hsize
  have hheader : parseHeader (.ofBytes file) = .ok (.ready (0 + space.length + kMagic.length
      + (c :: u).length + savedAt.length) (count ++ ([b] ++ (texts.flatten ++ q))), p.savedAt) :=
    hfile ▸ parseHeader_ok.mpr ⟨_, _, IStream.readWord_skip hspace (by decide) isSpace_kMagic hc,
      readInt_stops hversion hsavedStops _ _, readLongLong_field hsaved hcountStops _ _,
      IStream.fail_ready _ _⟩
  have hbound : (p.count : Int)
      ≤ ((file.length : Int) - ((0 + space.length + kMagic.length + (c :: u).length
        + savedAt.length + count.length + 1 : Nat) : Int)).tdiv kMinRecordBytes := by
    rw [Int.tdiv_eq_ediv_of_nonneg (by rw [List.length_cons]; omega)]
    unfold kMinRecordBytes
    rw [List.length_cons]
    omega
  have hcounted := parseCount_ok.mpr ⟨_, (p.count : Int), _, _, _,
    readLongLong_field hcount (stops_cons hb []) _ (texts.flatten ++ q), IStream.fail_ready _ _,
    by omega, IStream.get_ready _ _ _, IStream.tellg_ready _ _, hbound, rfl⟩
  have hread := @parseRecords_text p.records texts htexts file.length (by omega) 0
    (0 + space.length + kMagic.length + (c :: u).length + savedAt.length + count.length + 1) q
  rw [← hlen] at hread
  exact leftover_eq_some.mpr ⟨_, _, _, p, hheader, hcounted, hread, rfl⟩

/-! ### What is accepted is a text -/

theorem stops_of_append {t l : Bytes} (h : Stops (t ++ l)) (ht : 1 ≤ t.length) : Stops t := by
  obtain ⟨b, u, heq, hb⟩ := h
  cases t with
  | nil => exact absurd ht (by decide)
  | cons c t =>
    cases heq
    exact ⟨_, t, rfl, hb⟩

/-- A number that was read with a byte left. -/
theorem readLongLong_inv {z : Int} {s s' : IStream} (h : readLongLong s 0 = (s', z))
    (hgood : s'.good = true) : ∃ t, LongField z t ∧ s.Consumes t s' ∧ Stops s'.rest := by
  obtain ⟨t, ht, hs, b, rest, hrest, hb⟩ := IStream.readInt_inv h hgood
  exact ⟨t, ht, hs, b, rest, hrest, hb⟩

/-- The next field ends the number before it. -/
theorem stops_next {lo hi z : Int} {t : Bytes} {s s' : IStream} (hstops : Stops s.rest)
    (ht : IsField lo hi z t) (h : s.Consumes t s') : Stops t := by
  rw [show s.rest = t ++ s'.rest from congrArg IStream.rest h.1] at hstops
  exact stops_of_append hstops (isField_ne_nil ht)

theorem readExact_inv {n : Nat} {bytes : Bytes} {s s' : IStream}
    (h : readExact s n = (s', bytes, true)) (hgood : s'.good = true) :
    bytes.length = n ∧ s.Consumes bytes s' := by
  unfold readExact at h
  split at h
  · next h0 =>
    cases h
    exact ⟨h0.symm, IStream.eq_ready hgood, IStream.eq_ready hgood⟩
  · simp only [Prod.mk.injEq, decide_eq_true_eq] at h
    obtain ⟨rfl, rfl, hlen⟩ := h
    rw [hlen, Nat.sub_self, List.replicate_zero, List.append_nil]
    exact IStream.read_inv rfl hgood

theorem recordText_of_parse {fileBytes : Int} {i : Nat} {s s' : IStream} {r : Record}
    (h : parseRecord fileBytes i s = .ok (s', r)) :
    s'.good = true ∧ ∃ t, RecordText r t ∧ s.Consumes t s' := by
  obtain ⟨s₁, keyLen, s₂, valueLen, s₃, s₄, s₅, s₆, hkl, hvl, httl, -, hk, hv, hline, -, -,
    hkey, hvalue, hend⟩ := parseRecord_ok.mp h
  have hgood := IStream.get_some hend
  obtain ⟨h6, -⟩ := IStream.get_local.eq hend hgood
  obtain ⟨h5, -⟩ := (readExact_local _).eq hvalue h6
  obtain ⟨h4, -⟩ := (readExact_local _).eq hkey h5
  obtain ⟨h3, -⟩ := IStream.get_local.eq hline h4
  obtain ⟨h2, -⟩ := (readLongLong_local 0).eq httl h3
  obtain ⟨h1, -⟩ := (readLongLong_local 0).eq hvl h2
  obtain ⟨t₁, ht₁, hc₁, hstops₁⟩ := readLongLong_inv hkl h1
  obtain ⟨t₂, ht₂, hc₂, hstops₂⟩ := readLongLong_inv hvl h2
  obtain ⟨t₃, ht₃, hc₃, -⟩ := readLongLong_inv httl h3
  obtain ⟨hklen, hc₅⟩ := readExact_inv hkey h5
  obtain ⟨hvlen, hc₆⟩ := readExact_inv hvalue h6
  have hkeyLen : keyLen = r.key.length := by omega
  have hvalueLen : valueLen = r.value.length := by omega
  refine ⟨hgood, _, ⟨t₁, t₂, t₃, hkeyLen ▸ ht₁, hvalueLen ▸ ht₂, stops_next hstops₁ ht₂ hc₂, ht₃,
    stops_next hstops₂ ht₃ hc₃, rfl⟩, ?_⟩
  exact hc₁.trans (hc₂.trans (hc₃.trans ((IStream.get_inv hline).trans
    (hc₅.trans (hc₆.trans (IStream.get_inv hend))))))

theorem recordTexts_of_parse {fileBytes : Int} {n i : Nat} {s s' : IStream} {records : List Record}
    (hs : s.good = true) (h : parseRecords fileBytes n i s = .ok (s', records)) :
    ∃ texts, List.Forall₂ RecordText records texts ∧ s.Consumes texts.flatten s' := by
  induction n generalizing i s records with
  | zero =>
    cases h
    exact ⟨[], List.Forall₂.nil, IStream.eq_ready hs, IStream.eq_ready hs⟩
  | succ n ih =>
    obtain ⟨s₁, r, tail, hrec, hloop, rfl⟩ := IStream.times_succ.mp h
    obtain ⟨hs₁, t, ht, hc⟩ := recordText_of_parse hrec
    obtain ⟨texts, htexts, hcs⟩ := ih hs₁ hloop
    exact ⟨t :: texts, List.Forall₂.cons ht htexts, hc.trans hcs⟩

/-- If something is left after the count, the stream is good. -/
theorem parseCount_good {fileBytes : Int} {s s' : IStream} {n : Nat}
    (h : parseCount fileBytes s = .ok (s', n)) (hrest : s'.rest ≠ []) :
    s.good = true ∧ s'.good = true ∧ ∃ t b, LongField n t ∧ Decimal.isDigit b = false ∧
      s.Consumes (t ++ [b]) s' := by
  obtain ⟨s₁, count, s₂, b, here, hcount, hfail, hpos, hget, htell, -, rfl⟩ := parseCount_ok.mp h
  have hrest₂ : s'.rest = s₂.rest := by
    have := s₂.tellg_rest
    rwa [htell] at this
  have hne : s₁.rest ≠ [] := by
    intro hnil
    have := IStream.get_rest_nil hnil
    rw [hget] at this
    exact hrest (hrest₂.trans this)
  have hs₁ : s₁.good = true := by
    have hend := @IStream.readInt_end int64Min int64Max 0 s
    rw [show s.readInt int64Min int64Max 0 = (s₁, count) from hcount] at hend
    exact (hend hfail).resolve_right hne
  obtain ⟨t, ht, hc, c, rest, hstop, hc'⟩ := readLongLong_inv hcount hs₁
  have hready : s₁ = .ready s₁.pos (c :: rest) := by
    rw [← hstop]
    exact IStream.eq_ready hs₁
  rw [hready, IStream.get_ready] at hget
  cases hget
  rw [IStream.tellg_ready] at htell
  cases htell
  refine ⟨((readLongLong_local 0).eq hcount hs₁).1, rfl, t, c, ?_, hc', hc.trans ⟨?_, rfl⟩⟩
  · rwa [Int.toNat_of_nonneg hpos]
  · rw [IStream.rest_ready]
    exact hready

theorem headerText_of_parse {s s' : IStream} {savedAt : Int} (h : parseHeader s = .ok (s', savedAt))
    (hgood : s'.good = true) :
    Stops s'.rest ∧ ∃ space version saved, (∀ x ∈ space, IStream.isSpace x = true) ∧
      IsField int32Min int32Max kVersion version ∧
      (∃ c u, version = c :: u ∧ IStream.isSpace c = true) ∧ LongField savedAt saved ∧ Stops saved ∧
      s.Consumes (space ++ kMagic ++ (version ++ saved)) s' := by
  obtain ⟨s₁, s₂, hmagic, hversion, hsaved, -⟩ := parseHeader_ok.mp h
  obtain ⟨h2, -⟩ := (readLongLong_local 0).eq hsaved hgood
  obtain ⟨h1, -⟩ := (IStream.readInt_local _ _ _).eq hversion h2
  obtain ⟨space, hspace, hc₁, b, rest, hrest, hb⟩ := IStream.readWord_inv hmagic h1
  obtain ⟨version, hv, hc₂, c, rest', hrest', hc'⟩ := IStream.readInt_inv hversion h2
  obtain ⟨saved, hs, hc₃, hstops⟩ := readLongLong_inv hsaved hgood
  refine ⟨hstops, space, version, saved, hspace, hv, ?_, hs,
    stops_next ⟨c, rest', hrest', hc'⟩ hs hc₃, hc₁.trans (hc₂.trans hc₃)⟩
  have hnext : version ++ s₂.rest = b :: rest :=
    (congrArg IStream.rest hc₂.1).symm.trans hrest
  cases version with
  | nil => exact absurd (isField_ne_nil hv) (by decide)
  | cons x u =>
    cases hnext
    exact ⟨b, u, rfl, hb⟩

/-- What is accepted with bytes left over is a snapshot with these bytes after it. -/
theorem text_of_parse {file q : Bytes} (h : leftover file = some q) (hq : q ≠ []) :
    ∃ p g, SnapshotText p g ∧ file = g ++ q := by
  obtain ⟨s₀, s₁, s₂, p, hheader, hcount, hrecords, rfl⟩ := leftover_eq_some.mp h
  have hrest : s₁.rest ≠ [] := by
    cases hn : p.count with
    | zero =>
      rw [hn] at hrecords
      have hsame : s₁ = s₂ := congrArg Prod.fst (Except.ok.inj hrecords)
      rwa [hsame]
    | succ n =>
      rw [hn] at hrecords
      obtain ⟨_, _, _, hrec, -, -⟩ := IStream.times_succ.mp hrecords
      obtain ⟨-, t, ht, hc⟩ := recordText_of_parse hrec
      have hlen := length_recordText ht
      have hs₁ : s₁.rest = t ++ _ := congrArg IStream.rest hc.1
      rw [hs₁]
      exact List.append_ne_nil_of_left_ne_nil (List.ne_nil_of_length_pos (by omega)) _
  obtain ⟨hs₀, hs₁, count, b, hct, hb, hc₂⟩ := parseCount_good hcount hrest
  obtain ⟨hstops, space, version, saved, hspace, hv, hvs, hsaved, hss, hc₁⟩ :=
    headerText_of_parse hheader hs₀
  obtain ⟨texts, htexts, hc₃⟩ := recordTexts_of_parse hs₁ hrecords
  have hlen : p.records.length = p.count := IStream.length_times hrecords
  refine ⟨p, _, ⟨space, version, saved, count, b, texts, hspace, hv, hvs, hsaved, hss, hct, ?_, hb,
    hlen.symm, htexts, rfl⟩, ?_⟩
  · have hs₀' : s₀.rest = count ++ [b] ++ s₁.rest := congrArg IStream.rest hc₂.1
    rw [hs₀', List.append_assoc] at hstops
    exact stops_of_append hstops (isField_ne_nil hct)
  · have hfile : file = _ := congrArg IStream.rest (hc₁.trans (hc₂.trans hc₃)).1
    rw [hfile, IStream.rest_ready]
    simp only [List.append_assoc, List.cons_append, List.nil_append]

end TrailingLemmas

open TrailingLemmas

theorem leftover_of_parse {file : Bytes} {p : Parsed} (h : parseSnapshot file = .ok p) :
    ∃ q, leftover file = some q := by
  obtain ⟨s₀, s₁, s₂, hheader, hcount, hrecords⟩ := parseSnapshot_ok.mp h
  exact ⟨s₂.rest, leftover_eq_some.mpr ⟨s₀, s₁, s₂, p, hheader, hcount, hrecords, rfl⟩⟩

theorem parse_of_leftover {file q : Bytes} (h : leftover file = some q) :
    ∃ p, parseSnapshot file = .ok p := by
  obtain ⟨s₀, s₁, s₂, p, hheader, hcount, hrecords, -⟩ := leftover_eq_some.mp h
  exact ⟨p, parseSnapshot_ok.mpr ⟨s₀, s₁, s₂, hheader, hcount, hrecords⟩⟩

/-! ## A saved file with another count -/

/-- A saved file with another number in its count line. -/
def saveWithCount (savedAt : Millis) (count : Int) (entries : List EntrySnapshot) : Bytes :=
  kMagic ++ [space] ++ Decimal.ofInt kVersion ++ [space] ++ Decimal.ofInt savedAt ++ [newline]
    ++ Decimal.ofInt count ++ [newline] ++ entries.flatMap entryBytes

theorem saveWithCount_length (savedAt : Millis) (entries : List EntrySnapshot) :
    saveWithCount savedAt entries.length entries = saveBytes savedAt entries := rfl

namespace TrailingLemmas

theorem isField_ofInt {lo hi z : Int} (hlo : lo ≤ z) (hhi : z ≤ hi) {space : Bytes}
    (hspace : ∀ x ∈ space, IStream.isSpace x = true) :
    IsField lo hi z (space ++ Decimal.ofInt z) := by
  refine ⟨?_, hlo, hhi⟩
  cases z with
  | ofNat n =>
    exact ⟨space, [], Decimal.ofNat n, rfl, hspace, Or.inl rfl, Decimal.ofNat_ne_nil n,
      fun d hd => Decimal.isDigit_of_mem_ofNat hd, by
        rw [if_neg (by simp), Decimal.value_ofNat]
        rfl⟩
  | negSucc n =>
    exact ⟨space, [45], Decimal.ofNat (n + 1), rfl, hspace, Or.inr (Or.inr rfl),
      Decimal.ofNat_ne_nil _, fun d hd => Decimal.isDigit_of_mem_ofNat hd, by
        rw [if_pos rfl, Decimal.value_ofNat]
        rfl⟩

theorem longField_front {z : Int} (h : Fits z) : LongField z (Decimal.ofInt z) :=
  @isField_ofInt _ _ z h.1 h.2 [] fun _ hx => absurd hx List.not_mem_nil

theorem longField_after {z : Int} (h : Fits z) {w : UInt8} (hw : IStream.isSpace w = true) :
    LongField z (w :: Decimal.ofInt z) :=
  @isField_ofInt _ _ z h.1 h.2 [w] fun x hx => by rw [List.mem_singleton.mp hx]; exact hw

theorem recordText_entry {e : EntrySnapshot} (httl : Fits (ttlMs e))
    (hlen : ((entryBytes e).length : Int) ≤ int64Max) :
    RecordText ⟨e.key, e.value, ttlMs e⟩ (entryBytes e) := by
  have hle : e.key.length ≤ (entryBytes e).length ∧ e.value.length ≤ (entryBytes e).length := by
    simp only [entryBytes, List.length_append]
    omega
  have hk : Fits e.key.length := fits_length (by omega)
  have hv : Fits e.value.length := fits_length (by omega)
  refine ⟨Decimal.ofInt e.key.length, space :: Decimal.ofInt e.value.length,
    space :: Decimal.ofInt (ttlMs e), longField_front hk, longField_after hv isSpace_space,
    stops_cons isDigit_space _, longField_after httl isSpace_space, stops_cons isDigit_space _, ?_⟩
  simp only [entryBytes, Decimal.ofInt_natCast, List.append_assoc, List.cons_append,
    List.nil_append]

theorem recordTexts_entries {entries : List EntrySnapshot} (httl : ∀ e ∈ entries, Fits (ttlMs e))
    (hlen : ((entries.flatMap entryBytes).length : Int) ≤ int64Max) :
    List.Forall₂ RecordText (entries.map fun e => ⟨e.key, e.value, ttlMs e⟩)
      (entries.map entryBytes) := by
  induction entries with
  | nil => exact List.Forall₂.nil
  | cons e entries ih =>
    rw [List.flatMap_cons, List.length_append] at hlen
    exact List.Forall₂.cons (recordText_entry (httl e List.mem_cons_self) (by omega))
      (ih (fun x hx => httl x (List.mem_cons_of_mem _ hx)) (by omega))

/-- A saved file is a snapshot. -/
theorem snapshotText_saved {savedAt : Int} {entries : List EntrySnapshot} (hsaved : Fits savedAt)
    (httl : ∀ e ∈ entries, Fits (ttlMs e))
    (hsize : ((entries.flatMap entryBytes).length : Int) ≤ int64Max) :
    SnapshotText ⟨savedAt, entries.length, entries.map fun e => ⟨e.key, e.value, ttlMs e⟩⟩
      (saveBytes savedAt entries) := by
  have hcount : Fits entries.length := fits_length (by have := length_entries entries; omega)
  refine ⟨[], space :: Decimal.ofInt kVersion, space :: Decimal.ofInt savedAt,
    newline :: Decimal.ofInt entries.length, newline, entries.map entryBytes,
    fun _ hx => absurd hx List.not_mem_nil, ?_, ⟨space, _, rfl, isSpace_space⟩,
    longField_after hsaved isSpace_space, stops_cons isDigit_space _,
    longField_after hcount isSpace_newline, stops_cons isDigit_newline _, isDigit_newline, ?_,
    recordTexts_entries httl hsize, ?_⟩
  · exact @isField_ofInt _ _ kVersion (by decide) (by decide) [space]
      fun x hx => by rw [List.mem_singleton.mp hx]; exact isSpace_space
  · simp
  · simp only [saveBytes, headerBytes, Decimal.ofInt_natCast, List.append_assoc, List.cons_append,
      List.nil_append, List.flatMap_def]

/-- A smaller count leaves the records after it over. -/
theorem saveWithCount_take (savedAt : Millis) {m : Nat} {entries : List EntrySnapshot}
    (h : m ≤ entries.length) :
    saveWithCount savedAt m entries
      = saveBytes savedAt (entries.take m) ++ (entries.drop m).flatMap entryBytes := by
  have hlen : (entries.take m).length = m := List.length_take_of_le h
  have hsplit : entries.flatMap entryBytes
      = (entries.take m).flatMap entryBytes ++ (entries.drop m).flatMap entryBytes := by
    rw [← List.flatMap_append, List.take_append_drop]
  rw [← saveWithCount_length, saveWithCount, saveWithCount, hlen, hsplit, ← List.append_assoc]

/-- There is no record in an empty file. -/
theorem parseRecord_nil {fileBytes : Int} {i pos : Nat} {s : IStream} {r : Record} :
    parseRecord fileBytes i (.ready pos []) ≠ .ok (s, r) := by
  intro h
  obtain ⟨-, t, ht, hc⟩ := recordText_of_parse h
  have hlen := congrArg (fun s => s.rest.length) hc.1
  have ht' := length_recordText ht
  simp only [IStream.rest_ready, List.length_nil, List.length_append] at hlen
  omega

/-- All records have been read and there are more to read. -/
theorem parseRecords_more {fileBytes : Int} (hmax : fileBytes ≤ int64Max)
    {entries : List EntrySnapshot} (httl : ∀ e ∈ entries, Fits (ttlMs e))
    (hlen : ((entries.flatMap entryBytes).length : Int) ≤ fileBytes) {n i pos : Nat}
    (hn : entries.length < n) {s : IStream} {rs : List Record} :
    parseRecords fileBytes n i (.ready pos (entries.flatMap entryBytes)) ≠ .ok (s, rs) := by
  intro h
  obtain ⟨k, rfl⟩ := Nat.exists_eq_add_of_lt hn
  rw [Nat.add_assoc] at h
  obtain ⟨s', rs₁, rs₂, hfirst, hmore⟩ := IStream.times_add h
  have hall := parseRecords_entries hmax httl hlen i pos []
  rw [List.append_nil] at hall
  obtain ⟨rfl, -⟩ := Prod.mk.inj (Except.ok.inj (hfirst.symm.trans hall))
  obtain ⟨_, _, _, hrec, -, -⟩ := IStream.times_succ.mp hmore
  exact parseRecord_nil hrec

/-- A negative count and one that is too large are refused. -/
theorem saveWithCount_refused {savedAt : Int} {m : Int} {entries : List EntrySnapshot}
    (hsaved : Fits savedAt) (httl : ∀ e ∈ entries, Fits (ttlMs e))
    (hsize : ((saveWithCount savedAt m entries).length : Int) ≤ int64Max)
    (hm : m < 0 ∨ (entries.length : Int) < m) (p : Parsed) :
    parseSnapshot (saveWithCount savedAt m entries) ≠ .ok p := by
  intro h
  obtain ⟨s₀, s₁, s₂, hheader, hcount, hrecords⟩ := parseSnapshot_ok.mp h
  have hbytes : saveWithCount savedAt m entries = kMagic ++ space :: (Decimal.ofInt kVersion ++
      space :: (Decimal.ofInt savedAt ++ newline :: (Decimal.ofInt m ++ newline ::
        entries.flatMap entryBytes))) := by
    simp only [saveWithCount, List.append_assoc, List.cons_append, List.nil_append]
  have hheader' := parseHeader_saveBytes hsaved
    (Decimal.ofInt m ++ newline :: entries.flatMap entryBytes)
  rw [← hbytes, hheader] at hheader'
  obtain ⟨rfl, -⟩ := Prod.mk.inj (Except.ok.inj hheader')
  obtain ⟨t₁, count, t₂, b, here, hread, hfail, hpos, hget, htell, -, hn⟩ := parseCount_ok.mp hcount
  have hnumeral := @IStream.readInt_numeral int64Min int64Max m 0
    (18 + (Decimal.ofInt savedAt).length) [newline] (entries.flatMap entryBytes) newline
    (fun x hx => by rw [List.mem_singleton.mp hx]; exact isSpace_newline) isDigit_newline
  rw [List.append_assoc, List.singleton_append] at hnumeral
  have hstore := hread.symm.trans hnumeral
  unfold IStream.storeInt at hstore
  split at hstore
  · cases hstore
    cases hfail
  · split at hstore
    · cases hstore
      cases hfail
    · cases hstore
      rw [IStream.get_ready] at hget
      cases hget
      rw [IStream.tellg_ready] at htell
      cases htell
      have hlen : ((entries.flatMap entryBytes).length : Int)
          ≤ (saveWithCount savedAt m entries).length := by
        simp only [saveWithCount, List.length_append]
        omega
      exact parseRecords_more hsize httl hlen (by omega) hrecords

end TrailingLemmas

open TrailingLemmas

/-- **Read to the end.** Whatever the file is, an accepted load has left nothing of it unread
exactly when the file is not a snapshot with at least one more byte after it. A file that `save`
wrote, with the number `m` in its count line, is refused with the cache unchanged exactly when `m`
is negative or larger than the number of its records. -/
theorem trailing_iff (stdHash : Bytes → UInt64) {sc : ShardedCache} (hreach : Reachable stdHash sc)
    (wall : Millis) (clock : Nat → Time) :
    (∀ file, ∃ sc' res, load stdHash sc (some file) wall clock = some (sc', res) ∧
      ((res.ok = true → leftover file = some []) ↔
        ¬ ∃ p g q, SnapshotText p g ∧ q ≠ [] ∧ file = g ++ q)) ∧
    ∀ savedAt entries m, Fits savedAt → (∀ e ∈ entries, Fits (ttlMs e)) →
      ((saveWithCount savedAt m entries).length : Int) ≤ int64Max →
      ∃ sc' res,
        load stdHash sc (some (saveWithCount savedAt m entries)) wall clock = some (sc', res) ∧
        (res.ok = false ∧ sc' = sc ↔ m < 0 ∨ (entries.length : Int) < m) := by
  refine ⟨fun file => ?_, fun savedAt entries m hsaved httl hsize => ?_⟩
  · rcases load_cases hreach.wf file wall clock with
      ⟨e, herr, hload⟩ | ⟨p, sc', res, hparse, hload, hok, -⟩
    · refine ⟨sc, _, hload, iff_of_true (fun h => by cases h) ?_⟩
      rintro ⟨p, g, q, htext, -, rfl⟩
      obtain ⟨p', hp'⟩ := parse_of_leftover (parse_text htext q)
      rw [hp'] at herr
      cases herr
    · refine ⟨sc', res, hload, ?_⟩
      obtain ⟨q, hq⟩ := leftover_of_parse hparse
      constructor
      · rintro hnil ⟨p', g, q', htext, hne, rfl⟩
        have := (parse_text htext q').symm.trans (hnil hok)
        exact hne (Option.some.inj this)
      · intro hnone _
        rw [hq]
        by_contra hne
        have hq' : q ≠ [] := fun h => hne (by rw [h])
        obtain ⟨p', g, htext, hfile⟩ := text_of_parse hq hq'
        exact hnone ⟨p', g, q, htext, hq', hfile⟩
  · rcases load_cases hreach.wf (saveWithCount savedAt m entries) wall clock with
      ⟨e, herr, hload⟩ | ⟨p, sc', res, hparse, hload, hok, -⟩
    · refine ⟨sc, _, hload, iff_of_true ⟨rfl, rfl⟩ ?_⟩
      by_contra hm
      obtain ⟨j, rfl⟩ := Int.eq_ofNat_of_zero_le (show 0 ≤ m by omega)
      have htake := saveWithCount_take savedAt (show j ≤ entries.length by omega)
      have hsize' : (((entries.take j).flatMap entryBytes).length : Int) ≤ int64Max := by
        rw [htake] at hsize
        simp only [saveBytes, List.length_append] at hsize
        omega
      have htext := snapshotText_saved hsaved (fun e he => httl e (List.mem_of_mem_take he)) hsize'
      obtain ⟨p', hp'⟩ := parse_of_leftover (parse_text htext ((entries.drop j).flatMap entryBytes))
      rw [htake, hp'] at herr
      cases herr
    · refine ⟨sc', res, hload, iff_of_false (fun h => ?_) fun hm => ?_⟩
      · rw [hok] at h
        cases h.1
      · exact saveWithCount_refused hsaved httl hsize hm p hparse

def twoRecords : List EntrySnapshot :=
  [⟨[97], [98], none⟩, ⟨[99], [100], none⟩]

/-- With the count three in the place of two the file is refused. -/
theorem trailing_iff_three :
    ∃ sc' res, load (fun _ => 0) (.unbounded 1) (some (saveWithCount 0 3 twoRecords)) 0 (fun _ => 0)
        = some (sc', res) ∧ res.ok = false ∧ sc' = .unbounded 1 := by
  obtain ⟨-, hcount⟩ := trailing_iff (fun _ => 0) (.unbounded 1) 0 (fun _ => 0)
  obtain ⟨sc', res, hload, hiff⟩ := hcount 0 twoRecords 3 (by unfold Fits; decide)
    (by unfold Fits; decide) (by decide)
  exact ⟨sc', res, hload, hiff.mpr (Or.inr (by decide))⟩

/-- With the count one the load is a success, and the second record is neither loaded nor
counted. -/
theorem trailing_dropped :
    (load (fun _ => 0) (.unbounded 1) (some (saveWithCount 0 1 twoRecords)) 0 (fun _ => 0)).map
        (fun loaded => (loaded.1.size, loaded.2)) = some (1, ⟨true, 1, 0, []⟩) ∧
      leftover (saveWithCount 0 1 twoRecords) = some (entryBytes ⟨[99], [100], none⟩) := by
  decide

end CacheX
