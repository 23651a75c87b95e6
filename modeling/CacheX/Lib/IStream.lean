import CacheX.Lib.Decimal
import Mathlib.Data.List.TakeWhile

/-!
# Reading a byte sequence as `std::istream` does

The state of an input stream over a finite byte sequence and the operations of the C++ standard on
it: formatted extraction of a word and of an integer, `get`, `read` and `tellg`, in the classic
locale. End of file sets `eofbit`; an operation on a stream that is not good sets `failbit` and
extracts nothing.

Three groups of lemmas say how an operation behaves. On a good stream that starts with the expected
text it consumes exactly that text (`readWord_ready`, `readInt_ready`, `get_ready`, `read_ready`).
And it looks at no byte beyond what it consumes and the one that stops it: if the stream is still
good afterwards, the result is the same with more bytes at the end (`Local`). And what it consumed
is a text of the expected form (`readWord_inv`, `readInt_text`, `get_inv`, `read_inv`).
-/

namespace CacheX

open Decimal (isDigit)

/-- `rest` is what is still to be read and `pos` how much has been read. -/
structure IStream where
  rest : List UInt8
  pos : Nat
  eof : Bool
  fail : Bool
deriving DecidableEq, Repr

namespace IStream

/-- A good stream. -/
def ready (pos : Nat) (rest : List UInt8) : IStream := ⟨rest, pos, false, false⟩

/-- A stream at the start of a byte sequence. -/
def ofBytes (bytes : List UInt8) : IStream := ready 0 bytes

def good (s : IStream) : Bool := !s.eof && !s.fail

def setFail (s : IStream) : IStream := { s with fail := true }

def advance (s : IStream) (n : Nat) : IStream :=
  { s with rest := s.rest.drop n, pos := s.pos + n }

/-- `eofbit` is set when an extraction is stopped by the end of the sequence. -/
def noteEnd (s : IStream) : IStream := if s.rest = [] then { s with eof := true } else s

/-- `std::isspace` in the classic locale. -/
def isSpace (b : UInt8) : Bool := b == 32 || (decide (9 ≤ b.toNat) && decide (b.toNat ≤ 13))

/-- The sentry of an unformatted operation, which goes ahead if the stream is good after it. -/
def guarded (s : IStream) : IStream := if s.good then s else s.setFail

/-- The sentry of a formatted extraction: it skips white space. -/
def sentry (s : IStream) : IStream :=
  if s.good then
    let s := s.advance (s.rest.takeWhile isSpace).length
    if s.rest = [] then { s with eof := true, fail := true } else s
  else s.setFail

/-- `in >> word` for a `std::string` that holds `old`. -/
def readWord (s : IStream) (old : List UInt8) : IStream × List UInt8 :=
  let s := s.sentry
  if s.good then
    let word := s.rest.takeWhile fun b => !isSpace b
    ((s.advance word.length).noteEnd, word)
  else (s, old)

/-- The sign at the front of a numeral. -/
def sign : List UInt8 → List UInt8
  | [] => []
  | b :: _ => if b = 43 ∨ b = 45 then [b] else []

/-- What is stored for the number `v`: the nearest bound, with `failbit`, if it is out of range. -/
def storeInt (lo hi v : Int) (s : IStream) : IStream × Int :=
  if v < lo then (s.setFail, lo) else if hi < v then (s.setFail, hi) else (s, v)

/-- `in >> n` for an integer type with the range `lo` to `hi`, where `n` holds `old`. -/
def readInt (lo hi : Int) (s : IStream) (old : Int) : IStream × Int :=
  let s := s.sentry
  if s.good then
    let sg := sign s.rest
    let ds := (s.rest.drop sg.length).takeWhile isDigit
    let s := (s.advance (sg.length + ds.length)).noteEnd
    if ds = [] then (s.setFail, 0)
    else storeInt lo hi (if sg = [45] then -(Decimal.value ds : Int) else Decimal.value ds) s
  else (s, old)

/-- `in.get()`; `none` is `EOF`. -/
def get (s : IStream) : IStream × Option UInt8 :=
  let s := s.guarded
  if s.good then
    match s.rest with
    | [] => ({ s with eof := true, fail := true }, none)
    | b :: _ => (s.advance 1, some b)
  else (s, none)

/-- `in.read(p, n)`: the bytes extracted, `in.gcount()` many. -/
def read (s : IStream) (n : Nat) : IStream × List UInt8 :=
  let s := s.guarded
  if s.good then
    if n ≤ s.rest.length then (s.advance n, s.rest.take n)
    else ({ s.advance s.rest.length with eof := true, fail := true }, s.rest)
  else (s, [])

/-- `in.tellg()`. -/
def tellg (s : IStream) : IStream × Int :=
  let s := s.guarded
  if s.good then (s, s.pos) else (s, -1)

section Times

variable {ε α : Type}

/-- A counted loop of a parser, which stops at the first error: `n` items to go, `i` the index of
the next one. -/
def times (item : Nat → IStream → Except ε (IStream × α)) :
    Nat → Nat → IStream → Except ε (IStream × List α)
  | 0, _, s => .ok (s, [])
  | n + 1, i, s =>
    match item i s with
    | .error e => .error e
    | .ok (s, a) =>
      match times item n (i + 1) s with
      | .error e => .error e
      | .ok (s, as) => .ok (s, a :: as)

theorem times_succ {item : Nat → IStream → Except ε (IStream × α)} {n i : Nat} {s s' : IStream}
    {as : List α} :
    times item (n + 1) i s = .ok (s', as) ↔
      ∃ s₁ a tail, item i s = .ok (s₁, a) ∧ times item n (i + 1) s₁ = .ok (s', tail) ∧
        as = a :: tail := by
  rw [times]
  constructor
  · intro h
    split at h
    · cases h
    · next s₁ a ha =>
      split at h
      · cases h
      · next s₂ tail ht =>
        cases h
        exact ⟨s₁, a, tail, ha, ht, rfl⟩
  · rintro ⟨s₁, a, tail, ha, ht, rfl⟩
    rw [ha]
    dsimp only
    rw [ht]

/-- A loop of `m + n` rounds is one of `m` rounds and one of `n`. -/
theorem times_add {item : Nat → IStream → Except ε (IStream × α)} {m n i : Nat} {s s' : IStream}
    {as : List α} (h : times item (m + n) i s = .ok (s', as)) :
    ∃ s₁ bs cs, times item m i s = .ok (s₁, bs) ∧ times item n (i + m) s₁ = .ok (s', cs) := by
  induction m generalizing i s as with
  | zero =>
    rw [Nat.zero_add] at h
    exact ⟨s, [], as, rfl, h⟩
  | succ m ih =>
    rw [Nat.succ_add] at h
    obtain ⟨s₂, a, tail, ha, htail, rfl⟩ := times_succ.mp h
    obtain ⟨s₁, bs, cs, hbs, hcs⟩ := ih htail
    refine ⟨s₁, a :: bs, cs, times_succ.mpr ⟨s₂, a, bs, ha, hbs, rfl⟩, ?_⟩
    rwa [Nat.add_assoc, Nat.add_comm 1] at hcs

theorem length_times {item : Nat → IStream → Except ε (IStream × α)} {n i : Nat} {s s' : IStream}
    {as : List α} (h : times item n i s = .ok (s', as)) : as.length = n := by
  induction n generalizing i s as with
  | zero =>
    cases h
    rfl
  | succ n ih =>
    obtain ⟨s₁, a, tail, -, htail, rfl⟩ := times_succ.mp h
    rw [List.length_cons, ih htail]

theorem times_forall {item : Nat → IStream → Except ε (IStream × α)} {P : α → Prop}
    (hitem : ∀ i s s' a, item i s = .ok (s', a) → P a) {n i : Nat} {s s' : IStream} {as : List α}
    (h : times item n i s = .ok (s', as)) : ∀ a ∈ as, P a := by
  induction n generalizing i s as with
  | zero =>
    cases h
    exact fun a ha => absurd ha List.not_mem_nil
  | succ n ih =>
    obtain ⟨s₁, b, tail, hb, htail, rfl⟩ := times_succ.mp h
    intro a ha
    rcases List.mem_cons.mp ha with rfl | ha
    · exact hitem _ _ _ _ hb
    · exact ih htail a ha

/-- The loop with a log of each round, the one with the error included. -/
def timesLog {log : Type} (item : Nat → IStream → Except ε (IStream × α) × log) :
    Nat → Nat → IStream → Except ε (IStream × List α) × List log
  | 0, _, s => (.ok (s, []), [])
  | n + 1, i, s =>
    match item i s with
    | (.error e, l) => (.error e, [l])
    | (.ok (s, a), l) =>
      let later := timesLog item n (i + 1) s
      (later.1.map fun p => (p.1, a :: p.2), l :: later.2)

theorem timesLog_forget {log : Type} {item : Nat → IStream → Except ε (IStream × α)}
    {itemLog : Nat → IStream → Except ε (IStream × α) × log}
    (hitem : ∀ i s, (itemLog i s).1 = item i s) (n i : Nat) (s : IStream) :
    (timesLog itemLog n i s).1 = times item n i s := by
  induction n generalizing i s with
  | zero => rfl
  | succ n ih =>
    rw [timesLog, times, ← hitem]
    obtain ⟨_ | ⟨s₁, a⟩, l⟩ := itemLog i s
    · rfl
    · dsimp only
      rw [ih]
      cases times item n (i + 1) s₁ with
      | error e => rfl
      | ok p => rfl

end Times

/-! ## Good streams -/

@[simp] theorem good_ready (pos : Nat) (rest : List UInt8) : (ready pos rest).good = true := rfl

@[simp] theorem rest_ready (pos : Nat) (rest : List UInt8) : (ready pos rest).rest = rest := rfl

@[simp] theorem fail_ready (pos : Nat) (rest : List UInt8) : (ready pos rest).fail = false := rfl

@[simp] theorem good_setFail (s : IStream) : s.setFail.good = false := by simp [good, setFail]

theorem eq_ready {s : IStream} (h : s.good = true) : s = ready s.pos s.rest := by
  obtain ⟨rest, pos, eof, fail⟩ := s
  simp only [good, Bool.and_eq_true, Bool.not_eq_true'] at h
  obtain ⟨rfl, rfl⟩ := h
  rfl

theorem advance_ready {pos n : Nat} {word rest : List UInt8} (h : word.length = n) :
    (ready pos (word ++ rest)).advance n = ready (pos + n) rest := by
  subst h
  simp [ready, advance]

theorem noteEnd_ready {pos : Nat} {b : UInt8} {rest : List UInt8} :
    (ready pos (b :: rest)).noteEnd = ready pos (b :: rest) := rfl

theorem takeWhile_stop {p : UInt8 → Bool} {word rest : List UInt8} {b : UInt8}
    (hw : ∀ x ∈ word, p x = true) (hb : p b = false) :
    (word ++ b :: rest).takeWhile p = word := by
  rw [List.takeWhile_append_of_pos hw, List.takeWhile_cons, hb]
  simp

theorem sentry_ready {pos : Nat} {space rest : List UInt8} {b : UInt8}
    (hs : ∀ x ∈ space, isSpace x = true) (hb : isSpace b = false) :
    (ready pos (space ++ b :: rest)).sentry = ready (pos + space.length) (b :: rest) := by
  unfold sentry
  rw [if_pos (good_ready _ _), rest_ready, takeWhile_stop hs hb, advance_ready rfl]
  exact if_neg (List.cons_ne_nil _ _)

theorem sentry_good {s : IStream} (h : s.sentry.good = true) : s.good = true := by
  unfold sentry at h
  split at h
  · assumption
  · rw [good_setFail] at h
    cases h

/-! ## Reading back what was written -/

theorem isSpace_digit {b : UInt8} (h : isDigit b = true) : isSpace b = false := by
  simp only [isDigit, Bool.and_eq_true, decide_eq_true_eq] at h
  have h32 : b ≠ 32 := by
    rintro rfl
    exact absurd h.1 (by decide)
  simp only [isSpace, Bool.or_eq_false_iff, beq_eq_false_iff_ne, Bool.and_eq_false_iff,
    decide_eq_false_iff_not]
  exact ⟨h32, Or.inr (by omega)⟩

theorem sign_digit {b : UInt8} (h : isDigit b = true) (rest : List UInt8) :
    sign (b :: rest) = [] := by
  simp only [isDigit, Bool.and_eq_true, decide_eq_true_eq] at h
  refine if_neg ?_
  rintro (rfl | rfl)
  · exact absurd h.1 (by decide)
  · exact absurd h.1 (by decide)

/-- A word begins after white space and ends at the next. -/
theorem readWord_skip {pos : Nat} {space word rest old : List UInt8} {b : UInt8}
    (hspace : ∀ x ∈ space, isSpace x = true) (hne : word ≠ [])
    (hw : ∀ x ∈ word, isSpace x = false) (hb : isSpace b = true) :
    (ready pos (space ++ (word ++ b :: rest))).readWord old
      = (ready (pos + space.length + word.length) (b :: rest), word) := by
  obtain ⟨c, cs, rfl⟩ := List.exists_cons_of_ne_nil hne
  have hsen : (ready pos (space ++ (c :: cs ++ b :: rest))).sentry
      = ready (pos + space.length) (c :: cs ++ b :: rest) :=
    sentry_ready hspace (hw c List.mem_cons_self)
  have htake : (c :: cs ++ b :: rest).takeWhile (fun x => !isSpace x) = c :: cs :=
    takeWhile_stop (fun x hx => by rw [hw x hx]; rfl) (by rw [hb]; rfl)
  unfold readWord
  simp only [hsen, good_ready, if_true, rest_ready, htake]
  rw [advance_ready rfl, noteEnd_ready]

theorem readWord_ready {pos : Nat} {word rest old : List UInt8} {b : UInt8} (hne : word ≠ [])
    (hw : ∀ x ∈ word, isSpace x = false) (hb : isSpace b = true) :
    (ready pos (word ++ b :: rest)).readWord old
      = (ready (pos + word.length) (b :: rest), word) :=
  @readWord_skip pos [] word rest old b (fun _ h => absurd h List.not_mem_nil) hne hw hb

/-- Extraction of an integer from a sign, digits and what stops them. -/
theorem readInt_parts {lo hi old : Int} {s : IStream} {pos : Nat} {sg ds rest : List UInt8}
    (hsen : s.sentry = ready pos (sg ++ ds ++ rest)) (hsg : sign (sg ++ ds ++ rest) = sg)
    (hne : ds ≠ []) (hds : ∀ d ∈ ds, isDigit d = true) (hrest : rest.takeWhile isDigit = []) :
    s.readInt lo hi old
      = storeInt lo hi (if sg = [45] then -(Decimal.value ds : Int) else Decimal.value ds)
          (ready (pos + (sg.length + ds.length)) rest).noteEnd := by
  have htake : ((sg ++ ds ++ rest).drop sg.length).takeWhile isDigit = ds := by
    rw [List.append_assoc, List.drop_left' rfl, List.takeWhile_append_of_pos hds, hrest,
      List.append_nil]
  unfold readInt
  simp only [hsen, good_ready, if_true, rest_ready, hsg, htake]
  rw [if_neg hne, advance_ready List.length_append]

theorem storeInt_range {lo hi : Int} (h : lo ≤ hi) (v : Int) (s : IStream) :
    lo ≤ (storeInt lo hi v s).2 ∧ (storeInt lo hi v s).2 ≤ hi := by
  unfold storeInt
  split
  · exact ⟨Int.le_refl _, h⟩
  · split
    · exact ⟨h, Int.le_refl _⟩
    · exact ⟨Int.not_lt.mp ‹_›, Int.not_lt.mp ‹_›⟩

/-- Whatever is read, the variable holds a value of its type. -/
theorem readInt_range {lo hi old : Int} (h0 : lo ≤ 0 ∧ 0 ≤ hi) (hold : lo ≤ old ∧ old ≤ hi)
    (s : IStream) : lo ≤ (s.readInt lo hi old).2 ∧ (s.readInt lo hi old).2 ≤ hi := by
  unfold readInt
  dsimp only
  split
  · split
    · exact h0
    · exact storeInt_range (Int.le_trans h0.1 h0.2) _ _
  · exact hold

/-- A numeral is read as the number it was written for, if that is in the range. -/
theorem readInt_numeral (lo hi z old : Int) {pos : Nat} {space rest : List UInt8} {b : UInt8}
    (hs : ∀ x ∈ space, isSpace x = true) (hb : isDigit b = false) :
    (ready pos (space ++ Decimal.ofInt z ++ b :: rest)).readInt lo hi old
      = storeInt lo hi z (ready (pos + space.length + (Decimal.ofInt z).length) (b :: rest)) := by
  have hstop : (b :: rest).takeWhile isDigit = [] := by
    rw [List.takeWhile_cons, hb]
    simp
  have hdig : ∀ n, ∀ d ∈ Decimal.ofNat n, isDigit d = true :=
    fun n d h => Decimal.isDigit_of_mem_ofNat h
  rw [List.append_assoc]
  cases z with
  | ofNat n =>
    obtain ⟨d, ds, hn⟩ := List.exists_cons_of_ne_nil (Decimal.ofNat_ne_nil n)
    have hd : isDigit d = true := hdig n d (by rw [hn]; exact List.mem_cons_self)
    have hsen : (ready pos (space ++ (Decimal.ofNat n ++ b :: rest))).sentry
        = ready (pos + space.length) ([] ++ Decimal.ofNat n ++ b :: rest) := by
      rw [hn]
      exact sentry_ready hs (isSpace_digit hd)
    have hsg : sign ([] ++ Decimal.ofNat n ++ b :: rest) = [] := by
      rw [hn]
      exact sign_digit hd _
    refine (readInt_parts hsen hsg (Decimal.ofNat_ne_nil n) (hdig n) hstop).trans ?_
    rw [if_neg (by simp), Decimal.value_ofNat, noteEnd_ready, List.length_nil, Nat.zero_add]
    rfl
  | negSucc n =>
    have hsen : (ready pos (space ++ (45 :: Decimal.ofNat (n + 1) ++ b :: rest))).sentry
        = ready (pos + space.length) ([45] ++ Decimal.ofNat (n + 1) ++ b :: rest) :=
      sentry_ready hs (by decide)
    refine (readInt_parts hsen rfl (Decimal.ofNat_ne_nil _) (hdig _) hstop).trans ?_
    rw [if_pos rfl, Decimal.value_ofNat, noteEnd_ready, List.length_singleton, Nat.add_comm 1]
    rfl

theorem readInt_ready {lo hi z old : Int} (hlo : lo ≤ z) (hhi : z ≤ hi) {pos : Nat}
    {space rest : List UInt8} {b : UInt8} (hs : ∀ x ∈ space, isSpace x = true)
    (hb : isDigit b = false) :
    (ready pos (space ++ Decimal.ofInt z ++ b :: rest)).readInt lo hi old
      = (ready (pos + space.length + (Decimal.ofInt z).length) (b :: rest), z) := by
  rw [readInt_numeral lo hi z old hs hb, storeInt, if_neg (by omega), if_neg (by omega)]

theorem readInt_front {lo hi z old : Int} (hlo : lo ≤ z) (hhi : z ≤ hi) {pos : Nat}
    {rest : List UInt8} {b : UInt8} (hb : isDigit b = false) :
    (ready pos (Decimal.ofInt z ++ b :: rest)).readInt lo hi old
      = (ready (pos + (Decimal.ofInt z).length) (b :: rest), z) :=
  @readInt_ready lo hi z old hlo hhi pos [] rest b (fun _ h => absurd h List.not_mem_nil) hb

theorem readInt_after {lo hi z old : Int} (hlo : lo ≤ z) (hhi : z ≤ hi) {pos : Nat}
    {rest : List UInt8} {w b : UInt8} (hw : isSpace w = true) (hb : isDigit b = false) :
    (ready pos (w :: (Decimal.ofInt z ++ b :: rest))).readInt lo hi old
      = (ready (pos + 1 + (Decimal.ofInt z).length) (b :: rest), z) :=
  @readInt_ready lo hi z old hlo hhi pos [w] rest b
    (fun x h => by rw [List.mem_singleton.mp h]; exact hw) hb

theorem get_ready (pos : Nat) (b : UInt8) (rest : List UInt8) :
    (ready pos (b :: rest)).get = (ready (pos + 1) rest, some b) := rfl

theorem read_ready (pos : Nat) (bytes rest : List UInt8) :
    (ready pos (bytes ++ rest)).read bytes.length
      = (ready (pos + bytes.length) rest, bytes) := by
  unfold read guarded
  simp only [good_ready, if_true, rest_ready, List.length_append]
  rw [if_pos (Nat.le_add_right _ _), advance_ready rfl, List.take_left' rfl]

theorem tellg_ready (pos : Nat) (rest : List UInt8) :
    (ready pos rest).tellg = (ready pos rest, (pos : Int)) := rfl

/-! ## More bytes at the end -/

/-- The stream with `q` after what it has. -/
def extend (s : IStream) (q : List UInt8) : IStream := { s with rest := s.rest ++ q }

/-- Of a good result, the input was good, and more bytes at the end of the input are more bytes at
the end of the result. -/
def Local {α : Type} (op : IStream → IStream × α) : Prop :=
  ∀ s, (op s).1.good = true →
    s.good = true ∧ ∀ q, op (s.extend q) = ((op s).1.extend q, (op s).2)

theorem Local.eq {α : Type} {op : IStream → IStream × α} (hop : Local op) {s s' : IStream} {a : α}
    (h : op s = (s', a)) (hgood : s'.good = true) :
    s.good = true ∧ ∀ q, op (s.extend q) = (s'.extend q, a) := by
  have hlocal := hop s
  rw [h] at hlocal
  exact hlocal hgood

theorem good_extend (s : IStream) (q : List UInt8) : (s.extend q).good = s.good := rfl

theorem advance_extend {s : IStream} {n : Nat} (h : n ≤ s.rest.length) (q : List UInt8) :
    (s.extend q).advance n = (s.advance n).extend q := by
  simp only [extend, advance, List.drop_append_of_le_length h]

theorem guarded_bad {s : IStream} (h : ¬ s.good = true) : s.guarded.good = false := by
  rw [guarded, if_neg h, good_setFail]

/-- An extraction after which the stream is good was stopped by a byte. -/
theorem noteEnd_good {s : IStream} {n : Nat} (h : (s.advance n).noteEnd.good = true) :
    n < s.rest.length ∧ s.good = true ∧
      ∀ q, ((s.extend q).advance n).noteEnd = (s.advance n).noteEnd.extend q := by
  unfold noteEnd at h
  split at h
  · simp [good] at h
  · next hne =>
    have hlt : n < s.rest.length := by
      by_contra hle
      exact hne (List.drop_eq_nil_of_le (Nat.not_lt.mp hle))
    refine ⟨hlt, h, fun q => ?_⟩
    rw [advance_extend hlt.le, noteEnd, noteEnd, if_neg hne]
    exact if_neg fun hnil => hne (List.append_eq_nil_iff.mp hnil).1

theorem takeWhile_extend {p : UInt8 → Bool} {l : List UInt8} (h : (l.takeWhile p).length < l.length)
    (q : List UInt8) : (l ++ q).takeWhile p = l.takeWhile p := by
  rw [List.takeWhile_append, if_neg (Nat.ne_of_lt h)]

theorem sentry_local {s : IStream} (h : s.sentry.good = true) :
    s.good = true ∧ ∀ q, (s.extend q).sentry = s.sentry.extend q := by
  have hs := sentry_good h
  refine ⟨hs, fun q => ?_⟩
  unfold sentry at h ⊢
  rw [if_pos hs] at h ⊢
  rw [if_pos ((good_extend s q).trans hs)]
  dsimp only at h ⊢
  split at h
  · simp [good] at h
  · next hne =>
    have hlt : (s.rest.takeWhile isSpace).length < s.rest.length := by
      by_contra hle
      exact hne (List.drop_eq_nil_of_le (Nat.not_lt.mp hle))
    have hrest : (s.extend q).rest.takeWhile isSpace = s.rest.takeWhile isSpace :=
      takeWhile_extend hlt q
    rw [hrest, advance_extend hlt.le, if_neg hne]
    exact if_neg fun hnil => hne (List.append_eq_nil_iff.mp hnil).1

theorem readWord_local (old : List UInt8) : Local fun s => s.readWord old := by
  intro s h
  have hsen : s.sentry.good = true := by
    by_contra hbad
    simp only [readWord, if_neg hbad] at h
    exact hbad h
  obtain ⟨hs, hext⟩ := sentry_local hsen
  refine ⟨hs, fun q => ?_⟩
  simp only [readWord, if_pos hsen] at h
  obtain ⟨hlt, -, hend⟩ := noteEnd_good h
  have hword : (s.sentry.extend q).rest.takeWhile (fun b => !isSpace b)
      = s.sentry.rest.takeWhile fun b => !isSpace b := takeWhile_extend hlt q
  simp only [readWord, hext, good_extend, if_pos hsen, hword, hend]

theorem storeInt_good {lo hi v : Int} {s : IStream} (h : (storeInt lo hi v s).1.good = true) :
    s.good = true ∧ ∀ s', storeInt lo hi v s' = (s', v) := by
  unfold storeInt at h
  split at h
  · rw [good_setFail] at h
    cases h
  · next hlo =>
    split at h
    · rw [good_setFail] at h
      cases h
    · next hhi => exact ⟨h, fun s' => by rw [storeInt, if_neg hlo, if_neg hhi]⟩

theorem storeInt_inv {lo hi v : Int} {s : IStream} (h : (storeInt lo hi v s).1.fail = false) :
    storeInt lo hi v s = (s, v) ∧ lo ≤ v ∧ v ≤ hi := by
  by_cases hlo : v < lo
  · rw [storeInt, if_pos hlo] at h
    cases h
  · by_cases hhi : hi < v
    · rw [storeInt, if_neg hlo, if_pos hhi] at h
      cases h
    · exact ⟨by rw [storeInt, if_neg hlo, if_neg hhi], Int.not_lt.mp hlo, Int.not_lt.mp hhi⟩

theorem sign_append {l : List UInt8} (h : l ≠ []) (q : List UInt8) : sign (l ++ q) = sign l := by
  obtain ⟨b, l, rfl⟩ := List.exists_cons_of_ne_nil h
  rfl

theorem readInt_local (lo hi old : Int) : Local fun s => s.readInt lo hi old := by
  intro s h
  have hsen : s.sentry.good = true := by
    by_contra hbad
    simp only [readInt, if_neg hbad] at h
    exact hbad h
  obtain ⟨hs, hext⟩ := sentry_local hsen
  refine ⟨hs, fun q => ?_⟩
  have hds : ((s.sentry.rest.drop (sign s.sentry.rest).length).takeWhile isDigit) ≠ [] := by
    intro hnil
    simp only [readInt, if_pos hsen, hnil, if_true, good_setFail] at h
    cases h
  simp only [readInt, if_pos hsen, if_neg hds] at h
  obtain ⟨hgood, hstore⟩ := storeInt_good h
  obtain ⟨hlt, -, hend⟩ := noteEnd_good hgood
  have hne : s.sentry.rest ≠ [] := by
    intro hnil
    rw [hnil] at hlt
    cases hlt
  have hsign : sign (s.sentry.extend q).rest = sign s.sentry.rest := sign_append hne q
  have hdrop : ((s.sentry.extend q).rest.drop (sign s.sentry.rest).length).takeWhile isDigit
      = (s.sentry.rest.drop (sign s.sentry.rest).length).takeWhile isDigit := by
    show ((s.sentry.rest ++ q).drop _).takeWhile isDigit = _
    rw [List.drop_append_of_le_length (by omega)]
    refine takeWhile_extend ?_ q
    rw [List.length_drop]
    omega
  simp only [readInt, hext, good_extend, if_pos hsen, hsign, hdrop, if_neg hds, hend, hstore]

theorem get_local : Local get := by
  intro s h
  have hs : s.good = true := by
    by_contra hbad
    simp only [get, guarded_bad hbad, Bool.false_eq_true, if_false] at h
  refine ⟨hs, fun q => ?_⟩
  rw [eq_ready hs] at h ⊢
  cases hrest : s.rest with
  | nil =>
    rw [hrest] at h
    cases h
  | cons b rest => rfl

/-- A byte that `get` gives is the next one of a good stream. -/
theorem get_eq_some {s s' : IStream} {b : UInt8} (h : s.get = (s', some b)) :
    ∃ pos rest, s = ready pos (b :: rest) ∧ s' = ready (pos + 1) rest := by
  by_cases hs : s.good = true
  · rw [eq_ready hs] at h ⊢
    cases hrest : s.rest with
    | nil =>
      rw [hrest] at h
      cases h
    | cons c rest =>
      rw [hrest, get_ready] at h
      cases h
      exact ⟨s.pos, rest, rfl, rfl⟩
  · simp only [get, guarded_bad hs, Bool.false_eq_true, if_false] at h
    cases h

/-- Only a stream that stays good gives a byte. -/
theorem get_some {s s' : IStream} {b : UInt8} (h : s.get = (s', some b)) : s'.good = true := by
  obtain ⟨pos, rest, -, rfl⟩ := get_eq_some h
  exact good_ready _ _

theorem read_local (n : Nat) : Local fun s => s.read n := by
  intro s h
  have hs : s.good = true := by
    by_contra hbad
    simp only [read, guarded_bad hbad, Bool.false_eq_true, if_false] at h
  refine ⟨hs, fun q => ?_⟩
  have hguard : s.guarded = s := if_pos hs
  have hguard' : (s.extend q).guarded = s.extend q := if_pos hs
  have hle : n ≤ s.rest.length := by
    by_contra hlt
    simp only [read, hguard, if_pos hs, if_neg hlt] at h
    simp [good] at h
  have hle' : n ≤ (s.extend q).rest.length := by
    simp only [extend, List.length_append]
    omega
  simp only [read, hguard, hguard', good_extend, if_pos hs, if_pos hle, if_pos hle',
    advance_extend hle]
  simp only [extend, List.take_append_of_le_length hle]

theorem tellg_local : Local tellg := by
  intro s h
  have hs : s.good = true := by
    by_contra hbad
    simp only [tellg, guarded_bad hbad, Bool.false_eq_true, if_false] at h
  refine ⟨hs, fun q => ?_⟩
  rw [eq_ready hs]
  rfl

/-! ## What an extraction consumes -/

/-- The text of an integer, after white space, with a sign or without. -/
structure IsField (lo hi z : Int) (t : List UInt8) : Prop where
  parts : ∃ space sg ds, t = space ++ (sg ++ ds) ∧ (∀ x ∈ space, isSpace x = true) ∧
    (sg = [] ∨ sg = [43] ∨ sg = [45]) ∧ ds ≠ [] ∧ (∀ d ∈ ds, isDigit d = true) ∧
    z = if sg = [45] then -(Decimal.value ds : Int) else Decimal.value ds
  lo_le : lo ≤ z
  le_hi : z ≤ hi

/-- Reading `t` takes the good stream `s` to the good stream `s'`. -/
def Consumes (s : IStream) (t : List UInt8) (s' : IStream) : Prop :=
  s = ready s.pos (t ++ s'.rest) ∧ s' = ready (s.pos + t.length) s'.rest

theorem Consumes.trans {s s₁ s₂ : IStream} {t u : List UInt8} (h : s.Consumes t s₁)
    (h' : s₁.Consumes u s₂) : s.Consumes (t ++ u) s₂ := by
  have hrest : s₁.rest = u ++ s₂.rest := congrArg IStream.rest h'.1
  have hpos : s₁.pos = s.pos + t.length := congrArg IStream.pos h.2
  refine ⟨?_, ?_⟩
  · rw [List.append_assoc, ← hrest]
    exact h.1
  · rw [List.length_append, ← Nat.add_assoc, ← hpos]
    exact h'.2

/-- A list whose beginning with `p` is not all of it. -/
theorem takeWhile_split {p : UInt8 → Bool} {l : List UInt8}
    (h : (l.takeWhile p).length < l.length) :
    ∃ b rest, l = l.takeWhile p ++ b :: rest ∧ p b = false := by
  have happ : l.takeWhile p ++ l.dropWhile p = l := List.takeWhile_append_dropWhile
  cases hd : l.dropWhile p with
  | nil =>
    rw [hd, List.append_nil] at happ
    rw [happ] at h
    exact absurd h (Nat.lt_irrefl _)
  | cons b rest =>
    refine ⟨b, rest, by rw [← hd, happ], ?_⟩
    have hb := List.head?_dropWhile_not p l
    rw [hd, List.head?_cons] at hb
    simpa using hb

/-- White space is skipped and something else is next. -/
theorem sentry_inv {s : IStream} (h : s.sentry.good = true) :
    ∃ space b rest, s = ready s.pos (space ++ b :: rest) ∧ (∀ x ∈ space, isSpace x = true) ∧
      isSpace b = false ∧ s.sentry = ready (s.pos + space.length) (b :: rest) := by
  have hs := sentry_good h
  have hlt : (s.rest.takeWhile isSpace).length < s.rest.length := by
    by_contra hle
    have hnil : s.rest.drop (s.rest.takeWhile isSpace).length = [] :=
      List.drop_eq_nil_of_le (Nat.not_lt.mp hle)
    unfold sentry at h
    rw [if_pos hs] at h
    simp [advance, hnil, good] at h
  obtain ⟨b, rest, hrest, hb⟩ := takeWhile_split hlt
  have hspace : ∀ x ∈ s.rest.takeWhile isSpace, isSpace x = true := fun x hx =>
    List.mem_takeWhile_imp hx
  have heq : s = ready s.pos (s.rest.takeWhile isSpace ++ b :: rest) := by
    rw [← hrest]
    exact eq_ready hs
  refine ⟨_, b, rest, heq, hspace, hb, ?_⟩
  have hsen := @sentry_ready s.pos _ rest b hspace hb
  rw [← heq] at hsen
  exact hsen

theorem sign_cases (l : List UInt8) : sign l = [] ∨ sign l = [43] ∨ sign l = [45] := by
  cases l with
  | nil => exact Or.inl rfl
  | cons b l =>
    by_cases h : b = 43 ∨ b = 45
    · rw [sign, if_pos h]
      rcases h with rfl | rfl
      · exact Or.inr (Or.inl rfl)
      · exact Or.inr (Or.inr rfl)
    · exact Or.inl (if_neg h)

theorem sign_append_drop (l : List UInt8) : sign l ++ l.drop (sign l).length = l := by
  cases l with
  | nil => rfl
  | cons b l =>
    by_cases h : b = 43 ∨ b = 45
    · rw [sign, if_pos h]
      rfl
    · rw [sign, if_neg h]
      rfl

theorem sentry_fails {s : IStream} (h : ¬ s.sentry.good = true) : s.sentry.fail = true := by
  unfold sentry at h ⊢
  dsimp only at h ⊢
  split at h
  · next hs =>
    rw [if_pos hs]
    split at h
    · next hnil => rw [if_pos hnil]
    · exact absurd hs h
  · next hs =>
    rw [if_neg hs]
    rfl

/-- What comes after a numeral. -/
def Stopped (rest : List UInt8) : Prop := rest.takeWhile isDigit = []

theorem stopped_nil : Stopped [] := rfl

theorem stopped_cons {b : UInt8} {rest : List UInt8} :
    Stopped (b :: rest) ↔ isDigit b = false := by
  rw [Stopped, List.takeWhile_cons]
  cases isDigit b with
  | false => simp
  | true => simp

theorem stopped_dropWhile (l : List UInt8) : Stopped (l.dropWhile isDigit) := by
  cases hd : l.dropWhile isDigit with
  | nil => exact stopped_nil
  | cons b rest =>
    have hb := List.head?_dropWhile_not isDigit l
    rw [hd, List.head?_cons] at hb
    exact stopped_cons.mpr (by simpa using hb)

/-- An integer that was read is the text of a field. -/
theorem readInt_text {lo hi old z : Int} {s s' : IStream} (h : s.readInt lo hi old = (s', z))
    (hfail : s'.fail = false) :
    ∃ t rest, IsField lo hi z t ∧ s = ready s.pos (t ++ rest) ∧
      s' = (ready (s.pos + t.length) rest).noteEnd ∧ Stopped rest := by
  have hsen : s.sentry.good = true := by
    by_contra hbad
    simp only [readInt, if_neg hbad] at h
    cases h
    rw [sentry_fails hbad] at hfail
    cases hfail
  obtain ⟨space, c, cs, hs, hspace, -, hsentry⟩ := sentry_inv hsen
  have hne : ((c :: cs).drop (sign (c :: cs)).length).takeWhile isDigit ≠ [] := by
    intro hnil
    simp only [readInt, hsentry, good_ready, if_true, rest_ready, hnil] at h
    cases h
    cases hfail
  simp only [readInt, hsentry, good_ready, if_true, rest_ready, if_neg hne] at h
  obtain ⟨hstore, hlo, hhi⟩ := storeInt_inv ((congrArg (fun p => p.1.fail) h).trans hfail)
  rw [hstore] at h
  have hcs : c :: cs = sign (c :: cs)
      ++ ((c :: cs).drop (sign (c :: cs)).length).takeWhile isDigit
      ++ ((c :: cs).drop (sign (c :: cs)).length).dropWhile isDigit := by
    rw [List.append_assoc, List.takeWhile_append_dropWhile, sign_append_drop]
  have hsign := sign_cases (c :: cs)
  have hdigits : ∀ d ∈ ((c :: cs).drop (sign (c :: cs)).length).takeWhile isDigit,
      isDigit d = true := fun d hd => List.mem_takeWhile_imp hd
  have hstop : Stopped (((c :: cs).drop (sign (c :: cs)).length).dropWhile isDigit) :=
    stopped_dropWhile _
  generalize sign (c :: cs) = sg at *
  generalize hrest : ((c :: cs).drop sg.length).dropWhile isDigit = rest at *
  generalize ((c :: cs).drop sg.length).takeWhile isDigit = ds at *
  rw [hcs, advance_ready List.length_append] at h
  obtain ⟨rfl, rfl⟩ := Prod.mk.inj h
  refine ⟨space ++ (sg ++ ds), rest,
    ⟨⟨space, sg, ds, rfl, hspace, hsign, hne, hdigits, rfl⟩, hlo, hhi⟩, ?_, ?_, hstop⟩
  · rw [List.append_assoc, ← hcs]
    exact hs
  · rw [List.length_append, List.length_append, Nat.add_assoc]

/-- An integer that was read with a byte left is stopped by that byte. -/
theorem readInt_inv {lo hi old z : Int} {s s' : IStream} (h : s.readInt lo hi old = (s', z))
    (hgood : s'.good = true) :
    ∃ t, IsField lo hi z t ∧ s.Consumes t s' ∧
      ∃ b rest, s'.rest = b :: rest ∧ isDigit b = false := by
  have hfail : s'.fail = false := by
    rw [eq_ready hgood]
    rfl
  obtain ⟨t, rest, ht, hs, rfl, hstop⟩ := readInt_text h hfail
  cases rest with
  | nil => cases hgood
  | cons b rest =>
    exact ⟨t, ht, ⟨hs, rfl⟩, b, rest, rfl, stopped_cons.mp hstop⟩

/-- An integer that was read with nothing left ends the stream. -/
theorem readInt_end {lo hi old : Int} {s : IStream} (h : (s.readInt lo hi old).1.fail = false) :
    (s.readInt lo hi old).1.good = true ∨ (s.readInt lo hi old).1.rest = [] := by
  rcases hread : s.readInt lo hi old with ⟨s', z⟩
  rw [hread] at h
  obtain ⟨t, rest, -, -, rfl, -⟩ := readInt_text hread h
  cases rest with
  | nil => exact Or.inr rfl
  | cons b rest => exact Or.inl rfl

/-- A field is read as its number, up to what stops it. -/
theorem readInt_stopped {lo hi z old : Int} {t rest : List UInt8} (ht : IsField lo hi z t)
    (hstop : Stopped rest) (pos : Nat) :
    (ready pos (t ++ rest)).readInt lo hi old = ((ready (pos + t.length) rest).noteEnd, z) := by
  obtain ⟨⟨space, sg, ds, rfl, hspace, hsg, hne, hds, hz⟩, hlo, hhi⟩ := ht
  have hstore : ∀ s, storeInt lo hi z s = (s, z) := fun s => by
    unfold storeInt
    rw [if_neg (by omega), if_neg (by omega)]
  obtain ⟨d, ds', rfl⟩ := List.exists_cons_of_ne_nil hne
  have hd := hds d List.mem_cons_self
  have hsign : sign (sg ++ d :: ds' ++ rest) = sg := by
    rcases hsg with rfl | rfl | rfl
    · exact sign_digit hd _
    · rfl
    · rfl
  have hsen : (ready pos (space ++ (sg ++ d :: ds') ++ rest)).sentry
      = ready (pos + space.length) (sg ++ d :: ds' ++ rest) := by
    rw [List.append_assoc]
    rcases hsg with rfl | rfl | rfl
    · exact sentry_ready hspace (isSpace_digit hd)
    · exact sentry_ready hspace (by decide)
    · exact sentry_ready hspace (by decide)
  rw [readInt_parts hsen hsign hne hds hstop, ← hz, hstore, List.length_append,
    List.length_append, Nat.add_assoc]

theorem readInt_field {lo hi z old : Int} {t : List UInt8} (ht : IsField lo hi z t) {b : UInt8}
    (hb : isDigit b = false) (pos : Nat) (rest : List UInt8) :
    (ready pos (t ++ b :: rest)).readInt lo hi old = (ready (pos + t.length) (b :: rest), z) := by
  rw [readInt_stopped ht (stopped_cons.mpr hb), noteEnd_ready]

/-- A word that was read with a byte left. -/
theorem readWord_inv {old word : List UInt8} {s s' : IStream} (h : s.readWord old = (s', word))
    (hgood : s'.good = true) :
    ∃ space, (∀ x ∈ space, isSpace x = true) ∧ s.Consumes (space ++ word) s' ∧
      ∃ b rest, s'.rest = b :: rest ∧ isSpace b = true := by
  have hsen : s.sentry.good = true := by
    by_contra hbad
    simp only [readWord, if_neg hbad] at h
    cases h
    exact hbad hgood
  obtain ⟨space, c, cs, hs, hspace, -, hsentry⟩ := sentry_inv hsen
  simp only [readWord, hsentry, good_ready, if_true, rest_ready] at h
  obtain ⟨rfl, rfl⟩ := Prod.mk.inj h
  obtain ⟨hlt, -, -⟩ := noteEnd_good hgood
  obtain ⟨b, rest, hrest, hb⟩ := takeWhile_split hlt
  generalize (c :: cs).takeWhile (fun b => !isSpace b) = word at *
  rw [show c :: cs = word ++ b :: rest from hrest] at hs ⊢
  rw [advance_ready rfl, noteEnd_ready]
  refine ⟨space, hspace, ⟨?_, ?_⟩, b, rest, rfl, by simpa using hb⟩
  · rw [List.append_assoc]
    exact hs
  · rw [List.length_append, Nat.add_assoc]
    rfl

theorem get_rest_nil {s : IStream} (h : s.rest = []) : s.get.1.rest = [] := by
  have hguard : s.guarded.rest = [] := by
    unfold guarded
    split
    · exact h
    · exact h
  unfold get
  dsimp only
  split
  · split
    · exact hguard
    · next heq =>
      rw [hguard] at heq
      cases heq
  · exact hguard

theorem tellg_rest (s : IStream) : s.tellg.1.rest = s.rest := by
  have hguard : s.guarded.rest = s.rest := by
    unfold guarded
    split <;> rfl
  unfold tellg
  dsimp only
  split
  · exact hguard
  · exact hguard

theorem get_inv {s s' : IStream} {b : UInt8} (h : s.get = (s', some b)) :
    s.Consumes [b] s' := by
  obtain ⟨pos, rest, rfl, rfl⟩ := get_eq_some h
  exact ⟨rfl, rfl⟩

theorem read_inv {s s' : IStream} {n : Nat} {bytes : List UInt8} (h : s.read n = (s', bytes))
    (hgood : s'.good = true) :
    bytes.length = n ∧ s.Consumes bytes s' := by
  have hs := ((read_local n).eq h hgood).1
  have hguard : s.guarded = s := if_pos hs
  by_cases hle : n ≤ s.rest.length
  · simp only [read, hguard, if_pos hs, if_pos hle] at h
    obtain ⟨rfl, rfl⟩ := Prod.mk.inj h
    refine ⟨List.length_take_of_le hle, ?_, ?_⟩
    · show s = ready s.pos (s.rest.take n ++ s.rest.drop n)
      rw [List.take_append_drop]
      exact eq_ready hs
    · rw [List.length_take_of_le hle]
      exact eq_ready hgood
  · simp only [read, hguard, if_pos hs, if_neg hle] at h
    obtain ⟨rfl, -⟩ := Prod.mk.inj h
    simp [good] at hgood

end IStream

end CacheX
