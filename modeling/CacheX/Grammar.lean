import Mathlib.Data.List.Forall2
import CacheX.Protocol

/-!
# The grammar of requests

The requests of `PROTOCOL.md`, without a parser: a line is its maximal runs of bytes other than
separators (`Runs`), and these have one of a few forms (`Denotes`). The time-to-live is a decimal
numeral of any length (`Numeral`), while `std::from_chars` works within an `int64`.

* `tokenize_iff`: the tokenizer finds the runs.
* `parseInteger_iff`: what `from_chars` makes of a numeral.
* `parseCommand_cases`: where `parseCommand` hands the tokens to.
* `parseCommand_iff`: the parser accepts the grammar and nothing else.
* `ttlClassified_iff`: which times-to-live are told apart as the errors say.
-/

namespace CacheX

open Decimal (ascii)

/-! ## The grammar -/

/-- The maximal runs of items without `p`, in order. A run ends with the list or before a `p`. -/
inductive Runs {α : Type} (p : α → Bool) : List α → List (List α) → Prop
  | nil : Runs p [] []
  | skip {a : α} {l : List α} {runs : List (List α)} : p a = true → Runs p l runs →
    Runs p (a :: l) runs
  | run {r l : List α} {runs : List (List α)} : r ≠ [] → (∀ a ∈ r, p a = false) →
    (∀ a ∈ l.head?, p a = true) → Runs p l runs → Runs p (r ++ l) (r :: runs)

/-- The same byte, or the same ASCII letter in the other case. -/
def SameLetter (c d : UInt8) : Prop :=
  c = d ∨ (65 ≤ c.toNat ∧ c.toNat ≤ 90 ∧ d.toNat = c.toNat + 32) ∨
    (65 ≤ d.toNat ∧ d.toNat ≤ 90 ∧ c.toNat = d.toNat + 32)

/-- A verb, compared ignoring ASCII case. -/
def IsVerb (name : String) (verb : Bytes) : Prop := List.Forall₂ SameLetter verb (ascii name)

/-- A minus sign or none, and one or more digits, with the integer they stand for. -/
inductive Numeral : Bytes → Int → Prop
  | plain {ds : Bytes} : ds ≠ [] → (∀ d ∈ ds, Decimal.isDigit d = true) →
    Numeral ds (Decimal.value ds)
  | minus {ds : Bytes} : ds ≠ [] → (∀ d ∈ ds, Decimal.isDigit d = true) →
    Numeral (45 :: ds) (-(Decimal.value ds : Int))

/-- The verbs that take a key. -/
def keyVerbs : List (String × CommandType) :=
  [("GET", .get), ("DELETE", .delete), ("DEL", .delete), ("EXISTS", .exists_), ("TTL", .ttl)]

/-- The verbs that take nothing. -/
def plainVerbs : List (String × CommandType) :=
  [("PING", .ping), ("SAVE", .save), ("LOAD", .load), ("QUIT", .quit)]

/-- The forms of a request and the command of each. -/
inductive Denotes : List Bytes → Command → Prop
  | set {verb k v : Bytes} : IsVerb "SET" verb →
    Denotes [verb, k, v] { type := .set, key := k, value := v }
  | setTtl {verb k v t : Bytes} {seconds : Int} : IsVerb "SET" verb → Numeral t seconds →
    0 ≤ seconds → seconds ≤ 315360000 →
    Denotes [verb, k, v, t] { type := .set, key := k, value := v, ttl := some seconds }
  | key {name : String} {type : CommandType} {verb k : Bytes} : (name, type) ∈ keyVerbs →
    IsVerb name verb → Denotes [verb, k] { type := type, key := k }
  | plain {name : String} {type : CommandType} {verb : Bytes} : (name, type) ∈ plainVerbs →
    IsVerb name verb → Denotes [verb] { type := type }

/-- The errors for a time-to-live. -/
def ttlInvalid (t : Bytes) : Bytes :=
  ascii "invalid TTL " ++ quoted t ++ ascii " (expected a whole number of seconds)"

def ttlNegative : Bytes := ascii "TTL must not be negative"

def ttlTooLarge : Bytes :=
  ascii "TTL too large (maximum " ++ Decimal.ofInt kMaxTtlSeconds ++ ascii " seconds)"

/-! ## Tokens -/

namespace GrammarLemmas

theorem runs_tokenizeFrom {token : Bytes} (htoken : ∀ c ∈ token, isSeparator c = false)
    (line : Bytes) : Runs isSeparator (token ++ line) (tokenizeFrom token line) := by
  induction line generalizing token with
  | nil =>
    unfold tokenizeFrom
    split
    · next hnil =>
      rw [hnil]
      exact .nil
    · next hne => exact .run hne htoken (fun a ha => by cases ha) .nil
  | cons c line ih =>
    have hfresh : Runs isSeparator line (tokenizeFrom [] line) :=
      @ih [] fun d hd => absurd hd List.not_mem_nil
    unfold tokenizeFrom
    split
    · next hc =>
      split
      · next hnil =>
        rw [hnil]
        exact .skip hc hfresh
      · next hne =>
        refine .run hne htoken (fun a ha => ?_) (.skip hc hfresh)
        cases ha
        exact hc
    · next hc =>
      rw [List.append_cons]
      refine ih fun d hd => ?_
      rcases List.mem_append.mp hd with hd | hd
      · exact htoken d hd
      · rw [List.mem_singleton.mp hd]
        exact Bool.eq_false_iff.mpr hc

theorem tokenizeFrom_append (token : Bytes) {r : Bytes} (hr : ∀ c ∈ r, isSeparator c = false)
    (line : Bytes) : tokenizeFrom token (r ++ line) = tokenizeFrom (token ++ r) line := by
  induction r generalizing token with
  | nil => rw [List.nil_append, List.append_nil]
  | cons c r ih =>
    have hc := hr c List.mem_cons_self
    rw [List.cons_append, tokenizeFrom, hc, if_neg Bool.false_ne_true,
      ih _ fun d hd => hr d (List.mem_cons_of_mem _ hd), List.append_assoc, List.singleton_append]

theorem tokenize_of_runs {line : Bytes} {runs : List Bytes} (h : Runs isSeparator line runs) :
    tokenize line = runs := by
  induction h with
  | nil => rfl
  | skip hc _ ih =>
    rw [tokenize, tokenizeFrom, hc, if_pos rfl, if_pos rfl]
    exact ih
  | @run r l runs hne hr hend _ ih =>
    rw [tokenize, tokenizeFrom_append [] hr, List.nil_append, ← ih]
    cases l with
    | nil =>
      unfold tokenizeFrom
      rw [if_neg hne]
      rfl
    | cons c l =>
      have hc := hend c rfl
      simp only [tokenize, tokenizeFrom, hc, if_true, if_neg hne]

/-- The tokenizer finds the runs of a line. -/
theorem tokenize_iff {line : Bytes} {tokens : List Bytes} :
    tokenize line = tokens ↔ Runs isSeparator line tokens := by
  constructor
  · rintro rfl
    exact runs_tokenizeFrom (fun d hd => absurd hd List.not_mem_nil) line
  · exact tokenize_of_runs

/-! ## Verbs -/

/-- A byte that is not a lower case letter. -/
def notLower (d : UInt8) : Bool := d.toNat < 97 || 122 < d.toNat

theorem upper_iff {c d : UInt8} (hd : notLower d = true) :
    (if 97 ≤ c.toNat ∧ c.toNat ≤ 122 then c - 32 else c) = d ↔ SameLetter c d := by
  simp only [notLower, Bool.or_eq_true, decide_eq_true_eq] at hd
  split
  · next hc =>
    have hsub : (c - 32).toNat = c.toNat - 32 :=
      UInt8.toNat_sub_of_le c 32 (UInt8.le_iff_toNat_le.mpr (show 32 ≤ c.toNat by omega))
    rw [← UInt8.toNat_inj, hsub, SameLetter, ← UInt8.toNat_inj]
    omega
  · rw [SameLetter, ← UInt8.toNat_inj]
    omega

theorem toUpper_iff {text name : Bytes} (hname : ∀ d ∈ name, notLower d = true) :
    toUpper text = name ↔ List.Forall₂ SameLetter text name := by
  induction text generalizing name with
  | nil =>
    cases name with
    | nil => exact iff_of_true rfl .nil
    | cons d name => exact iff_of_false (fun h => by cases h) fun h => by cases h
  | cons c text ih =>
    cases name with
    | nil => exact iff_of_false (fun h => by cases h) fun h => by cases h
    | cons d name =>
      rw [toUpper, List.map_cons, List.cons_eq_cons, List.forall₂_cons,
        upper_iff (hname d List.mem_cons_self)]
      exact and_congr_right fun _ => ih fun x hx => hname x (List.mem_cons_of_mem _ hx)

theorem isVerb_iff {name : String} {verb : Bytes} (hname : (ascii name).all notLower = true) :
    IsVerb name verb ↔ toUpper verb = ascii name :=
  (toUpper_iff (List.all_eq_true.mp hname)).symm

/-! ## Numerals -/

theorem numeral_minus {ds : Bytes} {z : Int} (h : Numeral (45 :: ds) z) :
    ds ≠ [] ∧ (∀ d ∈ ds, Decimal.isDigit d = true) ∧ z = -(Decimal.value ds : Int) := by
  cases h with
  | plain _ hds => exact absurd (hds 45 List.mem_cons_self) (by decide)
  | minus hne hds => exact ⟨hne, hds, rfl⟩

theorem numeral_plain {t : Bytes} {z : Int} (hsign : t.head? ≠ some 45) (h : Numeral t z) :
    t ≠ [] ∧ (∀ d ∈ t, Decimal.isDigit d = true) ∧ z = Decimal.value t := by
  cases h with
  | plain hne hds => exact ⟨hne, hds, rfl⟩
  | minus => exact absurd rfl hsign

theorem numeral_unique {t : Bytes} {z z' : Int} (h : Numeral t z) (h' : Numeral t z') : z = z' := by
  cases h with
  | plain hne hds =>
    have hsign : t.head? ≠ some 45 := fun hhead =>
      absurd (hds 45 (List.mem_of_head? hhead)) (by decide)
    exact (numeral_plain hsign h').2.2.symm
  | minus => exact (numeral_minus h').2.2.symm

/-- `from_chars` reads the numerals within an `int64`, as the integers they stand for. -/
theorem parseInteger_iff {t : Bytes} {z : Int} :
    parseInteger t = some z ↔ Numeral t z ∧ -2 ^ 63 ≤ z ∧ z < 2 ^ 63 := by
  unfold parseInteger
  by_cases hsign : t.head? = some 45
  · obtain ⟨ds, rfl⟩ : ∃ ds, t = 45 :: ds := List.head?_eq_some_iff.mp hsign
    simp only [hsign, if_true, List.tail_cons]
    split
    · next hds =>
      have hall : ∀ d ∈ ds, Decimal.isDigit d = true := List.all_eq_true.mp hds.2
      rw [Option.ite_none_right_eq_some, Option.some.injEq]
      constructor
      · rintro ⟨hfits, rfl⟩
        exact ⟨.minus hds.1 hall, hfits⟩
      · rintro ⟨hnum, hfits⟩
        rw [(numeral_minus hnum).2.2] at hfits ⊢
        exact ⟨hfits, rfl⟩
    · next hds =>
      refine iff_of_false (fun h => by cases h) fun h => hds ?_
      obtain ⟨hne, hall, -⟩ := numeral_minus h.1
      exact ⟨hne, List.all_eq_true.mpr hall⟩
  · simp only [hsign, if_false]
    split
    · next hds =>
      have hall : ∀ d ∈ t, Decimal.isDigit d = true := List.all_eq_true.mp hds.2
      rw [Option.ite_none_right_eq_some, Option.some.injEq]
      constructor
      · rintro ⟨hfits, rfl⟩
        exact ⟨.plain hds.1 hall, hfits⟩
      · rintro ⟨hnum, hfits⟩
        rw [(numeral_plain hsign hnum).2.2] at hfits ⊢
        exact ⟨hfits, rfl⟩
    · next hds =>
      refine iff_of_false (fun h => by cases h) fun h => hds ?_
      obtain ⟨hne, hall, -⟩ := numeral_plain hsign h.1
      exact ⟨hne, List.all_eq_true.mpr hall⟩

/-! ## Commands -/

/-- What `parseCommand` hands the tokens of a line to, verb by verb. -/
theorem parseCommand_cases {P : Except Bytes Command → Prop} (line : Bytes)
    (hempty : tokenize line = [] → P (.error (ascii "empty command")))
    (hset : ∀ verb rest, tokenize line = verb :: rest → IsVerb "SET" verb →
      P (parseSet (verb :: rest)))
    (hkey : ∀ verb rest name shown type, tokenize line = verb :: rest → (name, type) ∈ keyVerbs →
      (shown, type) ∈ keyVerbs → IsVerb name verb →
      P (parseKeyOnly type (ascii shown) (verb :: rest)))
    (hplain : ∀ verb rest name type, tokenize line = verb :: rest → (name, type) ∈ plainVerbs →
      IsVerb name verb → P (parseNoArgs type (ascii name) (verb :: rest)))
    (hunknown : ∀ verb rest, tokenize line = verb :: rest →
      P (.error (ascii "unknown command " ++ quoted verb))) : P (parseCommand line) := by
  unfold parseCommand
  cases htokens : tokenize line with
  | nil => exact hempty htokens
  | cons verb rest =>
    have hkey' : ∀ {name shown : String} {type : CommandType}, (ascii name).all notLower = true →
        (name, type) ∈ keyVerbs → (shown, type) ∈ keyVerbs → toUpper verb = ascii name →
        P (parseKeyOnly type (ascii shown) (verb :: rest)) := fun hname h h' hverb =>
      hkey verb rest _ _ _ htokens h h' ((isVerb_iff hname).mpr hverb)
    have hplain' : ∀ {name : String} {type : CommandType}, (ascii name).all notLower = true →
        (name, type) ∈ plainVerbs → toUpper verb = ascii name →
        P (parseNoArgs type (ascii name) (verb :: rest)) := fun hname h hverb =>
      hplain verb rest _ _ htokens h ((isVerb_iff hname).mpr hverb)
    -- one step for each verb, in the order of the source
    refine iteInduction
      (fun h => hset verb rest htokens ((isVerb_iff (by decide)).mpr h)) fun _ => ?_
    refine iteInduction (hkey' (by decide) (by decide) (by decide)) fun _ => ?_
    refine iteInduction (fun h => h.elim (hkey' (by decide) (by decide) (by decide))
      (hkey' (by decide) (by decide) (by decide))) fun _ => ?_
    refine iteInduction (hkey' (by decide) (by decide) (by decide)) fun _ => ?_
    refine iteInduction (hkey' (by decide) (by decide) (by decide)) fun _ => ?_
    refine iteInduction (hplain' (by decide) (by decide)) fun _ => ?_
    refine iteInduction (hplain' (by decide) (by decide)) fun _ => ?_
    refine iteInduction (hplain' (by decide) (by decide)) fun _ => ?_
    refine iteInduction (hplain' (by decide) (by decide)) fun _ => ?_
    exact hunknown verb rest htokens

theorem parseCommand_set {line verb : Bytes} {rest : List Bytes}
    (htokens : tokenize line = verb :: rest) (hverb : IsVerb "SET" verb) :
    parseCommand line = parseSet (verb :: rest) := by
  rw [isVerb_iff (by decide)] at hverb
  unfold parseCommand
  rw [htokens]
  exact if_pos hverb

theorem parseCommand_key {line verb : Bytes} {rest : List Bytes} {name : String}
    {type : CommandType} (htokens : tokenize line = verb :: rest) (hmem : (name, type) ∈ keyVerbs)
    (hverb : IsVerb name verb) :
    ∃ shown, parseCommand line = parseKeyOnly type shown (verb :: rest) := by
  unfold parseCommand
  rw [htokens]
  simp only [keyVerbs, List.mem_cons, List.not_mem_nil, or_false, Prod.mk.injEq] at hmem
  rcases hmem with ⟨rfl, rfl⟩ | ⟨rfl, rfl⟩ | ⟨rfl, rfl⟩ | ⟨rfl, rfl⟩ | ⟨rfl, rfl⟩ <;>
    rw [isVerb_iff (by decide)] at hverb <;> simp only [hverb] <;> exact ⟨_, rfl⟩

theorem parseCommand_plain {line verb : Bytes} {rest : List Bytes} {name : String}
    {type : CommandType} (htokens : tokenize line = verb :: rest) (hmem : (name, type) ∈ plainVerbs)
    (hverb : IsVerb name verb) :
    ∃ shown, parseCommand line = parseNoArgs type shown (verb :: rest) := by
  unfold parseCommand
  rw [htokens]
  simp only [plainVerbs, List.mem_cons, List.not_mem_nil, or_false, Prod.mk.injEq] at hmem
  rcases hmem with ⟨rfl, rfl⟩ | ⟨rfl, rfl⟩ | ⟨rfl, rfl⟩ | ⟨rfl, rfl⟩ <;>
    rw [isVerb_iff (by decide)] at hverb <;> simp only [hverb] <;> exact ⟨_, rfl⟩

theorem head_ttlInvalid (t : Bytes) : (ttlInvalid t).head? = some 105 := rfl

theorem ttlInvalid_ne_negative (t : Bytes) : ttlInvalid t ≠ ttlNegative := fun h =>
  absurd ((head_ttlInvalid t).symm.trans (congrArg List.head? h)) (by decide)

theorem ttlInvalid_ne_tooLarge (t : Bytes) : ttlInvalid t ≠ ttlTooLarge := fun h =>
  absurd ((head_ttlInvalid t).symm.trans (congrArg List.head? h)) (by decide)

/-- A numeral within an `int64` is told apart by its value. -/
theorem parseTtl_numeral {t : Bytes} {z : Int} (hz : Numeral t z)
    (hfits : -2 ^ 63 ≤ z ∧ z < 2 ^ 63) :
    parseTtl t = if z < 0 then .error ttlNegative
      else if kMaxTtlSeconds < z then .error ttlTooLarge else .ok z := by
  rw [parseTtl, parseInteger_iff.mpr ⟨hz, hfits⟩]
  rfl

/-- Everything else is called invalid, a numeral that is too long included. -/
theorem parseTtl_invalid {t : Bytes} (h : ∀ z, Numeral t z → ¬ (-2 ^ 63 ≤ z ∧ z < 2 ^ 63)) :
    parseTtl t = .error (ttlInvalid t) := by
  unfold parseTtl
  cases hparse : parseInteger t with
  | none => rfl
  | some z =>
    obtain ⟨hz, hfits⟩ := parseInteger_iff.mp hparse
    exact absurd hfits (h z hz)

theorem fits_of_accepted {z : Int} (h0 : 0 ≤ z) (hle : z ≤ kMaxTtlSeconds) :
    -2 ^ 63 ≤ z ∧ z < 2 ^ 63 := by
  unfold kMaxTtlSeconds at hle
  omega

theorem parseTtl_ok {t : Bytes} {z : Int} :
    parseTtl t = .ok z ↔ Numeral t z ∧ 0 ≤ z ∧ z ≤ kMaxTtlSeconds := by
  constructor
  · intro h
    by_cases hnum : ∃ z', Numeral t z' ∧ -2 ^ 63 ≤ z' ∧ z' < 2 ^ 63
    · obtain ⟨z', hz', hfits⟩ := hnum
      rw [parseTtl_numeral hz' hfits] at h
      split at h
      · cases h
      · next hneg =>
        split at h
        · cases h
        · next hlarge =>
          cases h
          exact ⟨hz', Int.not_lt.mp hneg, Int.not_lt.mp hlarge⟩
    · rw [parseTtl_invalid fun z' hz' hfits => hnum ⟨z', hz', hfits⟩] at h
      cases h
  · rintro ⟨hz, h0, hle⟩
    rw [parseTtl_numeral hz (fits_of_accepted h0 hle), if_neg (Int.not_lt.mpr h0),
      if_neg (Int.not_lt.mpr hle)]

theorem denotes_of_parseSet {verb : Bytes} {rest : List Bytes} {c : Command}
    (hverb : IsVerb "SET" verb) (h : parseSet (verb :: rest) = .ok c) :
    Denotes (verb :: rest) c := by
  unfold parseSet at h
  split at h
  · next heq =>
    cases heq
    cases h
    exact .set hverb
  · next t heq =>
    cases heq
    split at h
    · cases h
    · next seconds hp =>
      cases h
      obtain ⟨hz, h0, hle⟩ := parseTtl_ok.mp hp
      exact .setTtl hverb hz h0 hle
  · cases h

theorem denotes_of_parse {line : Bytes} {command : Command} :
    parseCommand line = .ok command → ∃ tokens, Runs isSeparator line tokens ∧
      Denotes tokens command := by
  refine parseCommand_cases (P := fun parsed => parsed = .ok command → _) line
    (fun _ h => by cases h) (fun verb rest ht hverb h => ?_)
    (fun verb rest name shown type ht hmem _ hverb h => ?_)
    (fun verb rest name type ht hmem hverb h => ?_) (fun _ _ _ h => by cases h)
  · exact ⟨_, tokenize_iff.mp ht, denotes_of_parseSet hverb h⟩
  · refine ⟨_, tokenize_iff.mp ht, ?_⟩
    unfold parseKeyOnly at h
    split at h
    · next heq =>
      cases heq
      cases h
      exact .key hmem hverb
    · cases h
  · refine ⟨_, tokenize_iff.mp ht, ?_⟩
    unfold parseNoArgs at h
    split at h
    · next heq =>
      cases heq
      cases h
      exact .plain hmem hverb
    · cases h

end GrammarLemmas

open GrammarLemmas

/-- **The parser.** For every line, the parser accepts it as a command exactly when the runs of
bytes other than space and tab in the line have a form of the grammar, and that form denotes the
command. -/
theorem parseCommand_iff (line : Bytes) (command : Command) :
    parseCommand line = .ok command ↔
      ∃ tokens, Runs (fun c => c == 32 || c == 9) line tokens ∧ Denotes tokens command := by
  refine ⟨denotes_of_parse, ?_⟩
  rintro ⟨tokens, hruns, hdenotes⟩
  have ht := tokenize_iff.mpr hruns
  cases hdenotes with
  | set hverb => exact parseCommand_set ht hverb
  | setTtl hverb hz h0 hle =>
    rw [parseCommand_set ht hverb, parseSet, parseTtl_ok.mpr ⟨hz, h0, hle⟩]
  | key hmem hverb =>
    obtain ⟨shown, hp⟩ := parseCommand_key ht hmem hverb
    rw [hp, parseKeyOnly]
  | plain hmem hverb =>
    obtain ⟨shown, hp⟩ := parseCommand_plain ht hmem hverb
    rw [hp, parseNoArgs]

/-- Separators at both ends and between, a verb in both cases, and leading zeros. -/
theorem parseCommand_iff_mixed : parseCommand (ascii " sEt\tk  v 007 ")
    = .ok { type := .set, key := ascii "k", value := ascii "v", ttl := some 7 } := by
  have hruns : Runs isSeparator (ascii " sEt\tk  v 007 ")
      [ascii "sEt", ascii "k", ascii "v", ascii "007"] := tokenize_iff.mp (by decide)
  have hverb : IsVerb "SET" (ascii "sEt") := (isVerb_iff (by decide)).mpr (by decide)
  have hseconds : Numeral (ascii "007") 7 :=
    .plain (by decide) (List.all_eq_true.mp (by decide))
  exact (parseCommand_iff _ _).mpr
    ⟨_, hruns, .setTtl hverb hseconds (by decide) (by decide)⟩

/-! ## Classes of times-to-live -/

/-- The time-to-live of a `SET` is classified by the integer that it stands for. -/
structure TtlClassified (line t : Bytes) : Prop where
  accepted : ∀ z, Numeral t z → 0 ≤ z → z ≤ 315360000 → ∃ c, parseCommand line = .ok c
  negative : ∀ z, Numeral t z → z < 0 → parseCommand line = .error ttlNegative
  tooLarge : ∀ z, Numeral t z → 315360000 < z → parseCommand line = .error ttlTooLarge
  invalid : parseCommand line = .error (ttlInvalid t) ↔ ¬ ∃ z, Numeral t z

theorem parseCommand_ttl {line verb k v t : Bytes}
    (hline : Runs isSeparator line [verb, k, v, t]) (hverb : IsVerb "SET" verb) :
    parseCommand line = (parseTtl t).map fun seconds =>
      { type := .set, key := k, value := v, ttl := some seconds } := by
  rw [parseCommand_set (tokenize_iff.mpr hline) hverb, parseSet]
  cases parseTtl t <;> rfl

theorem ttlClassified_of_fits {line verb k v t : Bytes}
    (hline : Runs isSeparator line [verb, k, v, t]) (hverb : IsVerb "SET" verb) {z : Int}
    (hz : Numeral t z) (hfits : -2 ^ 63 ≤ z ∧ z < 2 ^ 63) : TtlClassified line t where
  accepted := by
    intro z' hz' h0 hle
    obtain rfl := numeral_unique hz hz'
    exact ⟨_, by rw [parseCommand_ttl hline hverb, parseTtl_ok.mpr ⟨hz, h0, hle⟩]; rfl⟩
  negative := by
    intro z' hz' hneg
    obtain rfl := numeral_unique hz hz'
    rw [parseCommand_ttl hline hverb, parseTtl_numeral hz hfits, if_pos hneg]
    rfl
  tooLarge := by
    intro z' hz' hlarge
    obtain rfl := numeral_unique hz hz'
    have hpos : ¬ z < 0 := by omega
    rw [parseCommand_ttl hline hverb, parseTtl_numeral hz hfits, if_neg hpos]
    exact congrArg (Except.map _) (if_pos hlarge)
  invalid := by
    refine iff_of_false (fun h => ?_) fun hno => hno ⟨z, hz⟩
    rw [parseCommand_ttl hline hverb, parseTtl_numeral hz hfits] at h
    split at h
    · exact ttlInvalid_ne_negative t (Except.error.inj h).symm
    · split at h
      · exact ttlInvalid_ne_tooLarge t (Except.error.inj h).symm
      · cases h

/-- **Times-to-live.** The token is classified by its value exactly when the value, if there is one,
fits an `int64`: `from_chars` reports a longer numeral like a text that is none. -/
theorem ttlClassified_iff {line verb k v t : Bytes}
    (hline : Runs isSeparator line [verb, k, v, t]) (hverb : IsVerb "SET" verb) :
    TtlClassified line t ↔ ∀ z, Numeral t z → -2 ^ 63 ≤ z ∧ z < 2 ^ 63 := by
  constructor
  · intro h z hz
    by_contra hlong
    have hinvalid : parseCommand line = .error (ttlInvalid t) := by
      rw [parseCommand_ttl hline hverb, parseTtl_invalid fun z' hz' => ?_]
      · rfl
      · exact numeral_unique hz hz' ▸ hlong
    exact h.invalid.mp hinvalid ⟨z, hz⟩
  · intro h
    by_cases hnum : ∃ z, Numeral t z
    · obtain ⟨z, hz⟩ := hnum
      exact ttlClassified_of_fits hline hverb hz (h z hz)
    · have hinvalid : parseCommand line = .error (ttlInvalid t) := by
        rw [parseCommand_ttl hline hverb, parseTtl_invalid fun z hz => absurd ⟨z, hz⟩ hnum]
        rfl
      exact ⟨fun z hz => absurd ⟨z, hz⟩ hnum, fun z hz => absurd ⟨z, hz⟩ hnum,
        fun z hz => absurd ⟨z, hz⟩ hnum, iff_of_true hinvalid hnum⟩

/-- A minute is classified. -/
theorem ttlClassified_iff_minute : TtlClassified (ascii "SET k v 60") (ascii "60") := by
  refine (ttlClassified_iff (tokenize_iff.mp (show tokenize (ascii "SET k v 60")
    = [ascii "SET", ascii "k", ascii "v", ascii "60"] by decide))
    ((isVerb_iff (by decide)).mpr (by decide))).mpr fun z hz => ?_
  rw [numeral_unique hz (.plain (by decide) (List.all_eq_true.mp (by decide)))]
  decide

/-- 2 ^ 63 seconds are above the maximum and are called invalid. -/
theorem ttl_beyond_int64 :
    Numeral (ascii "9223372036854775808") 9223372036854775808 ∧
      parseCommand (ascii "SET k v 9223372036854775808")
        = .error (ascii "invalid TTL '9223372036854775808' (expected a whole number of seconds)") :=
  ⟨.plain (by decide) (List.all_eq_true.mp (by decide)), by decide⟩

end CacheX
