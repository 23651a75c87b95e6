import Mathlib.Algebra.Order.Ring.Int
import Mathlib.Data.List.Infix

/-!
# Decimal numerals as bytes

The text of a number in the classic locale, `ofNat` and `ofInt`, and the number a row of digits
stands for, `value`. Main results: `value_ofNat` (a numeral is read back), `ofNat_injective`, and
`value_pos_of_prefix` (a cut numeral of a positive number is still positive).
-/

namespace CacheX.Decimal

/-- The bytes of an ASCII text. -/
def ascii (s : String) : List UInt8 := s.toList.map Char.toUInt8

def isDigit (b : UInt8) : Bool := decide (48 ≤ b.toNat) && decide (b.toNat ≤ 57)

/-- The number a row of digits stands for, most significant digit first. -/
def value (ds : List UInt8) : Nat := ds.foldl (fun n d => 10 * n + (d.toNat - 48)) 0

/-- The shortest numeral of a natural number. -/
def ofNat (n : Nat) : List UInt8 := (Nat.toDigits 10 n).map Char.toUInt8

/-- The numeral of an integer, with a minus sign for a negative one. -/
def ofInt : Int → List UInt8
  | .ofNat n => ofNat n
  | .negSucc n => 45 :: ofNat (n + 1)

@[simp] theorem ofInt_natCast (n : Nat) : ofInt n = ofNat n := rfl

theorem toNat_of_isDigit {c : Char} (h : c.isDigit) :
    48 ≤ c.toNat ∧ c.toNat ≤ 57 ∧ c.toUInt8.toNat = c.toNat := by
  have hc : 48 ≤ c.toNat ∧ c.toNat ≤ 57 := by
    simpa [Char.isDigit, UInt32.le_iff_toNat_le] using h
  refine ⟨hc.1, hc.2, ?_⟩
  show c.val.toUInt8.toNat = c.val.toNat
  rw [UInt32.toNat_toUInt8]
  exact Nat.mod_eq_of_lt (show c.toNat < 2 ^ 8 by omega)

theorem isDigit_of_mem_toDigits {n : Nat} {c : Char} (h : c ∈ Nat.toDigits 10 n) : c.isDigit :=
  Nat.isDigit_of_mem_toDigits (by decide) (by decide) h

theorem isDigit_of_mem_ofNat {n : Nat} {b : UInt8} (h : b ∈ ofNat n) : isDigit b = true := by
  obtain ⟨c, hc, rfl⟩ := List.mem_map.mp h
  obtain ⟨h1, h2, h3⟩ := toNat_of_isDigit (isDigit_of_mem_toDigits hc)
  simp only [isDigit, h3, h1, h2, decide_true, Bool.and_self]

theorem ofNat_ne_nil (n : Nat) : ofNat n ≠ [] := by
  simp [ofNat, Nat.toDigits_ne_nil]

theorem length_ofNat_pos (n : Nat) : 0 < (ofNat n).length :=
  List.length_pos_iff.mpr (ofNat_ne_nil n)

theorem length_ofInt_pos (z : Int) : 0 < (ofInt z).length := by
  cases z with
  | ofNat n => exact length_ofNat_pos n
  | negSucc n => exact Nat.succ_pos _

theorem foldl_map_toUInt8 {cs : List Char} (h : ∀ c ∈ cs, c.isDigit) (init : Nat) :
    (cs.map Char.toUInt8).foldl (fun n d => 10 * n + (d.toNat - 48)) init
      = Nat.ofDigitChars 10 cs init := by
  induction cs generalizing init with
  | nil => rw [Nat.ofDigitChars_nil]; rfl
  | cons c cs ih =>
    have hc := (toNat_of_isDigit (h c List.mem_cons_self)).2.2
    rw [Nat.ofDigitChars_cons, List.map_cons, List.foldl_cons, hc]
    exact ih (fun c hc => h c (List.mem_cons_of_mem _ hc)) _

/-- Reading a numeral gives back the number. -/
theorem value_ofNat (n : Nat) : value (ofNat n) = n :=
  (foldl_map_toUInt8 (fun _ h => isDigit_of_mem_toDigits h) 0).trans
    Nat.ofDigitChars_ten_toDigits

theorem ofNat_injective {m n : Nat} (h : ofNat m = ofNat n) : m = n := by
  rw [← value_ofNat m, ← value_ofNat n, h]

/-! ## Cut numerals -/

theorem foldl_lt {ds : List UInt8} (h : ∀ d ∈ ds, isDigit d = true) {init k : Nat}
    (hi : init < 10 ^ k) :
    ds.foldl (fun n d => 10 * n + (d.toNat - 48)) init < 10 ^ (k + ds.length) := by
  induction ds generalizing init k with
  | nil => exact hi
  | cons d ds ih =>
    have hd : d.toNat ≤ 57 := by
      have := h d List.mem_cons_self
      simp only [isDigit, Bool.and_eq_true, decide_eq_true_eq] at this
      exact this.2
    have hstep : 10 * init + (d.toNat - 48) < 10 ^ (k + 1) := by
      rw [Nat.pow_succ]
      omega
    have := ih (fun d hd => h d (List.mem_cons_of_mem _ hd)) hstep
    rw [List.foldl_cons, List.length_cons, Nat.add_comm ds.length 1, ← Nat.add_assoc]
    exact this

theorem length_ofNat_le {n k : Nat} (hk : 0 < k) (h : n < 10 ^ k) : (ofNat n).length ≤ k := by
  rw [ofNat, List.length_map]
  exact (Nat.length_toDigits_le_iff (by decide) hk).mpr h

/-- The digits that are left of a cut numeral of a positive number are not all zero: a numeral
has no leading zero. -/
theorem value_pos_of_prefix {n : Nat} (hn : 0 < n) {ds rest : List UInt8} (hds : ds ≠ [])
    (h : ofNat n = ds ++ rest) : 0 < value ds := by
  refine Nat.pos_of_ne_zero fun h0 => ?_
  have hdig : ∀ d ∈ rest, isDigit d = true := fun d hd =>
    isDigit_of_mem_ofNat (n := n) (by rw [h]; exact List.mem_append_right _ hd)
  have hval : n = rest.foldl (fun n d => 10 * n + (d.toNat - 48)) 0 := by
    calc n = value (ds ++ rest) := by rw [← h, value_ofNat]
      _ = rest.foldl (fun n d => 10 * n + (d.toNat - 48)) (value ds) := List.foldl_append
      _ = _ := by rw [h0]
  have hpos : 0 < ds.length := List.length_pos_iff.mpr hds
  have hlen : ds.length + rest.length = (ofNat n).length := by rw [h, List.length_append]
  -- with nothing left of the cut the number would be zero
  rcases Nat.eq_zero_or_pos rest.length with h1 | h1
  · rw [List.length_eq_zero_iff.mp h1] at hval
    exact absurd hval (Nat.ne_of_gt hn)
  · have hlt : n < 10 ^ rest.length := by
      have := @foldl_lt rest hdig 0 0 (by decide)
      rwa [Nat.zero_add, ← hval] at this
    have := length_ofNat_le h1 hlt
    omega

end CacheX.Decimal
