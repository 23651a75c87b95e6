import Mathlib.Algebra.Group.Nat.Defs
import Mathlib.Logic.Equiv.Defs
import Mathlib.Logic.Function.Iterate

/-!
# Xor-shifts

The map `x ↦ x ^ (x >> k)` on words of any width. It is linear over bits, so its square has no mixed
term and is the xor-shift by twice the distance (`xorShift_xorShift`). Some power of it therefore
shifts everything out and is the identity (`xorShift_iterate_eq_self`). That makes it a permutation,
`xorShiftPerm`, with a lower power as its inverse.
-/

namespace CacheX

variable {w : Nat}

def xorShift (k : Nat) (x : BitVec w) : BitVec w := x ^^^ (x >>> k)

theorem xorShift_xorShift (k : Nat) (x : BitVec w) :
    xorShift k (xorShift k x) = xorShift (k + k) x := by
  calc xorShift k (xorShift k x)
      = x ^^^ (x >>> k) ^^^ (x >>> k ^^^ x >>> (k + k)) := by
        simp only [xorShift, BitVec.ushiftRight_xor_distrib, BitVec.shiftRight_add]
    _ = x ^^^ x >>> (k + k) := by
        rw [BitVec.xor_assoc, ← BitVec.xor_assoc (x >>> k), BitVec.xor_self, BitVec.zero_xor]

/-- The powers of a xor-shift that are easy to name: `2 ^ n` times shifts `2 ^ n` times as far. -/
theorem xorShift_iterate (k n : Nat) :
    (xorShift k)^[2 ^ n] = (xorShift (2 ^ n * k) : BitVec w → BitVec w) := by
  induction n with
  | zero => rw [Nat.pow_zero, Nat.one_mul, Function.iterate_one]
  | succ n ih =>
    rw [Nat.pow_succ, Nat.mul_two, Nat.add_mul, Function.iterate_add, ih]
    funext x
    exact xorShift_xorShift (2 ^ n * k) x

theorem xorShift_of_le {k : Nat} (h : w ≤ k) (x : BitVec w) : xorShift k x = x := by
  rw [xorShift, BitVec.ushiftRight_eq_zero h, BitVec.xor_zero]

theorem xorShift_iterate_eq_self {k n : Nat} (h : w ≤ 2 ^ n * k) (x : BitVec w) :
    (xorShift k)^[2 ^ n - 1 + 1] x = x := by
  rw [Nat.sub_add_cancel Nat.one_le_two_pow, xorShift_iterate]
  exact xorShift_of_le h x

/-- A xor-shift that is the identity after `2 ^ n` times, with its inverse. -/
def xorShiftPerm (k n : Nat) (h : w ≤ 2 ^ n * k) : Equiv.Perm (BitVec w) where
  toFun := xorShift k
  invFun := (xorShift k)^[2 ^ n - 1]
  left_inv := xorShift_iterate_eq_self h
  right_inv := by
    intro x
    rw [← Function.iterate_succ_apply' (xorShift k)]
    exact xorShift_iterate_eq_self h x

end CacheX
