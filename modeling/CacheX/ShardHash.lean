import Mathlib.Algebra.Group.Units.Equiv
import Mathlib.Data.BitVec
import CacheX.Lib.XorShift
import CacheX.Sharded

/-!
# The shard hash

`shard_hash` mixes the bits of `std::hash` with the finalizer of splitmix64. Every stage of the mix
permutes the words: it is a xor-shift, or the product with a unit of the integers modulo `2 ^ 64`.
So the mix is a permutation (`mixPerm`), and two keys have the same shard hash iff `std::hash` gives
them the same value (`shardHash_eq_iff`).
-/

namespace CacheX

/-- What `shard_hash` does to the value of `std::hash`. -/
def mix (h : UInt64) : UInt64 :=
  let h := h ^^^ (h >>> 30)
  let h := h * 0xbf58476d1ce4e5b9
  let h := h ^^^ (h >>> 27)
  let h := h * 0x94d049bb133111eb
  h ^^^ (h >>> 31)

theorem shardHash_eq_mix (stdHash : Bytes → UInt64) (key : Bytes) :
    shardHash stdHash key = mix (stdHash key) := rfl

/-- The first factor of the mix, with its inverse modulo `2 ^ 64`. -/
def firstFactor : (BitVec 64)ˣ where
  val := 0xbf58476d1ce4e5b9
  inv := 0x96de1b173f119089
  val_inv := by decide
  inv_val := by decide

/-- The second factor of the mix, with its inverse modulo `2 ^ 64`. -/
def secondFactor : (BitVec 64)ˣ where
  val := 0x94d049bb133111eb
  inv := 0x319642b2d24d8ec3
  val_inv := by decide
  inv_val := by decide

/-- A word and its bits. -/
def wordEquiv : UInt64 ≃ BitVec 64 where
  toFun := UInt64.toBitVec
  invFun := UInt64.ofBitVec
  left_inv _ := rfl
  right_inv _ := rfl

/-- The stages of the mix. Each of its xor-shifts is the identity after four times. -/
def mixPerm : Equiv.Perm UInt64 :=
  wordEquiv.symm.permCongr <|
    (xorShiftPerm 30 2 (by decide)).trans <| firstFactor.mulRight.trans <|
      (xorShiftPerm 27 2 (by decide)).trans <| secondFactor.mulRight.trans <|
        xorShiftPerm 31 2 (by decide)

theorem mix_eq_mixPerm (h : UInt64) : mix h = mixPerm h := rfl

theorem mix_bijective : Function.Bijective mix := by
  have hmix : mix = mixPerm := funext mix_eq_mixPerm
  rw [hmix]
  exact mixPerm.bijective

/-- The mix is a permutation of the words, and `shard_hash` is the mix of `std::hash`: it separates
the keys that `std::hash` separates, and no others. -/
theorem shardHash_eq_iff :
    Function.Bijective mix ∧
      (∀ (stdHash : Bytes → UInt64) (key : Bytes), shardHash stdHash key = mix (stdHash key)) ∧
      ∀ (stdHash : Bytes → UInt64) (k₁ k₂ : Bytes),
        shardHash stdHash k₁ = shardHash stdHash k₂ ↔ stdHash k₁ = stdHash k₂ := by
  refine ⟨mix_bijective, shardHash_eq_mix, ?_⟩
  intro stdHash k₁ k₂
  rw [shardHash_eq_mix, shardHash_eq_mix]
  exact mix_bijective.injective.eq_iff

end CacheX
