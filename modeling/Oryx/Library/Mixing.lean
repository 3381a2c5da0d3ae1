import Mathlib.Logic.Function.Basic

/-!
# Bit mixers

The rounds of a bit mixer on words of any width: a word is XORed with its own upper bits,
then multiplied by a constant. Both halves can be undone, so a chain of rounds sends
different words to different words.
-/

namespace Oryx.Library
set_option autoImplicit false

variable {w : Nat}

/-- A word XORed with itself moved right by `k`. -/
def xorShift (k : Nat) (x : BitVec w) : BitVec w := x ^^^ (x >>> k)

/-- One round: the upper bits are folded in, and the word is multiplied. -/
def mixRound (k : Nat) (c x : BitVec w) : BitVec w := xorShift k x * c

/-- Moving a word to the right makes it smaller, unless it is zero. -/
theorem eq_zero_of_shift_eq {k : Nat} (moves : 0 < k) {z : BitVec w} (fixed : z >>> k = z) : z = 0#w := by
  have halved : z.toNat / 2 ^ k = z.toNat := by
    rw [← Nat.shiftRight_eq_div_pow, ← BitVec.toNat_ushiftRight, fixed]
  refine BitVec.eq_of_toNat_eq ?_
  rw [BitVec.toNat_ofNat, Nat.zero_mod]
  by_contra positive
  have less := Nat.div_lt_self (Nat.pos_of_ne_zero positive) (Nat.one_lt_two_pow (Nat.ne_of_gt moves))
  omega

theorem xorShift_xor (k : Nat) (x y : BitVec w) : xorShift k (x ^^^ y) = xorShift k x ^^^ xorShift k y := by
  unfold xorShift
  rw [BitVec.ushiftRight_xor_distrib]
  ac_rfl

theorem xorShift_injective {k : Nat} (moves : 0 < k) : Function.Injective (xorShift k : BitVec w → BitVec w) := by
  intro x y same
  have cancels : xorShift k (x ^^^ y) = 0#w := by rw [xorShift_xor, same, BitVec.xor_self]
  have fixed : (x ^^^ y) >>> k = x ^^^ y := (BitVec.xor_eq_zero_iff.mp cancels).symm
  exact BitVec.xor_eq_zero_iff.mp (eq_zero_of_shift_eq moves fixed)

/-- A round can be undone when its constant has an inverse. -/
theorem mixRound_injective {k : Nat} (moves : 0 < k) {c c' : BitVec w} (inverse : c * c' = 1#w) :
    Function.Injective (mixRound k c) := by
  intro x y same
  refine xorShift_injective moves ?_
  calc xorShift k x
    _ = mixRound k c x * c' := by rw [mixRound, BitVec.mul_assoc, inverse, BitVec.mul_one]
    _ = mixRound k c y * c' := by rw [same]
    _ = xorShift k y := by rw [mixRound, BitVec.mul_assoc, inverse, BitVec.mul_one]

end Oryx.Library
