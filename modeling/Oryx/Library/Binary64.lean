import Mathlib.Algebra.Order.Round
import Mathlib.Data.Int.Log
import Mathlib.Data.Rat.Floor
import Mathlib.Tactic.FieldSimp
import Mathlib.Tactic.GCongr
import Mathlib.Tactic.Linarith
import Mathlib.Tactic.NormNum
import Mathlib.Tactic.Positivity

/-!
# Rounding to binary64

Non-negative rationals and the binary64 number nearest to each, ties to even, below the
overflow threshold. The relative error of a normal number is at most `2⁻⁵³`; so two fractions
whose cross products are small compare as their roundings do.
-/

namespace Oryx.Library
set_option autoImplicit false

/-- The integer nearest to `x`; of two, the even one. -/
def roundEven (x : ℚ) : ℤ :=
  if Int.fract x < 1 / 2 then ⌊x⌋
  else if 1 / 2 < Int.fract x then ⌊x⌋ + 1
  else if ⌊x⌋ % 2 = 0 then ⌊x⌋
  else ⌊x⌋ + 1

/-- The distance of neighbouring binary64 numbers at `x`. -/
def ulp (x : ℚ) : ℚ := 2 ^ max (Int.log 2 x - 52) (-1074)

def round64 (x : ℚ) : ℚ := roundEven (x / ulp x) * ulp x

/-- Not so small that precision is lost. -/
def Normal (x : ℚ) : Prop := x = 0 ∨ 0 < x ∧ -1022 ≤ Int.log 2 x

theorem ulp_pos (x : ℚ) : 0 < ulp x := zpow_pos (by decide) _

theorem abs_roundEven_sub_le (x : ℚ) : |(roundEven x : ℚ) - x| ≤ 1 / 2 := by
  have parts := Int.floor_add_fract x
  have least := Int.fract_nonneg x
  have most := Int.fract_lt_one x
  unfold roundEven
  rw [abs_le]
  split_ifs <;> push_cast <;> constructor <;> linarith

theorem roundEven_intCast (n : ℤ) : roundEven n = n := by
  simp [roundEven]

/-- Half a step of the grid is `2⁻⁵³` of the number or less. -/
theorem ulp_le {x : ℚ} (positive : 0 < x) (normal : -1022 ≤ Int.log 2 x) : ulp x ≤ x / 2 ^ 52 := by
  have exponent : max (Int.log 2 x - 52) (-1074) = Int.log 2 x - 52 := max_eq_left (by omega)
  have binade : (2 : ℚ) ^ Int.log 2 x ≤ x := Int.zpow_log_le_self (by decide) positive
  rw [ulp, exponent, zpow_sub₀ (by norm_num)]
  norm_cast
  gcongr

/-- **The relative error of rounding.** -/
theorem abs_round64_sub_le {x : ℚ} (normal : Normal x) : |round64 x - x| ≤ x / 2 ^ 53 := by
  rcases normal with rfl | ⟨positive, normal⟩
  · have zero : roundEven 0 = 0 := by exact_mod_cast roundEven_intCast 0
    simp [round64, zero]
  · have step := ulp_pos x
    have split : round64 x - x = (roundEven (x / ulp x) - x / ulp x) * ulp x := by
      rw [round64]
      field_simp
    calc |round64 x - x|
      _ = |(roundEven (x / ulp x) : ℚ) - x / ulp x| * ulp x := by rw [split, abs_mul, abs_of_pos step]
      _ ≤ 1 / 2 * (x / 2 ^ 52) := by
        gcongr
        · exact abs_roundEven_sub_le _
        · exact ulp_le positive normal
      _ = x / 2 ^ 53 := by ring

theorem normal_div {a b : Nat} (small : b < 2 ^ 53) : Normal ((a : ℚ) / b) := by
  rcases Nat.eq_zero_or_pos a with rfl | num
  · left
    simp
  rcases Nat.eq_zero_or_pos b with rfl | den
  · left
    simp
  have den' : (0 : ℚ) < b := by exact_mod_cast den
  have least : (2 : ℚ) ^ (-53 : ℤ) ≤ (a : ℚ) / b := by
    have one : (1 : ℚ) ≤ a := by exact_mod_cast num
    have below : (b : ℚ) ≤ 2 ^ 53 := by exact_mod_cast small.le
    rw [zpow_neg, le_div_iff₀ den', inv_mul_le_iff₀ (by positivity)]
    calc (b : ℚ)
      _ ≤ 2 ^ 53 * 1 := by rw [mul_one]; exact below
      _ ≤ 2 ^ (53 : ℤ) * a := by
        norm_cast
        omega
  have positive : (0 : ℚ) < (a : ℚ) / b := by positivity
  refine Or.inr ⟨positive, ?_⟩
  have log := (Int.zpow_le_iff_le_log (by decide : 1 < 2) positive).mp least
  omega

/-- A larger fraction has a larger rounding if the cross products are small. -/
theorem round64_lt {a b c d : Nat} (den : 0 < b) (den' : 0 < d) (small : b < 2 ^ 53) (small' : d < 2 ^ 53)
    (less : c * b < a * d) (cross : a * d + c * b < 2 ^ 53) : round64 ((c : ℚ) / d) < round64 ((a : ℚ) / b) := by
  have upper := (abs_le.mp (abs_round64_sub_le (normal_div (a := c) small'))).2
  have lower := (abs_le.mp (abs_round64_sub_le (normal_div (a := a) small))).1
  have b_pos : (0 : ℚ) < b := by exact_mod_cast den
  have d_pos : (0 : ℚ) < d := by exact_mod_cast den'
  have product : (0 : ℚ) < b * d := mul_pos b_pos d_pos
  have gap : (c : ℚ) / d + 1 / (b * d) ≤ (a : ℚ) / b := by
    have integers : (c : ℚ) * b + 1 ≤ a * d := by exact_mod_cast less
    have left : (c : ℚ) / d + 1 / (b * d) = (c * b + 1) / (b * d) := by field_simp
    have right : (a : ℚ) / b = a * d / (b * d) := by field_simp
    rw [left, right]
    gcongr
  have errors : (a : ℚ) / b / 2 ^ 53 + (c : ℚ) / d / 2 ^ 53 < 1 / (b * d) := by
    have integers : (a : ℚ) * d + c * b < 2 ^ 53 := by exact_mod_cast cross
    have sum : (a : ℚ) / b / 2 ^ 53 + (c : ℚ) / d / 2 ^ 53 = (a * d + c * b) / 2 ^ 53 / (b * d) := by field_simp
    rw [sum]
    gcongr
    rw [div_lt_one (by positivity)]
    exact integers
  linarith

/-- **Fractions compare as their roundings.** -/
theorem round64_le_iff {a b c d : Nat} (den : 0 < b) (den' : 0 < d) (small : b < 2 ^ 53) (small' : d < 2 ^ 53)
    (cross : a * d + c * b < 2 ^ 53) : round64 ((c : ℚ) / d) ≤ round64 ((a : ℚ) / b) ↔ c * b ≤ a * d := by
  constructor
  · intro rounded
    by_contra greater
    have reversed := round64_lt den' den small' small (Nat.not_le.mp greater) (by omega)
    exact absurd rounded (not_le.mpr reversed)
  · intro below
    rcases Nat.lt_or_eq_of_le below with less | equal
    · exact (round64_lt den den' small small' less cross).le
    · have same : (c : ℚ) / d = (a : ℚ) / b := by
        rw [div_eq_div_iff (by exact_mod_cast den'.ne') (by exact_mod_cast den.ne')]
        exact_mod_cast equal
      rw [same]

/-- A number of at most 53 bits is its own rounding. -/
theorem round64_natCast {n : Nat} (small : n < 2 ^ 53) : round64 n = n := by
  have bits : Nat.log 2 n ≤ 52 := Nat.lt_succ_iff.mp (Nat.log_lt_of_lt_pow' (by decide) small)
  have exponent : max (Int.log 2 (n : ℚ) - 52) (-1074) = -((52 - Nat.log 2 n : ℕ) : ℤ) := by
    rw [Int.log_natCast]
    omega
  have step : ulp n = (2 ^ (52 - Nat.log 2 n))⁻¹ := by rw [ulp, exponent, zpow_neg, zpow_natCast]
  have scaled : (n : ℚ) / ulp n = ((n * 2 ^ (52 - Nat.log 2 n) : ℤ) : ℚ) := by
    rw [step, div_inv_eq_mul]
    norm_cast
  rw [round64, scaled, roundEven_intCast, ← scaled, div_mul_cancel₀ _ (ulp_pos n).ne']

end Oryx.Library
