import Mathlib.Tactic.Linarith
import Oryx.Kv

/-!
# The hybrid logical clock

`core/clock/clock.go`. The state packs a 48-bit physical part in milliseconds and a
16-bit logical counter into one word, below `math.MaxInt64`. `Now` and `Update`
are compare-and-swap loops; what one turn of such a loop decides from the loaded
state and the sampled wall clock is a pure function, an `Attempt`. Every attempt
that swaps moves the state up, stays below the ceiling, and leaves the remote
timestamp of an `Update` behind.
-/

namespace Oryx.Hlc
set_option autoImplicit false

def logicalBits : UInt64 := 16

def logicalMask : UInt64 := (1 <<< logicalBits) - 1

def maxInt64 : Int64 := Int64.maxValue

def maxPhysical : UInt64 := maxInt64.toUInt64 >>> logicalBits

structure Clock where
  state : UInt64
  saturationLogged : Bool
  deriving DecidableEq, Repr

def clampPhysical (p : UInt64) : UInt64 := if p > maxPhysical then maxPhysical else p

def newClock : Clock := ⟨0, false⟩

/-- What both loops make of a reading of the wall clock. -/
def sample (unixMilli : Int64) : UInt64 := clampPhysical (max unixMilli 0).toUInt64

def physical (x : UInt64) : UInt64 := x >>> logicalBits

def logical (x : UInt64) : UInt64 := x &&& logicalMask

def pack (newPhysical newLogical : UInt64) : UInt64 := (newPhysical <<< logicalBits) ||| (newLogical &&& logicalMask)

/-- What one turn of a loop does after the load. -/
inductive Attempt where
  /-- the state is at the ceiling: return -/
  | saturated
  /-- the logical counter is used up: sleep and sample again -/
  | overflow
  /-- try to swap in a new state -/
  | swap (newVal : UInt64)
  deriving DecidableEq, Repr

/-- One turn of `Now`. -/
def nowAttempt (old now : UInt64) : Attempt :=
  let oldPhysical := physical old
  let oldLogical := logical old
  if oldPhysical ≥ maxPhysical then .saturated
  else if now ≤ oldPhysical ∧ oldLogical ≥ logicalMask then .overflow
  else if now > oldPhysical then .swap (pack now 0)
  else .swap (pack oldPhysical (oldLogical + 1))

/-- The logical counter of `Update` when the old state keeps the physical part. -/
def expectedLogical (old remote chosenPhysical : UInt64) : UInt64 :=
  if chosenPhysical = physical remote then max (logical old) (logical remote) + 1 else logical old + 1

/-- One turn of `Update`. -/
def updateAttempt (remote old now : UInt64) : Attempt :=
  let chosenPhysical := max (physical old) (max (physical remote) now)
  if physical old ≥ maxPhysical then .saturated
  else if chosenPhysical = physical old ∧ expectedLogical old remote chosenPhysical > logicalMask then .overflow
  else if chosenPhysical ≠ physical old ∧ chosenPhysical = physical remote ∧ logical remote + 1 > logicalMask then
    .overflow
  else if chosenPhysical = physical old then .swap (pack chosenPhysical (expectedLogical old remote chosenPhysical))
  else if chosenPhysical = physical remote then .swap (pack chosenPhysical (logical remote + 1))
  else .swap (pack chosenPhysical 0)

/-- The checks of `Update` before its loop: a negative timestamp and one more than
five seconds ahead of the sampled wall clock are ignored. -/
def absorbs (remote : Int64) (now : UInt64) : Bool :=
  !decide (remote < 0) && !decide (physical remote.toUInt64 > now + 5000)

theorem absorbs_iff {remote : Int64} {now : UInt64} :
    absorbs remote now = true ↔ ¬remote < 0 ∧ ¬physical remote.toUInt64 > now + 5000 := by
  rw [absorbs, Bool.and_eq_true, Bool.not_eq_true', Bool.not_eq_true', decide_eq_false_iff_not, decide_eq_false_iff_not]

/-! ## The packing -/

theorem toNat_logicalMask : logicalMask.toNat = 65535 := by decide

theorem toNat_maxPhysical : maxPhysical.toNat = 140737488355327 := by decide

theorem toNat_physical (x : UInt64) : (physical x).toNat = x.toNat / 65536 := by
  rw [physical, UInt64.toNat_shiftRight, show logicalBits.toNat % 64 = 16 by decide, Nat.shiftRight_eq_div_pow]

theorem toNat_logical (x : UInt64) : (logical x).toNat = x.toNat % 65536 := by
  rw [logical, UInt64.toNat_and, toNat_logicalMask]
  exact Nat.and_two_pow_sub_one_eq_mod x.toNat 16

/-- The next counter does not overflow the 64 bits. -/
theorem toNat_logical_succ (x : UInt64) : (logical x + 1).toNat = x.toNat % 65536 + 1 := by
  rw [UInt64.toNat_add, toNat_logical, show (1 : UInt64).toNat = 1 from rfl]
  omega

theorem toNat_expectedLogical (old remote chosenPhysical : UInt64) :
    (expectedLogical old remote chosenPhysical).toNat =
      if chosenPhysical = physical remote then max (old.toNat % 65536) (remote.toNat % 65536) + 1
      else old.toNat % 65536 + 1 := by
  rw [expectedLogical]
  split
  · rw [UInt64.toNat_add, UInt64.toNat_max, toNat_logical, toNat_logical, show (1 : UInt64).toNat = 1 from rfl]
    omega
  · exact toNat_logical_succ old

/-- The two parts do not overlap. -/
theorem toNat_pack {p l : UInt64} (fits : p.toNat < 281474976710656) (small : l.toNat ≤ 65535) :
    (pack p l).toNat = p.toNat * 65536 + l.toNat := by
  have high : (p <<< logicalBits).toNat = p.toNat <<< 16 := by
    rw [UInt64.toNat_shiftLeft, show logicalBits.toNat % 64 = 16 by decide, Nat.shiftLeft_eq]
    exact Nat.mod_eq_of_lt (by omega)
  have low : (l &&& logicalMask).toNat = l.toNat := by
    rw [← logical, toNat_logical]
    exact Nat.mod_eq_of_lt (by omega)
  rw [pack, UInt64.toNat_or, high, low, ← Nat.shiftLeft_add_eq_or_of_lt (by omega), Nat.shiftLeft_eq]

theorem sample_le (unixMilli : Int64) : (sample unixMilli).toNat ≤ 140737488355327 := by
  rw [sample, clampPhysical, ← toNat_maxPhysical]
  split
  · exact le_rfl
  · rename_i small
    exact UInt64.le_iff_toNat_le.mp (not_lt.mp small)

/-- A later reading is not a smaller sample. -/
theorem sample_mono {w w' : Int64} (le : w ≤ w') : sample w ≤ sample w' := by
  have up : (max w 0).toUInt64 ≤ (max w' 0).toUInt64 := by
    have nonneg (x : Int64) : 0 ≤ max x 0 := le_max_right x 0
    have more : max w 0 ≤ max w' 0 := max_le_max le le_rfl
    rw [UInt64.le_iff_toNat_le, Int64.toNat_toUInt64_of_le (nonneg w), Int64.toNat_toUInt64_of_le (nonneg w')]
    rw [Int64.le_iff_toInt_le] at more
    simp only [Int64.toNatClampNeg]
    omega
  rw [sample, sample, clampPhysical, clampPhysical]
  split <;> split
  · exact le_rfl
  · rename_i high low
    exact absurd (lt_of_lt_of_le high up) low
  · rename_i low high
    exact not_lt.mp low
  · exact up

/-! ## Timestamps -/

/-- A state below the ceiling is a non-negative timestamp of the same size. -/
theorem toInt_toInt64 {x : UInt64} (small : x.toNat < 9223372036854775808) : x.toInt64.toInt = x.toNat := by
  rw [Int64.toInt, UInt64.toBitVec_toInt64, BitVec.toInt_eq_toNat_of_lt (by simpa using by omega)]
  rfl

theorem toNat_toUInt64 {x : Int64} (nonneg : 0 ≤ x) : (x.toUInt64.toNat : Int) = x.toInt := by
  rw [Int64.toNat_toUInt64_of_le nonneg, Int64.toNatClampNeg]
  rw [Int64.le_iff_toInt_le, Int64.toInt_zero] at nonneg
  omega

theorem toNat_toUInt64_lt {x : Int64} (nonneg : 0 ≤ x) : x.toUInt64.toNat < 9223372036854775808 := by
  have value := toNat_toUInt64 nonneg
  have bound := x.toInt_lt
  omega

theorem le_maxInt64 (x : Int64) : x ≤ maxInt64 := by
  have bound := x.toInt_lt
  rw [Int64.le_iff_toInt_le, show maxInt64.toInt = 9223372036854775807 by decide]
  omega

/-! ## What an attempt does -/

/-- The state is at the ceiling. -/
def Saturated (state : UInt64) : Prop := maxPhysical ≤ physical state

instance (state : UInt64) : Decidable (Saturated state) := inferInstanceAs (Decidable (_ ≤ _))

theorem saturated_iff {state : UInt64} : Saturated state ↔ 140737488355327 ≤ state.toNat / 65536 := by
  rw [Saturated, UInt64.le_iff_toNat_le, toNat_maxPhysical, toNat_physical]

/-- A swap goes up and stays below the ceiling. -/
structure Advances (old newVal : UInt64) : Prop where
  unsaturated : ¬Saturated old
  above : old.toNat < newVal.toNat
  bounded : newVal.toNat < 9223372036854775808

theorem nowAttempt_saturated {old now : UInt64} (saturated : nowAttempt old now = .saturated) : Saturated old := by
  simp only [nowAttempt] at saturated
  split at saturated
  · assumption
  · split at saturated
    · cases saturated
    · split at saturated <;> cases saturated

/-- **A swap of `Now`** goes up, to the sampled time at least. -/
theorem nowAttempt_swap {old now newVal : UInt64} (fits : now.toNat ≤ 140737488355327)
    (swap : nowAttempt old now = .swap newVal) : Advances old newVal ∧ now.toNat * 65536 ≤ newVal.toNat := by
  have zero : (0 : UInt64).toNat = 0 := rfl
  simp only [nowAttempt] at swap
  split at swap
  · cases swap
  · rename_i unsaturated
    have low : ¬Saturated old := unsaturated
    rw [saturated_iff] at low
    split at swap
    · cases swap
    · rename_i room
      rw [not_and_or, not_le, not_le, UInt64.lt_iff_toNat_lt, UInt64.lt_iff_toNat_lt, toNat_physical, toNat_logical,
        toNat_logicalMask] at room
      split at swap
      · rename_i later
        rw [gt_iff_lt, UInt64.lt_iff_toNat_lt, toNat_physical] at later
        obtain rfl := Attempt.swap.inj swap
        have value := toNat_pack (p := now) (l := 0) (by omega) (by omega)
        exact ⟨⟨unsaturated, by omega, by omega⟩, by omega⟩
      · rename_i notLater
        rw [gt_iff_lt, not_lt, UInt64.le_iff_toNat_le, toNat_physical] at notLater
        obtain rfl := Attempt.swap.inj swap
        have next := toNat_logical_succ old
        have value := toNat_pack (p := physical old) (l := logical old + 1) (by rw [toNat_physical]; omega)
          (by rw [next]; omega)
        rw [toNat_physical, next] at value
        exact ⟨⟨unsaturated, by omega, by omega⟩, by omega⟩

theorem updateAttempt_saturated {remote old now : UInt64} (saturated : updateAttempt remote old now = .saturated) :
    Saturated old := by
  simp only [updateAttempt] at saturated
  split at saturated
  · assumption
  · repeat' split at saturated
    all_goals cases saturated

/-- The ways `Update` can swap: the old state keeps the physical part, the remote
timestamp gives it, or the wall clock is ahead of both. -/
inductive Chosen (remote old chosenPhysical : UInt64) : UInt64 → Prop
  | old (kept : chosenPhysical = physical old) (room : expectedLogical old remote chosenPhysical ≤ logicalMask) :
      Chosen remote old chosenPhysical (pack chosenPhysical (expectedLogical old remote chosenPhysical))
  | remote (moved : chosenPhysical ≠ physical old) (taken : chosenPhysical = physical remote)
      (room : logical remote + 1 ≤ logicalMask) :
      Chosen remote old chosenPhysical (pack chosenPhysical (logical remote + 1))
  | wall (moved : chosenPhysical ≠ physical old) (other : chosenPhysical ≠ physical remote) :
      Chosen remote old chosenPhysical (pack chosenPhysical 0)

theorem chosen_of_swap {remote old now newVal : UInt64} (swap : updateAttempt remote old now = .swap newVal) :
    ¬Saturated old ∧ Chosen remote old (max (physical old) (max (physical remote) now)) newVal := by
  simp only [updateAttempt] at swap
  generalize max (physical old) (max (physical remote) now) = chosenPhysical at swap ⊢
  split at swap
  · cases swap
  rename_i unsaturated
  refine ⟨unsaturated, ?_⟩
  split at swap
  · cases swap
  rename_i room
  split at swap
  · cases swap
  rename_i room'
  split at swap
  · rename_i kept
    obtain rfl := Attempt.swap.inj swap
    exact .old kept (not_lt.mp fun above => room ⟨kept, above⟩)
  rename_i moved
  split at swap
  · rename_i taken
    obtain rfl := Attempt.swap.inj swap
    exact .remote moved taken (not_lt.mp fun above => room' ⟨moved, taken, above⟩)
  · rename_i other
    obtain rfl := Attempt.swap.inj swap
    exact .wall moved other

/-- **A swap of `Update`** goes up and past the remote timestamp. -/
theorem updateAttempt_swap {remote old now newVal : UInt64} (fits : now.toNat ≤ 140737488355327)
    (valid : remote.toNat < 9223372036854775808) (swap : updateAttempt remote old now = .swap newVal) :
    Advances old newVal ∧ remote.toNat < newVal.toNat := by
  have zero : (0 : UInt64).toNat = 0 := rfl
  obtain ⟨unsaturated, chosen⟩ := chosen_of_swap swap
  have low := unsaturated
  rw [saturated_iff] at low
  have value : (max (physical old) (max (physical remote) now)).toNat =
      max (old.toNat / 65536) (max (remote.toNat / 65536) now.toNat) := by
    rw [UInt64.toNat_max, UInt64.toNat_max, toNat_physical, toNat_physical]
  generalize max (physical old) (max (physical remote) now) = chosenPhysical at chosen value
  have isPhysical (x : UInt64) : chosenPhysical = physical x ↔ chosenPhysical.toNat = x.toNat / 65536 := by
    rw [← UInt64.toNat_inj, toNat_physical]
  cases chosen with
  | old kept room =>
    rw [UInt64.le_iff_toNat_le, toNat_logicalMask] at room
    have packed := toNat_pack (p := chosenPhysical) (by omega) room
    have next := toNat_expectedLogical old remote chosenPhysical
    simp only [isPhysical] at kept next
    split at next <;> exact ⟨⟨unsaturated, by omega, by omega⟩, by omega⟩
  | remote moved taken room =>
    rw [UInt64.le_iff_toNat_le, toNat_logicalMask] at room
    have packed := toNat_pack (p := chosenPhysical) (by omega) room
    have next := toNat_logical_succ remote
    rw [Ne, isPhysical] at moved
    rw [isPhysical] at taken
    exact ⟨⟨unsaturated, by omega, by omega⟩, by omega⟩
  | wall moved other =>
    have packed := toNat_pack (p := chosenPhysical) (l := 0) (by omega) (by omega)
    rw [Ne, isPhysical] at moved other
    exact ⟨⟨unsaturated, by omega, by omega⟩, by omega⟩

end Oryx.Hlc
