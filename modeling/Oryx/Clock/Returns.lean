import Oryx.Clock.System

/-!
# Calls that return

The loops of `Now` and `Update` sleep while their logical counter is used up, until the
wall clock has moved on. The readings of one call are a sequence that grows by a
millisecond with every sleep until it is past `maxPhysical`, where samples stay. A state
or a timestamp below the ceiling is overtaken by such a clock; a timestamp at the ceiling
never is.
-/

namespace Oryx.Hlc
set_option autoImplicit false
open Oryx.Library

/-- Every reading is later than the one before, or past the ceiling. -/
def Ticking (walls : Nat → Int64) : Prop := ∀ n, walls n < walls (n + 1) ∨ maxPhysical.toInt64 ≤ walls (n + 1)

/-- A call by the only goroutine, whose loop is given `turns` readings after its first. -/
def callAlone (clock : Clock) (walls : Nat → Int64) (turns : Nat) : SystemClock :=
  ⟨clock, walls 0, (List.range (turns + 1)).map walls, false⟩

theorem toInt_maxPhysical : maxPhysical.toInt64.toInt = 140737488355327 := by decide

theorem sample_le_maxPhysical (wall : Int64) : sample wall ≤ maxPhysical := by
  rw [UInt64.le_iff_toNat_le, toNat_maxPhysical]
  exact sample_le wall

theorem sample_of_past {wall : Int64} (past : maxPhysical.toInt64 ≤ wall) : sample wall = maxPhysical := by
  have ceiling : sample maxPhysical.toInt64 = maxPhysical := by decide
  refine le_antisymm (sample_le_maxPhysical wall) ?_
  rw [← ceiling]
  exact sample_mono past

/-- A growing clock gets to the ceiling. -/
theorem Ticking.reaches {walls : Nat → Int64} (ticking : Ticking walls) : ∃ n, sample (walls n) = maxPhysical := by
  by_contra never
  have below : ∀ n, (walls n).toInt < 140737488355327 := by
    intro n
    by_contra above
    refine never ⟨n, sample_of_past ?_⟩
    rw [Int64.le_iff_toInt_le, toInt_maxPhysical]
    exact Int.not_lt.mp above
  have grows : ∀ n : Nat, (walls 0).toInt + n ≤ (walls n).toInt := by
    intro n
    induction n with
    | zero => simp
    | succ n ih =>
      have here := below (n + 1)
      rcases ticking n with later | past
      · rw [Int64.lt_iff_toInt_lt] at later
        omega
      · rw [Int64.le_iff_toInt_le, toInt_maxPhysical] at past
        omega
  have least := (walls 0).le_toInt
  have late := grows (140737488355327 + 9223372036854775808)
  have early := below (140737488355327 + 9223372036854775808)
  omega

/-! ## One turn at a time -/

/-- A loop sleeps through all its readings, or ends. -/
theorem settle_overflow_iff (attempt : UInt64 → Attempt) (wall : Int64) (ahead : List Int64) :
    (settle attempt wall ahead).1 = .overflow ↔ ∀ w ∈ wall :: ahead, attempt (sample w) = .overflow := by
  induction ahead generalizing wall with
  | nil => simp [settle]
  | cons next rest ih =>
    rw [settle, List.forall_mem_cons, ← ih next]
    cases attempt (sample wall) <;> simp

/-- A loop that is given enough readings ends exactly when one of them lets it. -/
theorem run_hung_iff (clock : Clock) (walls : Nat → Int64) (turns : Nat) (attempt : UInt64 → Attempt) :
    ((callAlone clock walls turns).read.run attempt).2.hung = false ↔
      ∃ n ≤ turns, attempt (sample (walls n)) ≠ .overflow := by
  have readings : (callAlone clock walls turns).read.readings = (List.range (turns + 1)).map walls := by
    rw [callAlone, List.range_succ_eq_map, List.map_cons]
    rfl
  have hung : ((callAlone clock walls turns).read.run attempt).2.hung =
      decide ((settle attempt (callAlone clock walls turns).read.wall (callAlone clock walls turns).read.ahead).1 =
        .overflow) := by
    rw [SystemClock.run, SystemClock.hung_read]
    rfl
  rw [hung, decide_eq_false_iff_not, settle_overflow_iff]
  rw [SystemClock.readings] at readings
  rw [readings]
  simp only [List.forall_mem_map, List.mem_range, Nat.lt_succ_iff, not_forall, exists_prop]

/-- At the ceiling `Now` does not sleep. -/
theorem nowAttempt_ceiling (state : UInt64) : nowAttempt state maxPhysical ≠ .overflow := by
  simp only [nowAttempt]
  split
  · intro overflow
    cases overflow
  · rename_i low
    split
    · rename_i full
      exact absurd full.1 low
    · split <;> intro overflow <;> cases overflow

theorem physical_le_maxPhysical {remote : Int64} (nonneg : 0 ≤ remote) : physical remote.toUInt64 ≤ maxPhysical := by
  have bound := toNat_toUInt64_lt nonneg
  rw [UInt64.le_iff_toNat_le, toNat_physical, toNat_maxPhysical]
  omega

/-- A timestamp at the ceiling whose counter is used up is the largest one. -/
theorem eq_maxInt64 {remote : Int64} (nonneg : 0 ≤ remote) (ceiling : maxPhysical = physical remote.toUInt64)
    (full : logical remote.toUInt64 + 1 > logicalMask) : remote = maxInt64 := by
  rw [← UInt64.toNat_inj, toNat_physical, toNat_maxPhysical] at ceiling
  rw [gt_iff_lt, UInt64.lt_iff_toNat_lt, toNat_logical_succ, toNat_logicalMask] at full
  have value := toNat_toUInt64 nonneg
  rw [← Int64.toInt_inj, show maxInt64.toInt = 9223372036854775807 by decide]
  omega

/-- At the ceiling `Update` sleeps for the largest timestamp only. -/
theorem updateAttempt_ceiling {remote : Int64} (nonneg : 0 ≤ remote) (other : remote ≠ maxInt64) (state : UInt64) :
    updateAttempt remote.toUInt64 state maxPhysical ≠ .overflow := by
  have chosen (low : ¬physical state ≥ maxPhysical) :
      max (physical state) (max (physical remote.toUInt64) maxPhysical) = maxPhysical := by
    rw [max_eq_right (physical_le_maxPhysical nonneg), max_eq_right (not_le.mp low).le]
  simp only [updateAttempt]
  split
  · intro overflow
    cases overflow
  rename_i low
  have moved : maxPhysical ≠ physical state := ne_of_gt (not_le.mp low)
  rw [chosen low]
  split
  · rename_i full
    exact absurd full.1 moved
  split
  · rename_i full
    exact absurd (eq_maxInt64 nonneg full.2.1 full.2.2) other
  · split <;> intro overflow <;> cases overflow

/-- **The largest timestamp**: `Update` sleeps at every reading, for the timestamp is at the
ceiling, where its counter cannot be raised. -/
theorem updateAttempt_maxInt64 {state : UInt64} (low : ¬Saturated state) (wall : Int64) :
    updateAttempt maxInt64.toUInt64 state (sample wall) = .overflow := by
  have ceiling : physical maxInt64.toUInt64 = maxPhysical := by decide
  have full : logical maxInt64.toUInt64 + 1 > logicalMask := by decide
  have chosen : max (physical state) (max (physical maxInt64.toUInt64) (sample wall)) = maxPhysical := by
    rw [ceiling, max_eq_left (sample_le_maxPhysical wall), max_eq_right (not_le.mp low).le]
  have unsaturated : ¬physical state ≥ maxPhysical := low
  have moved : maxPhysical ≠ physical state := ne_of_gt (not_le.mp low)
  simp only [updateAttempt]
  rw [chosen, if_neg unsaturated, if_neg fun kept => moved kept.1, if_pos ⟨moved, ceiling.symm, full⟩]

/-! ## Calls -/

theorem now_returns {walls : Nat → Int64} (ticking : Ticking walls) (clock : Clock) :
    ∃ turns, (callAlone clock walls turns).now.2.hung = false := by
  obtain ⟨n, ceiling⟩ := ticking.reaches
  refine ⟨n, (run_hung_iff clock walls n _).mpr ⟨n, le_rfl, ?_⟩⟩
  rw [ceiling]
  exact nowAttempt_ceiling _

/-- `Update` by the only goroutine enters its loop with its first reading. -/
theorem update_hung_iff (clock : Clock) (walls : Nat → Int64) (turns : Nat) (remote : Int64) :
    ((callAlone clock walls turns).update remote).hung = false ↔
      (absorbs remote (sample (walls 0)) = true →
        ∃ n ≤ turns, updateAttempt remote.toUInt64 clock.state (sample (walls n)) ≠ .overflow) := by
  have first : (callAlone clock walls turns).read.wall = walls 0 := by
    rw [callAlone, List.range_succ_eq_map]
    rfl
  rw [absorbs_iff, SystemClock.update, first]
  by_cases negative : remote < 0
  · simp [negative, callAlone]
  by_cases drifted : physical remote.toUInt64 > sample (walls 0) + 5000
  · rw [if_neg negative, if_pos drifted]
    exact iff_of_true (SystemClock.hung_read _) fun passes => absurd drifted passes.2
  · rw [if_neg negative, if_neg drifted]
    refine (run_hung_iff clock walls turns _).trans ⟨fun ends _ => ends, fun ends => ends ⟨negative, drifted⟩⟩

/-- The timestamp at the ceiling is let in by a wall clock close to it, over a state below. -/
def NearCeiling (clock : Clock) (wall remote : Int64) : Prop :=
  remote = maxInt64 ∧ maxPhysical ≤ sample wall + 5000 ∧ ¬Saturated clock.state

theorem nearCeiling_absorbs {clock : Clock} {wall remote : Int64} (near : NearCeiling clock wall remote) :
    absorbs remote (sample wall) = true := by
  obtain ⟨rfl, close, _⟩ := near
  have ceiling : physical maxInt64.toUInt64 = maxPhysical := by decide
  rw [absorbs_iff, ceiling]
  exact ⟨by decide, not_lt.mpr close⟩

theorem update_sleeps {clock : Clock} {walls : Nat → Int64} {remote : Int64}
    (near : NearCeiling clock (walls 0) remote) (turns : Nat) :
    ((callAlone clock walls turns).update remote).hung = true := by
  by_contra returns
  rw [Bool.not_eq_true, update_hung_iff] at returns
  obtain ⟨n, _, ends⟩ := returns (nearCeiling_absorbs near)
  obtain ⟨rfl, _, low⟩ := near
  exact ends (updateAttempt_maxInt64 low (walls n))

theorem update_returns {walls : Nat → Int64} (ticking : Ticking walls) {clock : Clock} {remote : Int64}
    (far : ¬NearCeiling clock (walls 0) remote) :
    ∃ turns, ((callAlone clock walls turns).update remote).hung = false := by
  obtain ⟨late, ceiling⟩ := ticking.reaches
  refine ⟨late, (update_hung_iff clock walls late remote).mpr fun passes => ?_⟩
  obtain ⟨nonneg, drift⟩ := absorbs_iff.mp passes
  by_cases largest : remote = maxInt64
  · have full : Saturated clock.state := by
      by_contra low
      subst largest
      exact far ⟨rfl, not_lt.mp drift, low⟩
    have ceiling : physical clock.state ≥ maxPhysical := full
    refine ⟨0, Nat.zero_le _, ?_⟩
    simp only [updateAttempt]
    rw [if_pos ceiling]
    intro overflow
    cases overflow
  · refine ⟨late, le_rfl, ?_⟩
    rw [ceiling]
    exact updateAttempt_ceiling (not_lt.mp nonneg) largest _

/-- **Clock calls return**, for every state, every remote timestamp and every wall clock that
grows with each sleep: `Now` always, and `Update` exactly when it is not given the largest
timestamp over a state below the ceiling, at a time when the wall clock is within five
seconds of the ceiling. -/
theorem calls_return_iff (clock : Clock) (walls : Nat → Int64) (ticking : Ticking walls) :
    (∃ turns, (callAlone clock walls turns).now.2.hung = false) ∧
      ∀ remote, (∃ turns, ((callAlone clock walls turns).update remote).hung = false) ↔
        ¬(remote = maxInt64 ∧ maxPhysical ≤ sample (walls 0) + 5000 ∧ ¬Saturated clock.state) := by
  refine ⟨now_returns ticking clock, fun remote => ⟨?_, update_returns ticking⟩⟩
  rintro ⟨turns, returns⟩ near
  rw [update_sleeps near turns] at returns
  cases returns

/-- A wall clock that has `start` for its first reading and stops at the ceiling. -/
def wallFrom (start n : Nat) : Int64 := Int64.ofNat (min (start + n) 140737488355327)

theorem ticking_wallFrom (start : Nat) : Ticking (wallFrom start) := by
  have value (n : Nat) : (wallFrom start n).toInt = min (start + n) 140737488355327 := by
    rw [wallFrom, Int64.toInt_ofNat_of_lt (by omega)]
  intro n
  rw [Int64.lt_iff_toInt_lt, Int64.le_iff_toInt_le, toInt_maxPhysical, value, value]
  omega

/-- On a new clock at the epoch every call returns. -/
theorem calls_return_epoch :
    Ticking (wallFrom 0) ∧ (∃ turns, (callAlone newClock (wallFrom 0) turns).now.2.hung = false) ∧
      ∀ remote, ∃ turns, ((callAlone newClock (wallFrom 0) turns).update remote).hung = false := by
  have ticking := ticking_wallFrom 0
  obtain ⟨now, update⟩ := calls_return_iff newClock (wallFrom 0) ticking
  refine ⟨ticking, now, fun remote => (update remote).mpr ?_⟩
  rintro ⟨_, close, _⟩
  exact absurd close (by decide)

/-- Five seconds before the ceiling a new clock is given the timestamp that a saturated clock
returns: the loop of `Update` sleeps at every reading, forever. -/
theorem update_sleeps_forever :
    Ticking (wallFrom 140737488350327) ∧
      ∀ turns, ((callAlone newClock (wallFrom 140737488350327) turns).update maxInt64).hung = true := by
  refine ⟨ticking_wallFrom _, fun turns => update_sleeps ⟨rfl, ?_, ?_⟩ turns⟩
  · decide
  · decide

end Oryx.Hlc
