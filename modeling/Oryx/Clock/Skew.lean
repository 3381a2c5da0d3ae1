import Oryx.Clock.Drift
import Oryx.Clock.System

/-!
# Readings and physical parts

Where the physical part of a clock's state comes from: it is that of the state before, of
the last reading of the wall clock, or of a timestamp that `Update` took in. A timestamp
passes the drift check when its physical part is no more than five seconds ahead of the
reading it is checked against.
-/

namespace Oryx.Hlc
set_option autoImplicit false

/-- A timestamp that is no more than five seconds ahead of the reading is taken in. -/
theorem absorbs_of_near {remote wall : Int64} (nonneg : 0 ≤ remote)
    (near : (physical remote.toUInt64).toNat ≤ (sample wall).toNat + 5000) :
    absorbs remote (sample wall) = true := by
  refine absorbs_iff.mpr ⟨not_lt.mpr nonneg, not_lt.mpr ?_⟩
  have fits := sample_le wall
  rw [UInt64.le_iff_toNat_le, UInt64.toNat_add, show (5000 : UInt64).toNat = 5000 from rfl]
  omega

/-- A state at the ceiling has a physical part that no reading is above. -/
theorem physical_maxInt64_le {state : UInt64} (full : Saturated state) :
    physical maxInt64.toUInt64 ≤ physical state := by
  have ceiling : physical maxInt64.toUInt64 = maxPhysical := by decide
  rw [ceiling]
  exact full

namespace SystemClock

/-- Later in the run the next reading is not earlier. -/
theorem Forward.read_le {c c' : SystemClock} (forward : c.Forward) (suffix : c'.readings <:+ c.readings) :
    c.read.wall ≤ c'.read.wall := by
  have own := (forward.suffix suffix).1
  unfold readings at suffix
  rcases List.suffix_cons_iff.mp suffix with same | within
  · -- nothing was read in between
    obtain ⟨wall, ahead⟩ := List.cons.inj same
    unfold read
    rw [ahead]
    cases c.ahead with
    | nil => exact wall.ge
    | cons next rest => exact le_rfl
  · cases more : c.ahead with
    | nil =>
      rw [more] at within
      exact absurd (List.suffix_nil.mp within) (List.cons_ne_nil _ _)
    | cons next rest =>
      have readAhead : c'.readings <:+ c.read.readings := by
        rw [more] at within
        simpa only [read, readings, more] using within
      have later := ((forward.suffix c.read_suffix).1.suffix readAhead).2
      exact later.trans (own.suffix c'.read_suffix).2

/-- **`Now`** keeps the physical part or takes that of its last reading. -/
theorem physical_now {c : SystemClock} (returns : c.now.2.hung = false) :
    physical c.now.2.clock.state = physical c.clock.state ∨
      physical c.now.2.clock.state = sample c.now.2.wall := by
  have last := c.read.run_fst (nowAttempt c.clock.state)
  have clock : c.now.2.clock = (c.read.run (nowAttempt c.clock.state)).1.leave c.clock := c.clock_read_run _
  cases done : (c.read.run (nowAttempt c.clock.state)).1 with
  | overflow => exact absurd done (run_returns returns).2
  | saturated =>
    rw [clock, done]
    exact Or.inl rfl
  | swap newVal =>
    rw [done] at last
    rw [clock, done]
    show physical newVal = _ ∨ physical newVal = _
    cases nowAttempt_moves (sample_le _) last.symm with
    | counts same up => exact Or.inl same
    | jumps up given => exact Or.inr given

/-- What `Now` returns is a timestamp whose physical part is not above the state's. -/
theorem physical_result_le {c : SystemClock} (returns : c.now.2.hung = false) :
    0 ≤ c.now.1 ∧ physical c.now.1.toUInt64 ≤ physical c.now.2.clock.state := by
  have ticks := now_ticks returns
  generalize c.now = ticked at ticks
  cases ticks with
  | saturated full state => exact ⟨(by decide : (0 : Int64) ≤ maxInt64), state ▸ physical_maxInt64_le full⟩
  | advanced advances late =>
    refine ⟨?_, le_of_eq ?_⟩
    · rw [Int64.le_iff_toInt_le, toInt_toInt64 advances.bounded, Int64.toInt_zero]
      omega
    · rw [UInt64.toUInt64_toInt64]

/-- **`Update`** keeps the physical part, or takes that of its last reading or of the timestamp. -/
theorem physical_update {c : SystemClock} {remote : Int64} (returns : (c.update remote).hung = false) :
    physical (c.update remote).clock.state = physical c.clock.state ∨
      physical (c.update remote).clock.state = sample (c.update remote).wall ∨
      physical (c.update remote).clock.state = physical remote.toUInt64 := by
  have last := c.read.run_fst (updateAttempt remote.toUInt64 c.clock.state)
  unfold update at returns ⊢
  split_ifs at returns ⊢ with negative drifted
  · exact Or.inl rfl
  · rw [clock_read]
    exact Or.inl rfl
  · have clock := c.clock_read_run (updateAttempt remote.toUInt64 c.clock.state)
    cases done : (c.read.run (updateAttempt remote.toUInt64 c.clock.state)).1 with
    | overflow => exact absurd done (run_returns returns).2
    | saturated =>
      rw [clock, done]
      exact Or.inl rfl
    | swap newVal =>
      rw [done] at last
      rw [clock, done]
      show physical newVal = _ ∨ physical newVal = _ ∨ physical newVal = _
      cases updateAttempt_moves (sample_le _) last.symm with
      | counts same up => exact Or.inl same
      | jumps up given => exact Or.inr given

end SystemClock

end Oryx.Hlc
