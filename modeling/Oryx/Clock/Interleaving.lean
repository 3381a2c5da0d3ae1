import Mathlib.Logic.Function.Basic
import Oryx.Library.Runs
import Oryx.Clock.Clock

/-!
# Goroutines on one clock

Any number of goroutines call `Now` and `Update`. The shared steps are the load
and the compare-and-swap of the state; between them the scheduler is free, and
every reading of the wall clock is arbitrary. The history lists what the calls
return, in the order in which their last shared step is taken. A swap succeeds
only on the state it was computed from, which is below the ceiling, so every
earlier result lies at or below that state.
-/

namespace Oryx.Hlc
set_option autoImplicit false
open Oryx.Library

/-- Where a goroutine is in its call. -/
inductive Goroutine where
  | idle
  /-- in `Now`, before the load -/
  | nowLoad (now : UInt64)
  /-- in `Now`, before the compare-and-swap -/
  | nowSwap (old newVal : UInt64)
  | updateLoad (remote : Int64) (now : UInt64)
  | updateSwap (remote : Int64) (old newVal : UInt64)

/-- The end of a call. -/
inductive Event (G : Type) where
  | now (g : G) (result : Int64)
  | updated (g : G) (remote : Int64)
  /-- an `Update` that did not enter its loop -/
  | ignored (g : G) (remote : Int64)

/-- One step of goroutine `g`; `wall` is what it reads if it samples the wall clock. -/
inductive Action (G : Type) where
  | callNow (g : G) (wall : Int64)
  | callUpdate (g : G) (remote wall : Int64)
  | load (g : G) (wall : Int64)
  | swap (g : G) (wall : Int64)

structure System (G : Type) where
  clock : Clock
  goroutines : G → Goroutine
  history : List (Event G)

variable {G : Type} [DecidableEq G]

namespace System

def start : System G := ⟨newClock, fun _ => .idle, []⟩

/-- Goroutine `g` goes on at `pc`. -/
def move (s : System G) (g : G) (pc : Goroutine) : System G :=
  { s with goroutines := Function.update s.goroutines g pc }

/-- The call of `g` returns. -/
def finish (s : System G) (g : G) (clock : Clock) (e : Event G) : System G :=
  ⟨clock, Function.update s.goroutines g .idle, s.history ++ [e]⟩

def load (s : System G) (g : G) (wall : Int64) : System G :=
  match s.goroutines g with
  | .nowLoad now =>
    match nowAttempt s.clock.state now with
    | .saturated => s.finish g { s.clock with saturationLogged := true } (.now g maxInt64)
    | .overflow => s.move g (.nowLoad (sample wall))
    | .swap newVal => s.move g (.nowSwap s.clock.state newVal)
  | .updateLoad remote now =>
    match updateAttempt remote.toUInt64 s.clock.state now with
    | .saturated => s.finish g { s.clock with saturationLogged := true } (.updated g remote)
    | .overflow => s.move g (.updateLoad remote (sample wall))
    | .swap newVal => s.move g (.updateSwap remote s.clock.state newVal)
  | _ => s

def swap (s : System G) (g : G) (wall : Int64) : System G :=
  match s.goroutines g with
  | .nowSwap old newVal =>
    if s.clock.state = old then s.finish g { s.clock with state := newVal } (.now g newVal.toInt64)
    else s.move g (.nowLoad (sample wall))
  | .updateSwap remote old newVal =>
    if s.clock.state = old then s.finish g { s.clock with state := newVal } (.updated g remote)
    else s.move g (.updateLoad remote (sample wall))
  | _ => s

/-- A goroutine makes one call at a time; an action it is not ready for is void. -/
def step (s : System G) : Action G → System G
  | .callNow g wall =>
    match s.goroutines g with
    | .idle => s.move g (.nowLoad (sample wall))
    | _ => s
  | .callUpdate g remote wall =>
    match s.goroutines g with
    | .idle =>
      if absorbs remote (sample wall) then s.move g (.updateLoad remote (sample wall))
      else s.finish g s.clock (.ignored g remote)
    | _ => s
  | .load g wall => s.load g wall
  | .swap g wall => s.swap g wall

end System

/-! ## The invariant -/

/-- What a goroutine carries to its next shared step. -/
def Goroutine.Sound : Goroutine → Prop
  | .idle => True
  | .nowLoad now => now.toNat ≤ 140737488355327
  | .nowSwap old newVal => Advances old newVal
  | .updateLoad remote now => 0 ≤ remote ∧ now.toNat ≤ 140737488355327
  | .updateSwap remote old newVal => 0 ≤ remote ∧ Advances old newVal ∧ remote.toUInt64.toNat < newVal.toNat

namespace Event

/-- The state has reached what a call returned or took in. -/
def Below (state : UInt64) : Event G → Prop
  | .now _ result => 0 ≤ result ∧ (result.toInt ≤ state.toNat ∨ Saturated state)
  | .updated _ remote => remote.toInt < state.toNat ∨ Saturated state
  | .ignored _ _ => True

/-- The order between an earlier and a later event. -/
def Precedes : Event G → Event G → Prop
  | .now _ earlier, .now _ later => earlier ≤ later ∧ (later ≠ maxInt64 → earlier < later)
  | .updated _ remote, .now _ later => later ≠ maxInt64 → remote < later
  | _, _ => True

omit [DecidableEq G] in
theorem Below.mono {state state' : UInt64} {e : Event G} (below : e.Below state) (le : state.toNat ≤ state'.toNat) :
    e.Below state' := by
  have stays : Saturated state → Saturated state' := by
    rw [saturated_iff, saturated_iff]
    omega
  cases e with
  | now g result => exact ⟨below.1, below.2.imp (fun h => h.trans (by exact_mod_cast le)) stays⟩
  | updated g remote => exact below.imp (fun h => h.trans_le (by exact_mod_cast le)) stays
  | ignored g remote => trivial

omit [DecidableEq G] in
/-- What the swapped state has reached is below the result of the swap. -/
theorem Below.precedes {old newVal : UInt64} (advances : Advances old newVal) {e : Event G} (below : e.Below old) (g : G) :
    e.Precedes (.now g newVal.toInt64) := by
  have value := toInt_toInt64 advances.bounded
  have above := advances.above
  cases e with
  | now g result =>
    have less : result < newVal.toInt64 := by
      rw [Int64.lt_iff_toInt_lt, value]
      have reached := below.2.resolve_right advances.unsaturated
      omega
    exact ⟨less.le, fun _ => less⟩
  | updated g remote =>
    intro _
    rw [Int64.lt_iff_toInt_lt, value]
    have reached := Or.resolve_right below advances.unsaturated
    omega
  | ignored g remote => trivial

omit [DecidableEq G] in
theorem precedes_maxInt64 (e : Event G) (g : G) : e.Precedes (.now g maxInt64) := by
  cases e with
  | now g result => exact ⟨le_maxInt64 result, fun h => absurd rfl h⟩
  | updated g remote => exact fun h => absurd rfl h
  | ignored g remote => trivial

end Event

namespace System

structure Inv (s : System G) : Prop where
  bounded : s.clock.state.toNat < 9223372036854775808
  sound : ∀ g, (s.goroutines g).Sound
  below : ∀ e ∈ s.history, e.Below s.clock.state
  ordered : s.history.Pairwise Event.Precedes

omit [DecidableEq G] in
theorem inv_start : (start : System G).Inv where
  bounded := (by decide : newClock.state.toNat < 9223372036854775808)
  sound _ := trivial
  below _ h := by cases h
  ordered := List.Pairwise.nil

theorem Inv.move {s : System G} (inv : s.Inv) (g : G) {pc : Goroutine} (sound : pc.Sound) : (s.move g pc).Inv := by
  refine ⟨inv.bounded, fun g' => ?_, inv.below, inv.ordered⟩
  by_cases same : g' = g
  · subst same
    simpa [System.move] using sound
  · simpa [System.move, same] using inv.sound g'

/-- A call returns with `e`: the state has reached `e`, and `e` comes after all
that the state had reached before. -/
theorem Inv.finish {s : System G} (inv : s.Inv) (g : G) {clock : Clock} {e : Event G}
    (le : s.clock.state.toNat ≤ clock.state.toNat) (bounded : clock.state.toNat < 9223372036854775808)
    (below : e.Below clock.state) (after : ∀ e' : Event G, e'.Below s.clock.state → e'.Precedes e) :
    (s.finish g clock e).Inv := by
  have idle : (s.move g .idle).Inv := inv.move g trivial
  refine ⟨bounded, idle.sound, fun e' member => ?_, ?_⟩
  · rcases List.mem_append.mp member with old | new
    · exact (inv.below e' old).mono le
    · rw [List.mem_singleton.mp new]
      exact below
  · refine List.pairwise_append.mpr ⟨inv.ordered, List.pairwise_singleton _ _, fun e' old e'' new => ?_⟩
    rw [List.mem_singleton.mp new]
    exact after e' (inv.below e' old)

/-! ## Steps and runs -/

theorem Inv.load {s : System G} (inv : s.Inv) (g : G) (wall : Int64) : (s.load g wall).Inv := by
  have sound := inv.sound g
  rw [System.load]
  split
  · rename_i now here
    rw [here] at sound
    split
    · rename_i saturated
      refine inv.finish g le_rfl inv.bounded ⟨by decide, Or.inr (nowAttempt_saturated saturated)⟩ ?_
      exact fun e _ => e.precedes_maxInt64 g
    · exact inv.move g (sample_le wall)
    · rename_i newVal swap
      exact inv.move g (nowAttempt_swap sound swap).1
  · rename_i remote now here
    rw [here] at sound
    obtain ⟨nonneg, fits⟩ := sound
    split
    · rename_i saturated
      exact inv.finish g le_rfl inv.bounded (Or.inr (updateAttempt_saturated saturated)) (by simp [Event.Precedes])
    · exact inv.move g ⟨nonneg, sample_le wall⟩
    · rename_i newVal swap
      exact inv.move g ⟨nonneg, updateAttempt_swap fits (toNat_toUInt64_lt nonneg) swap⟩
  · exact inv

theorem Inv.swap {s : System G} (inv : s.Inv) (g : G) (wall : Int64) : (s.swap g wall).Inv := by
  have sound := inv.sound g
  rw [System.swap]
  split
  · rename_i old newVal here
    rw [here] at sound
    have advances : Advances old newVal := sound
    split
    · rename_i current
      have value := toInt_toInt64 advances.bounded
      refine inv.finish g (current ▸ advances.above.le) advances.bounded ⟨?_, Or.inl value.le⟩ ?_
      · rw [Int64.le_iff_toInt_le, value]
        exact Int.natCast_nonneg _
      · exact fun e below => Event.Below.precedes advances (current ▸ below) g
    · exact inv.move g (sample_le wall)
  · rename_i remote old newVal here
    rw [here] at sound
    obtain ⟨nonneg, advances, above⟩ := sound
    split
    · rename_i current
      refine inv.finish g (current ▸ advances.above.le) advances.bounded (Or.inl ?_) (by simp [Event.Precedes])
      rw [← toNat_toUInt64 nonneg]
      exact_mod_cast above
    · exact inv.move g ⟨nonneg, sample_le wall⟩
  · exact inv

theorem Inv.step {s : System G} (inv : s.Inv) (a : Action G) : (s.step a).Inv := by
  cases a with
  | callNow g wall =>
    rw [System.step]
    split
    · exact inv.move g (sample_le wall)
    · exact inv
  | callUpdate g remote wall =>
    rw [System.step]
    split
    · split
      · rename_i absorbed
        exact inv.move g ⟨not_lt.mp (absorbs_iff.mp absorbed).1, sample_le wall⟩
      · exact inv.finish g le_rfl inv.bounded trivial (by simp [Event.Precedes])
    · exact inv
  | load g wall => exact inv.load g wall
  | swap g wall => exact inv.swap g wall

/-- The state changes by a successful swap only. -/
theorem Inv.state_le {s : System G} (inv : s.Inv) (a : Action G) : s.clock.state ≤ (s.step a).clock.state := by
  cases a with
  | callNow g wall =>
    rw [System.step]
    split <;> exact le_rfl
  | callUpdate g remote wall =>
    rw [System.step]
    split
    · split <;> exact le_rfl
    · exact le_rfl
  | load g wall =>
    show s.clock.state ≤ (s.load g wall).clock.state
    rw [System.load]
    repeat' split
    all_goals exact le_rfl
  | swap g wall =>
    have sound := inv.sound g
    show s.clock.state ≤ (s.swap g wall).clock.state
    rw [System.swap]
    split
    · rename_i old newVal here
      rw [here] at sound
      split
      · rename_i current
        rw [current]
        exact UInt64.le_iff_toNat_le.mpr (Advances.above sound).le
      · exact le_rfl
    · rename_i remote old newVal here
      rw [here] at sound
      split
      · rename_i current
        rw [current]
        exact UInt64.le_iff_toNat_le.mpr sound.2.1.above.le
      · exact le_rfl
    · exact le_rfl

theorem Inv.run {s : System G} (inv : s.Inv) (actions : List (Action G)) :
    (runFrom System.step s actions).Inv ∧ s.clock.state ≤ (runFrom System.step s actions).clock.state := by
  let I (_ : List (Action G)) (t : System G) : Prop := t.Inv ∧ s.clock.state ≤ t.clock.state
  have keeps (past : List (Action G)) (t : System G) (a : Action G) (held : I past t) : I (past ++ [a]) (t.step a) :=
    ⟨held.1.step a, held.2.trans (held.1.state_le a)⟩
  exact runFrom_invariant (I := I) ⟨inv, le_rfl⟩ keeps actions

/-- **Hybrid clock order**: whatever the interleaving and the wall-clock readings,
the state never goes down and never passes `MaxInt64`, every result of `Now` is
non-negative, and every result other than `MaxInt64` is above all results obtained
before its swap and above all remote timestamps taken in by then; results never
decrease at all. -/
theorem clock_order (actions : List (Action G)) :
    let s : System G := runFrom step start actions
    (∀ more, s.clock.state ≤ (runFrom step s more).clock.state) ∧ s.clock.state ≤ maxInt64.toUInt64 ∧
      (∀ g result, .now g result ∈ s.history → 0 ≤ result) ∧ s.history.Pairwise Event.Precedes := by
  intro s
  have inv : s.Inv := (inv_start.run actions).1
  refine ⟨fun more => (inv.run more).2, ?_, fun g result member => (inv.below _ member).1, inv.ordered⟩
  rw [UInt64.le_iff_toNat_le, show maxInt64.toUInt64.toNat = 9223372036854775807 by decide]
  have bounded := inv.bounded
  omega

end System

end Oryx.Hlc
