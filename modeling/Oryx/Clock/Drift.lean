import Mathlib.Data.Finset.Lattice.Fold
import Mathlib.Order.Lattice.Nat
import Oryx.Clock.Interleaving

/-!
# How far the clock can be pushed ahead

`Update` checks the drift of a remote timestamp once, against the reading it starts with,
and then retries with newer readings and newer states. The physical part of the state is
at all times that of a reading or of a timestamp that passed the check, and the logical
counter goes up inside its sixteen bits.
-/

namespace Oryx.Hlc
set_option autoImplicit false
open Oryx.Library

/-- How a swap changes the state: the counter goes up, or the physical part goes up to a
given one. -/
inductive Moves (base : UInt64 → Prop) (old newVal : UInt64) : Prop where
  | counts (same : physical newVal = physical old) (up : logical old < logical newVal)
  | jumps (up : physical old < physical newVal) (given : base (physical newVal))

theorem Moves.imp {base base' : UInt64 → Prop} {old newVal : UInt64} (moves : Moves base old newVal)
    (weaker : ∀ v, base v → base' v) : Moves base' old newVal := by
  cases moves with
  | counts same up => exact .counts same up
  | jumps up given => exact .jumps up (weaker _ given)

theorem physical_pack {p l : UInt64} (fits : p.toNat < 281474976710656) (small : l.toNat ≤ 65535) :
    physical (pack p l) = p := by
  rw [← UInt64.toNat_inj, toNat_physical, toNat_pack fits small]
  omega

theorem logical_pack {p l : UInt64} (fits : p.toNat < 281474976710656) (small : l.toNat ≤ 65535) :
    logical (pack p l) = l := by
  rw [← UInt64.toNat_inj, toNat_logical, toNat_pack fits small]
  omega

theorem toNat_physical_lt (x : UInt64) : (physical x).toNat < 281474976710656 := by
  rw [toNat_physical]
  have bound := x.toNat_lt
  omega

theorem nowAttempt_moves {old now newVal : UInt64} (fits : now.toNat ≤ 140737488355327)
    (swap : nowAttempt old now = .swap newVal) : Moves (· = now) old newVal := by
  simp only [nowAttempt] at swap
  split at swap
  · cases swap
  split at swap
  · cases swap
  rename_i room
  split at swap
  · rename_i later
    obtain rfl := Attempt.swap.inj swap
    have value : physical (pack now 0) = now := physical_pack (by omega) (by decide)
    exact .jumps (by rwa [value]) value
  · rename_i notLater
    obtain rfl := Attempt.swap.inj swap
    have free : logical old < logicalMask := not_le.mp fun full => room ⟨not_lt.mp notLater, full⟩
    rw [UInt64.lt_iff_toNat_lt, toNat_logical, toNat_logicalMask] at free
    have next := toNat_logical_succ old
    have small : (logical old + 1).toNat ≤ 65535 := by omega
    refine .counts (physical_pack (toNat_physical_lt old) small) ?_
    rw [logical_pack (toNat_physical_lt old) small, UInt64.lt_iff_toNat_lt, next, toNat_logical]
    omega

theorem updateAttempt_moves {remote old now newVal : UInt64} (fits : now.toNat ≤ 140737488355327)
    (swap : updateAttempt remote old now = .swap newVal) :
    Moves (fun v => v = now ∨ v = physical remote) old newVal := by
  obtain ⟨_, chosen⟩ := chosen_of_swap swap
  have least : physical old ≤ max (physical old) (max (physical remote) now) := le_max_left _ _
  have among : max (physical old) (max (physical remote) now) = physical old ∨
      max (physical old) (max (physical remote) now) = now ∨
      max (physical old) (max (physical remote) now) = physical remote := by
    rcases max_choice (physical old) (max (physical remote) now) with kept | moved
    · exact Or.inl kept
    · rw [moved]
      exact Or.inr (max_choice (physical remote) now).symm
  generalize max (physical old) (max (physical remote) now) = chosenPhysical at chosen least among
  have small : chosenPhysical.toNat < 281474976710656 := by
    rcases among with rfl | rfl | rfl
    · exact toNat_physical_lt old
    · omega
    · exact toNat_physical_lt remote
  cases chosen with
  | old kept room =>
    rw [UInt64.le_iff_toNat_le, toNat_logicalMask] at room
    refine .counts ((physical_pack small room).trans kept) ?_
    rw [logical_pack small room, UInt64.lt_iff_toNat_lt, toNat_expectedLogical, toNat_logical]
    split <;> omega
  | remote moved taken room =>
    rw [UInt64.le_iff_toNat_le, toNat_logicalMask] at room
    have value := physical_pack small room
    exact .jumps (by rw [value]; exact lt_of_le_of_ne least (Ne.symm moved)) (Or.inr (value.trans taken))
  | wall moved other =>
    have value : physical (pack chosenPhysical 0) = chosenPhysical := physical_pack small (by decide)
    refine .jumps (by rw [value]; exact lt_of_le_of_ne least (Ne.symm moved)) (Or.inl (value.trans ?_))
    exact (among.resolve_left moved).resolve_right other

/-! ## What a run has read and taken in -/

variable {G : Type} [DecidableEq G]

namespace System

/-- The reading of the wall clock that the step takes. -/
def reads (s : System G) : Action G → List Int64
  | .callNow g wall =>
    match s.goroutines g with
    | .idle => [wall]
    | _ => []
  | .callUpdate g remote wall =>
    match s.goroutines g with
    | .idle => if remote < 0 then [] else [wall]
    | _ => []
  | .load g wall =>
    match s.goroutines g with
    | .nowLoad now => if nowAttempt s.clock.state now = .overflow then [wall] else []
    | .updateLoad remote now => if updateAttempt remote.toUInt64 s.clock.state now = .overflow then [wall] else []
    | _ => []
  | .swap g wall =>
    match s.goroutines g with
    | .nowSwap old _ => if s.clock.state = old then [] else [wall]
    | .updateSwap _ old _ => if s.clock.state = old then [] else [wall]
    | _ => []

/-- The remote timestamp that passes the drift check in the step. -/
def absorbed (s : System G) : Action G → List Int64
  | .callUpdate g remote wall =>
    match s.goroutines g with
    | .idle => if absorbs remote (sample wall) then [remote] else []
    | _ => []
  | _ => []

end System

/-- The largest reading; a reading below zero counts as zero. -/
def high (readings : List Int64) : Nat := readings.toFinset.sup Int64.toNatClampNeg

/-- The physical part of a reading or of a timestamp that was taken in. -/
def Base (readings taken : List Int64) (v : UInt64) : Prop :=
  (∃ wall ∈ readings, v = sample wall) ∨ ∃ remote ∈ taken, v = physical remote.toUInt64

theorem le_high {readings : List Int64} {wall : Int64} (member : wall ∈ readings) :
    wall.toNatClampNeg ≤ high readings :=
  Finset.le_sup (List.mem_toFinset.mpr member)

theorem high_le_append (readings more : List Int64) : high readings ≤ high (readings ++ more) := by
  rw [high, high, List.toFinset_append]
  exact Finset.sup_mono Finset.subset_union_left

theorem Base.append {readings taken : List Int64} {v : UInt64} (base : Base readings taken v)
    (more taken' : List Int64) : Base (readings ++ more) (taken ++ taken') v := by
  rcases base with ⟨wall, member, value⟩ | ⟨remote, member, value⟩
  · exact Or.inl ⟨wall, List.mem_append_left _ member, value⟩
  · exact Or.inr ⟨remote, List.mem_append_left _ member, value⟩

theorem toNat_sample_le (wall : Int64) : (sample wall).toNat ≤ wall.toNatClampNeg := by
  have clamped : (sample wall).toNat ≤ (max wall 0).toUInt64.toNat := by
    rw [sample, clampPhysical]
    split
    · rename_i above
      exact (UInt64.lt_iff_toNat_lt.mp above).le
    · exact le_rfl
  refine clamped.trans (le_of_eq ?_)
  rw [Int64.toNat_toUInt64_of_le (le_max_right wall 0)]
  rcases le_total wall 0 with below | above
  · rw [max_eq_right below]
    rw [Int64.le_iff_toInt_le, Int64.toInt_zero] at below
    simp only [Int64.toNatClampNeg, Int64.toInt_zero]
    omega
  · rw [max_eq_left above]

/-- A timestamp that passes the drift check is at most five seconds ahead of the reading. -/
theorem absorbs_near {remote wall : Int64} (passes : absorbs remote (sample wall) = true) :
    (physical remote.toUInt64).toNat ≤ wall.toNatClampNeg + 5000 := by
  have near := not_lt.mp (absorbs_iff.mp passes).2
  rw [UInt64.le_iff_toNat_le, UInt64.toNat_add, show (5000 : UInt64).toNat = 5000 from rfl] at near
  have fits := sample_le wall
  have value := toNat_sample_le wall
  omega

/-! ## The invariant -/

/-- What a goroutine carries to its next shared step comes from the readings and the
timestamps taken in so far. -/
def Goroutine.Carries (readings taken : List Int64) : Goroutine → Prop
  | .idle => True
  | .nowLoad now => ∃ wall ∈ readings, now = sample wall
  | .nowSwap old newVal => Moves (Base readings taken) old newVal
  | .updateLoad remote now => (∃ wall ∈ readings, now = sample wall) ∧ remote ∈ taken
  | .updateSwap remote old newVal => Moves (Base readings taken) old newVal ∧ remote ∈ taken

theorem Goroutine.Carries.append {readings taken : List Int64} {pc : Goroutine} (carries : pc.Carries readings taken)
    (more taken' : List Int64) : pc.Carries (readings ++ more) (taken ++ taken') := by
  have moved {old newVal : UInt64} (moves : Moves (Base readings taken) old newVal) :
      Moves (Base (readings ++ more) (taken ++ taken')) old newVal := moves.imp fun _ base => base.append more taken'
  have kept {now : UInt64} : (∃ wall ∈ readings, now = sample wall) → ∃ wall ∈ readings ++ more, now = sample wall :=
    fun ⟨wall, member, value⟩ => ⟨wall, List.mem_append_left _ member, value⟩
  cases pc with
  | idle => trivial
  | nowLoad now => exact kept carries
  | nowSwap old newVal => exact moved carries
  | updateLoad remote now => exact ⟨kept carries.1, List.mem_append_left _ carries.2⟩
  | updateSwap remote old newVal => exact ⟨moved carries.1, List.mem_append_left _ carries.2⟩

namespace System

/-- The readings and the timestamps taken in bound what can be swapped in. -/
structure Traced (readings taken : List Int64) (s : System G) : Prop where
  near : ∀ remote ∈ taken, (physical remote.toUInt64).toNat ≤ high readings + 5000
  carries : ∀ g, (s.goroutines g).Carries readings taken
  state : (physical s.clock.state).toNat ≤ high readings + 5000

variable {s : System G} {readings taken : List Int64}

omit [DecidableEq G] in
theorem traced_start : (start : System G).Traced [] [] :=
  ⟨nofun, fun _ => trivial, (by decide : (physical newClock.state).toNat ≤ high [] + 5000)⟩

omit [DecidableEq G] in
theorem Traced.base_le (traced : s.Traced readings taken) {v : UInt64} (base : Base readings taken v) :
    v.toNat ≤ high readings + 5000 := by
  rcases base with ⟨wall, member, rfl⟩ | ⟨remote, member, rfl⟩
  · have bound := (toNat_sample_le wall).trans (le_high member)
    omega
  · exact traced.near remote member

omit [DecidableEq G] in
/-- More is read and taken in, and nothing else happens. -/
theorem Traced.append (traced : s.Traced readings taken) {more taken' : List Int64}
    (near : ∀ remote ∈ taken', (physical remote.toUInt64).toNat ≤ high (readings ++ more) + 5000) :
    s.Traced (readings ++ more) (taken ++ taken') := by
  have higher := high_le_append readings more
  refine ⟨fun remote member => ?_, fun g => (traced.carries g).append more taken', ?_⟩
  · rcases List.mem_append.mp member with old | new
    · exact (traced.near remote old).trans (by omega)
    · exact near remote new
  · exact traced.state.trans (by omega)

theorem Traced.move (traced : s.Traced readings taken) (g : G) {pc : Goroutine} (carries : pc.Carries readings taken) :
    (s.move g pc).Traced readings taken := by
  refine ⟨traced.near, fun g' => ?_, traced.state⟩
  by_cases same : g' = g
  · subst same
    simpa [System.move] using carries
  · simpa [System.move, same] using traced.carries g'

theorem Traced.finish (traced : s.Traced readings taken) (g : G) {clock : Clock} {e : Event G}
    (state : clock.state = s.clock.state ∨ Moves (Base readings taken) s.clock.state clock.state) :
    (s.finish g clock e).Traced readings taken := by
  have idle : (s.move g .idle).Traced readings taken := traced.move g trivial
  refine ⟨traced.near, idle.carries, ?_⟩
  show (physical clock.state).toNat ≤ high readings + 5000
  rcases state with same | moves
  · rw [same]
    exact traced.state
  · cases moves with
    | counts same up =>
      rw [same]
      exact traced.state
    | jumps up given => exact traced.base_le given

omit [DecidableEq G] in
/-- A reading is taken. -/
theorem Traced.read (traced : s.Traced readings taken) (wall : Int64) : s.Traced (readings ++ [wall]) (taken ++ []) :=
  traced.append nofun

omit [DecidableEq G] in
theorem Traced.quiet (traced : s.Traced readings taken) : s.Traced (readings ++ []) (taken ++ []) :=
  traced.append nofun

theorem last_reading (readings : List Int64) (wall : Int64) : ∃ w ∈ readings ++ [wall], sample wall = sample w :=
  ⟨wall, List.mem_append_right _ List.mem_cons_self, rfl⟩

theorem Traced.load (traced : s.Traced readings taken) (inv : s.Inv) (g : G) (wall : Int64) :
    (s.load g wall).Traced (readings ++ s.reads (.load g wall)) (taken ++ s.absorbed (.load g wall)) := by
  have sound := inv.sound g
  have carries := traced.carries g
  simp only [System.load, reads, absorbed]
  cases here : s.goroutines g with
  | nowLoad now =>
    rw [here] at sound carries
    simp only
    cases attempt : nowAttempt s.clock.state now with
    | saturated => exact traced.quiet.finish g (Or.inl rfl)
    | overflow => exact (traced.read wall).move g (last_reading readings wall)
    | swap newVal =>
      refine traced.quiet.move g ?_
      rw [List.append_nil, List.append_nil]
      refine (nowAttempt_moves sound attempt).imp fun v value => ?_
      obtain ⟨w, member, rfl⟩ := carries
      exact Or.inl ⟨w, member, value⟩
  | updateLoad remote now =>
    rw [here] at sound carries
    obtain ⟨⟨w, member, rfl⟩, taken_in⟩ := carries
    simp only
    cases attempt : updateAttempt remote.toUInt64 s.clock.state (sample w) with
    | saturated => exact traced.quiet.finish g (Or.inl rfl)
    | overflow =>
      exact (traced.read wall).move g ⟨last_reading readings wall, List.mem_append_left _ taken_in⟩
    | swap newVal =>
      refine traced.quiet.move g ?_
      rw [List.append_nil, List.append_nil]
      refine ⟨(updateAttempt_moves sound.2 attempt).imp fun v value => ?_, taken_in⟩
      exact value.imp (fun value => ⟨w, member, value⟩) (fun value => ⟨remote, taken_in, value⟩)
  | idle => exact traced.quiet
  | nowSwap old newVal => exact traced.quiet
  | updateSwap remote old newVal => exact traced.quiet

theorem Traced.swap (traced : s.Traced readings taken) (g : G) (wall : Int64) :
    (s.swap g wall).Traced (readings ++ s.reads (.swap g wall)) (taken ++ s.absorbed (.swap g wall)) := by
  have carries := traced.carries g
  simp only [System.swap, reads, absorbed]
  cases here : s.goroutines g with
  | nowSwap old newVal =>
    rw [here] at carries
    by_cases current : s.clock.state = old
    · subst current
      simp only [if_true]
      exact traced.quiet.finish g (Or.inr (carries.imp fun _ base => base.append [] []))
    · simp only [current, if_false]
      exact (traced.read wall).move g (last_reading readings wall)
  | updateSwap remote old newVal =>
    rw [here] at carries
    by_cases current : s.clock.state = old
    · subst current
      simp only [if_true]
      exact traced.quiet.finish g (Or.inr (carries.1.imp fun _ base => base.append [] []))
    · simp only [current, if_false]
      exact (traced.read wall).move g ⟨last_reading readings wall, List.mem_append_left _ carries.2⟩
  | idle => exact traced.quiet
  | nowLoad now => exact traced.quiet
  | updateLoad remote now => exact traced.quiet

theorem Traced.step (traced : s.Traced readings taken) (inv : s.Inv) (a : Action G) :
    (s.step a).Traced (readings ++ s.reads a) (taken ++ s.absorbed a) := by
  cases a with
  | callNow g wall =>
    simp only [System.step, reads, absorbed]
    cases here : s.goroutines g with
    | idle => exact (traced.read wall).move g (last_reading readings wall)
    | nowLoad now | nowSwap old newVal | updateLoad remote now | updateSwap remote old newVal => exact traced.quiet
  | callUpdate g remote wall =>
    simp only [System.step, reads, absorbed]
    cases here : s.goroutines g with
    | idle =>
      by_cases passes : absorbs remote (sample wall) = true
      · have nonneg : ¬remote < 0 := (absorbs_iff.mp passes).1
        simp only [passes, nonneg, if_true, if_false]
        have near : ∀ r ∈ [remote], (physical r.toUInt64).toNat ≤ high (readings ++ [wall]) + 5000 := by
          intro r member
          rw [List.mem_singleton.mp member]
          refine (absorbs_near passes).trans (Nat.add_le_add_right (le_high ?_) 5000)
          exact List.mem_append_right _ List.mem_cons_self
        refine (traced.append near).move g ⟨last_reading readings wall, ?_⟩
        exact List.mem_append_right _ List.mem_cons_self
      · simp only [passes]
        exact (traced.append (List.forall_mem_nil _)).finish g (Or.inl rfl)
    | nowLoad now | nowSwap old newVal | updateLoad remote now | updateSwap remote old newVal => exact traced.quiet
  | load g wall => exact traced.load inv g wall
  | swap g wall => exact traced.swap g wall

/-- The state stays, or a goroutine swaps in what it carries. -/
theorem Traced.moves (traced : s.Traced readings taken) (a : Action G) :
    (s.step a).clock.state = s.clock.state ∨
      Moves (Base readings taken) s.clock.state (s.step a).clock.state := by
  cases a with
  | callNow g wall =>
    rw [System.step]
    split <;> exact Or.inl rfl
  | callUpdate g remote wall =>
    rw [System.step]
    split
    · split <;> exact Or.inl rfl
    · exact Or.inl rfl
  | load g wall =>
    rw [System.step, System.load]
    repeat' split
    all_goals exact Or.inl rfl
  | swap g wall =>
    have carries := traced.carries g
    rw [System.step, System.swap]
    split
    · rename_i old newVal here
      rw [here] at carries
      split
      · rename_i current
        rw [← current] at carries
        exact Or.inr carries
      · exact Or.inl rfl
    · rename_i remote old newVal here
      rw [here] at carries
      split
      · rename_i current
        rw [← current] at carries
        exact Or.inr carries.1
      · exact Or.inl rfl
    · exact Or.inl rfl

theorem traced_run (actions : List (Action G)) :
    (runFrom step start actions : System G).Traced (emitted step reads start actions)
      (emitted step absorbed start actions) := by
  induction actions using List.reverseRecOn with
  | nil => exact traced_start
  | append_singleton past a ih =>
    rw [runFrom_snoc, emitted_snoc, emitted_snoc]
    exact ih.step (inv_start.run past).1 a

/-- **Clock poisoning is bounded**: whatever the interleaving, the readings and the remote
timestamps, the physical part of the state is at most five seconds ahead of the largest
reading taken so far. A step that changes the state raises the counter and leaves the
physical part alone, or raises the physical part to that of a reading or of a timestamp
that passed the drift check. -/
theorem drift_bounded (actions : List (Action G)) (a : Action G) :
    let s : System G := runFrom step start actions
    let readings := emitted step reads start actions
    let taken := emitted step absorbed start actions
    (physical s.clock.state).toNat ≤ high readings + 5000 ∧
      ((s.step a).clock.state = s.clock.state ∨
        Moves (Base readings taken) s.clock.state (s.step a).clock.state) :=
  ⟨(traced_run actions).state, (traced_run actions).moves a⟩

end System

end Oryx.Hlc
