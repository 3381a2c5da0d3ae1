import Oryx.Clock.Interleaving
import Oryx.Writer.StorageWriter

/-!
# The clock of one process

A `Clock` that is called by one goroutine at a time, together with the wall clock it
samples: the readings of a run are a list, of which every sample takes the next one.
A call that sleeps until its logical counter is free again takes as many readings as
it needs. For a wall clock that never goes back, `Now` is above the state and above
every reading so far, and `Update` brings the state past each timestamp it takes in.
Both are what a goroutine does that runs its call to the end without being interrupted.
-/

namespace Oryx.Hlc
set_option autoImplicit false
open Oryx.Library Oryx.Writer

structure SystemClock where
  clock : Clock
  /-- the last reading of the wall clock -/
  wall : Int64
  /-- the readings to come; after them the wall clock stands still -/
  ahead : List Int64
  /-- a call sleeps while the wall clock stands still: it never returns -/
  hung : Bool

/-- The turns of a loop that nobody interferes with, up to the first that does not
sleep: its attempt, and the readings from there on. -/
def settle (attempt : UInt64 → Attempt) (wall : Int64) : List Int64 → Attempt × Int64 × List Int64
  | [] => (attempt (sample wall), wall, [])
  | next :: rest =>
    match attempt (sample wall) with
    | .overflow => settle attempt next rest
    | done => (done, wall, next :: rest)

namespace Attempt

/-- The clock after the attempt. -/
def leave (clock : Clock) : Attempt → Clock
  | .saturated => { clock with saturationLogged := true }
  | .overflow => clock
  | .swap newVal => { clock with state := newVal }

/-- What `Now` returns after the attempt. -/
def result : Attempt → Int64
  | .swap newVal => newVal.toInt64
  | _ => maxInt64

end Attempt

namespace SystemClock

def readings (c : SystemClock) : List Int64 := c.wall :: c.ahead

/-- `time.Now`. -/
def read (c : SystemClock) : SystemClock :=
  match c.ahead with
  | [] => c
  | next :: rest => { c with wall := next, ahead := rest }

/-- A loop from the last reading on. -/
def run (c : SystemClock) (attempt : UInt64 → Attempt) : Attempt × SystemClock :=
  let settled := settle attempt c.wall c.ahead
  (settled.1, ⟨settled.1.leave c.clock, settled.2.1, settled.2.2, c.hung || decide (settled.1 = .overflow)⟩)

def now (c : SystemClock) : Int64 × SystemClock :=
  let run := c.read.run (nowAttempt c.clock.state)
  (run.1.result, run.2)

def update (c : SystemClock) (remote : Int64) : SystemClock :=
  if remote < 0 then c
  else if physical remote.toUInt64 > sample c.read.wall + 5000 then c.read
  else (c.read.run (updateAttempt remote.toUInt64 c.clock.state)).2

instance : Clocker SystemClock where
  now := now
  update := update

/-- A new process on the same machine: the clock starts again, the wall clock goes on. -/
def reset (c : SystemClock) : SystemClock := { c with clock := newClock }

/-! ## Readings -/

theorem settle_spec (attempt : UInt64 → Attempt) (wall : Int64) (ahead : List Int64) :
    (settle attempt wall ahead).2.1 :: (settle attempt wall ahead).2.2 <:+ wall :: ahead ∧
      (settle attempt wall ahead).1 = attempt (sample (settle attempt wall ahead).2.1) := by
  induction ahead generalizing wall with
  | nil => exact ⟨List.suffix_rfl, rfl⟩
  | cons next rest ih =>
    rw [settle]
    split
    · exact ⟨(ih next).1.trans (List.suffix_cons wall _), (ih next).2⟩
    · exact ⟨List.suffix_rfl, rfl⟩

theorem read_suffix (c : SystemClock) : c.read.readings <:+ c.readings := by
  rw [read, readings, readings]
  split
  · exact List.suffix_rfl
  · rename_i next rest more
    rw [more]
    exact List.suffix_cons _ _

@[simp] theorem clock_read (c : SystemClock) : c.read.clock = c.clock := by
  rw [read]
  split <;> rfl

@[simp] theorem hung_read (c : SystemClock) : c.read.hung = c.hung := by
  rw [read]
  split <;> rfl

theorem run_suffix (c : SystemClock) (attempt : UInt64 → Attempt) : (c.run attempt).2.readings <:+ c.readings :=
  (settle_spec attempt c.wall c.ahead).1

/-- A loop ends with the attempt of its last reading. -/
theorem run_fst (c : SystemClock) (attempt : UInt64 → Attempt) :
    (c.run attempt).1 = attempt (sample (c.run attempt).2.wall) :=
  (settle_spec attempt c.wall c.ahead).2

/-- A loop from a fresh reading leaves the clock as its last attempt says. -/
theorem clock_read_run (c : SystemClock) (attempt : UInt64 → Attempt) :
    (c.read.run attempt).2.clock = (c.read.run attempt).1.leave c.clock := by
  rw [← clock_read c]
  exact rfl

/-- A loop that ends did not run out of readings. -/
theorem run_returns {c : SystemClock} {attempt : UInt64 → Attempt} (returns : (c.run attempt).2.hung = false) :
    c.hung = false ∧ (c.run attempt).1 ≠ .overflow := by
  have flags : (c.hung || decide ((c.run attempt).1 = .overflow)) = false := returns
  rwa [Bool.or_eq_false_iff, decide_eq_false_iff_not] at flags

/-- The wall clock never goes back. -/
def Forward (c : SystemClock) : Prop := c.readings.Pairwise (· ≤ ·)

instance (c : SystemClock) : Decidable c.Forward := inferInstanceAs (Decidable (c.readings.Pairwise (· ≤ ·)))

/-- Of a wall clock that never goes back, later readings are not earlier times. -/
theorem Forward.suffix {c c' : SystemClock} (forward : c.Forward) (suffix : c'.readings <:+ c.readings) :
    c'.Forward ∧ c.wall ≤ c'.wall := by
  refine ⟨forward.sublist suffix.sublist, ?_⟩
  have member : c'.wall ∈ c.readings := suffix.mem List.mem_cons_self
  rcases List.mem_cons.mp member with same | later
  · rw [same]
  · exact List.rel_of_pairwise_cons forward later

/-! ## Now and Update -/

theorem now_suffix (c : SystemClock) : c.now.2.readings <:+ c.readings :=
  (c.read.run_suffix _).trans c.read_suffix

theorem update_suffix (c : SystemClock) (remote : Int64) : (c.update remote).readings <:+ c.readings := by
  rw [update]
  split
  · exact List.suffix_rfl
  · split
    · exact c.read_suffix
    · exact (c.read.run_suffix _).trans c.read_suffix

/-- A process that sleeps forever makes no more calls. -/
theorem awake_of_now {c : SystemClock} (returns : c.now.2.hung = false) : c.hung = false := by
  rw [← hung_read]
  exact (run_returns returns).1

theorem awake_of_update {c : SystemClock} {remote : Int64} (returns : (c.update remote).hung = false) :
    c.hung = false := by
  rw [update] at returns
  split at returns
  · exact returns
  · split at returns
    · rwa [hung_read] at returns
    · rw [← hung_read]
      exact (run_returns returns).1

/-- What `Now` does: at the ceiling nothing, below it the state goes up to the result,
to the time of its last reading at least. -/
inductive Ticks (c : SystemClock) : Int64 × SystemClock → Prop where
  | saturated {c' : SystemClock} (full : Saturated c.clock.state) (state : c'.clock.state = c.clock.state) :
    Ticks c (maxInt64, c')
  | advanced {c' : SystemClock} (advances : Advances c.clock.state c'.clock.state)
    (late : (sample c'.wall).toNat * 65536 ≤ c'.clock.state.toNat) : Ticks c (c'.clock.state.toInt64, c')

/-- **`Now`**, when it returns. -/
theorem now_ticks {c : SystemClock} (returns : c.now.2.hung = false) : c.Ticks c.now := by
  have awake := (run_returns returns).2
  have last := c.read.run_fst (nowAttempt c.clock.state)
  have clock : c.now.2.clock = (c.read.run (nowAttempt c.clock.state)).1.leave c.clock := c.clock_read_run _
  have whole : c.now = ((c.read.run (nowAttempt c.clock.state)).1.result, c.now.2) := rfl
  cases done : (c.read.run (nowAttempt c.clock.state)).1 with
  | overflow => exact absurd done awake
  | saturated =>
    rw [done] at last clock whole
    rw [whole]
    exact .saturated (nowAttempt_saturated last.symm) (by rw [clock]; rfl)
  | swap newVal =>
    rw [done] at last clock whole
    obtain ⟨advances, late⟩ := nowAttempt_swap (sample_le _) last.symm
    have state : c.now.2.clock.state = newVal := by rw [clock]; rfl
    rw [whole, show (Attempt.swap newVal).result = c.now.2.clock.state.toInt64 by rw [state]; rfl]
    exact .advanced (state ▸ advances) (state ▸ late)

/-- **`Update`**, when it returns: the state does not go down, and a timestamp that is
taken in is left behind. -/
theorem update_spec {c : SystemClock} {remote : Int64} (returns : (c.update remote).hung = false) :
    c.clock.state.toNat ≤ (c.update remote).clock.state.toNat ∧
      (absorbs remote (sample c.read.wall) = true →
        remote.toInt < (c.update remote).clock.state.toNat ∨ Saturated (c.update remote).clock.state) := by
  have last := c.read.run_fst (updateAttempt remote.toUInt64 c.clock.state)
  rw [absorbs_iff]
  rw [update] at returns ⊢
  by_cases negative : remote < 0
  · rw [if_pos negative]
    exact ⟨le_rfl, fun absorbed => absurd negative absorbed.1⟩
  · rw [if_neg negative] at returns ⊢
    by_cases drifted : physical remote.toUInt64 > sample c.read.wall + 5000
    · rw [if_pos drifted, clock_read]
      exact ⟨le_rfl, fun absorbed => absurd drifted absorbed.2⟩
    · rw [if_neg drifted] at returns ⊢
      rw [clock_read_run]
      cases done : (c.read.run (updateAttempt remote.toUInt64 c.clock.state)).1 with
      | overflow => exact absurd done (run_returns returns).2
      | saturated =>
        rw [done] at last
        exact ⟨le_rfl, fun _ => Or.inr (updateAttempt_saturated last.symm)⟩
      | swap newVal =>
        rw [done] at last
        have valid := not_lt.mp negative
        obtain ⟨advances, above⟩ := updateAttempt_swap (sample_le _) (toNat_toUInt64_lt valid) last.symm
        refine ⟨advances.above.le, fun _ => Or.inl ?_⟩
        rw [← toNat_toUInt64 valid]
        exact_mod_cast above

end SystemClock

/-- A clock one second after the epoch; a millisecond passes between two readings. -/
def steadyClock : SystemClock := ⟨newClock, 1000, [1001, 1002, 1003, 1004, 1005, 1006], false⟩

/-! ## Calls that nobody interrupts -/

section Uninterrupted

variable {G : Type} [DecidableEq G]

theorem System.finish_move (s : System G) (g : G) (pc : Goroutine) (clock : Clock) (e : Event G) :
    (s.move g pc).finish g clock e = s.finish g clock e := by
  simp [System.finish, System.move]

/-- One of the two loops as goroutine `g` runs it: its two places, what it decides and
what it returns. -/
structure Loop (g : G) where
  atLoad : UInt64 → Goroutine
  atSwap : UInt64 → UInt64 → Goroutine
  attempt : UInt64 → UInt64 → Attempt
  event : Attempt → Event G
  load : ∀ (s : System G) now wall, s.goroutines g = atLoad now → s.load g wall =
    match attempt s.clock.state now with
    | .saturated => s.finish g { s.clock with saturationLogged := true } (event .saturated)
    | .overflow => s.move g (atLoad (sample wall))
    | .swap newVal => s.move g (atSwap s.clock.state newVal)
  swap : ∀ (s : System G) newVal wall, s.goroutines g = atSwap s.clock.state newVal →
    s.swap g wall = s.finish g { s.clock with state := newVal } (event (.swap newVal))

def nowLoop (g : G) : Loop g where
  atLoad := .nowLoad
  atSwap := .nowSwap
  attempt := nowAttempt
  event done := .now g done.result
  load s now wall here := by
    simp only [System.load, here]
    cases nowAttempt s.clock.state now <;> rfl
  swap s newVal wall here := by
    rw [System.swap, here]
    exact if_pos rfl

def updateLoop (g : G) (remote : Int64) : Loop g where
  atLoad := .updateLoad remote
  atSwap := .updateSwap remote
  attempt := updateAttempt remote.toUInt64
  event _ := .updated g remote
  load s now wall here := by
    cases attempt : updateAttempt remote.toUInt64 s.clock.state now <;> simp only [System.load, here, attempt]
  swap s newVal wall here := by
    rw [System.swap, here]
    exact if_pos rfl

namespace Loop

variable {g : G} (loop : Loop g) {s : System G} {wall : Int64}

/-- A turn that does not sleep: a load, and a swap on the state just loaded. -/
theorem turn (here : s.goroutines g = loop.atLoad (sample wall))
    (awake : loop.attempt s.clock.state (sample wall) ≠ .overflow) :
    ∃ actions, runFrom System.step s actions =
      s.finish g ((loop.attempt s.clock.state (sample wall)).leave s.clock)
        (loop.event (loop.attempt s.clock.state (sample wall))) := by
  have load := loop.load s (sample wall) wall here
  cases decided : loop.attempt s.clock.state (sample wall) with
  | overflow => exact absurd decided awake
  | saturated =>
    rw [decided] at load
    exact ⟨[.load g wall], load⟩
  | swap newVal =>
    rw [decided] at load
    have swap := loop.swap (s.move g (loop.atSwap s.clock.state newVal)) newVal wall (Function.update_self ..)
    rw [System.finish_move] at swap
    exact ⟨[.load g wall, .swap g wall], (congrArg (System.swap · g wall) load).trans swap⟩

/-- The loop runs to its end in the machine as `settle` says. -/
theorem settles (ahead : List Int64) (here : s.goroutines g = loop.atLoad (sample wall))
    (awake : (settle (loop.attempt s.clock.state) wall ahead).1 ≠ .overflow) :
    ∃ actions, runFrom System.step s actions =
      s.finish g ((settle (loop.attempt s.clock.state) wall ahead).1.leave s.clock)
        (loop.event (settle (loop.attempt s.clock.state) wall ahead).1) := by
  induction ahead generalizing s wall with
  | nil => exact loop.turn here awake
  | cons next rest ih =>
    by_cases sleeps : loop.attempt s.clock.state (sample wall) = .overflow
    · have again : settle (loop.attempt s.clock.state) wall (next :: rest) =
          settle (loop.attempt s.clock.state) next rest := by rw [settle, sleeps]
      rw [again] at awake ⊢
      have load : s.load g next = s.move g (loop.atLoad (sample next)) := by
        rw [loop.load s (sample wall) next here, sleeps]
      have moved : (s.move g (loop.atLoad (sample next))).goroutines g = loop.atLoad (sample next) :=
        Function.update_self ..
      obtain ⟨actions, run⟩ := ih moved awake
      rw [System.finish_move] at run
      refine ⟨.load g next :: actions, ?_⟩
      show runFrom System.step (s.load g next) actions = _
      rw [load]
      exact run
    · have stops : (settle (loop.attempt s.clock.state) wall (next :: rest)).1 =
          loop.attempt s.clock.state (sample wall) := by
        rw [settle]
        split
        · rename_i overflow
          exact absurd overflow sleeps
        · rfl
      rw [stops] at awake ⊢
      exact loop.turn here awake

/-- A call that has entered its loop leaves the clock as the sequential loop does. -/
theorem runs {c : SystemClock} (same : s.clock = c.clock)
    (awake : (c.read.run (loop.attempt c.clock.state)).1 ≠ .overflow) :
    ∃ actions, runFrom System.step (s.move g (loop.atLoad (sample c.read.wall))) actions =
      s.finish g (c.read.run (loop.attempt c.clock.state)).2.clock
        (loop.event (c.read.run (loop.attempt c.clock.state)).1) := by
  rw [← same] at awake
  have moved : (s.move g (loop.atLoad (sample c.read.wall))).goroutines g = loop.atLoad (sample c.read.wall) :=
    Function.update_self ..
  obtain ⟨actions, run⟩ := loop.settles c.read.ahead moved awake
  rw [System.finish_move] at run
  refine ⟨actions, run.trans ?_⟩
  rw [SystemClock.clock_read_run, ← same]
  rfl

end Loop

namespace SystemClock

/-- A goroutine that is not interrupted does what `now` says. -/
theorem now_uninterrupted {s : System G} {g : G} (idle : s.goroutines g = .idle) {c : SystemClock}
    (same : s.clock = c.clock) (returns : c.now.2.hung = false) :
    ∃ actions, runFrom System.step s actions = s.finish g c.now.2.clock (.now g c.now.1) := by
  obtain ⟨actions, run⟩ := (nowLoop g).runs same (run_returns returns).2
  refine ⟨.callNow g c.read.wall :: actions, ?_⟩
  have call : s.step (.callNow g c.read.wall) = s.move g (.nowLoad (sample c.read.wall)) := by
    simp only [System.step, idle]
  show runFrom System.step (s.step (.callNow g c.read.wall)) actions = _
  rw [call]
  exact run

/-- A goroutine that is not interrupted does what `update` says. -/
theorem update_uninterrupted {s : System G} {g : G} (idle : s.goroutines g = .idle) {c : SystemClock}
    (same : s.clock = c.clock) (remote : Int64) (returns : (c.update remote).hung = false) :
    ∃ actions e, runFrom System.step s actions = s.finish g (c.update remote).clock e := by
  by_cases absorbed : absorbs remote (sample c.read.wall) = true
  · have call : s.step (.callUpdate g remote c.read.wall) = s.move g (.updateLoad remote (sample c.read.wall)) := by
      simp only [System.step, idle, absorbed, if_true]
    have enters : c.update remote = (c.read.run (updateAttempt remote.toUInt64 c.clock.state)).2 := by
      rw [absorbs_iff] at absorbed
      rw [update, if_neg absorbed.1, if_neg absorbed.2]
    rw [enters] at returns ⊢
    obtain ⟨actions, run⟩ := (updateLoop g remote).runs same (run_returns returns).2
    refine ⟨.callUpdate g remote c.read.wall :: actions, .updated g remote, ?_⟩
    show runFrom System.step (s.step (.callUpdate g remote c.read.wall)) actions = _
    rw [call]
    exact run
  · have call : s.step (.callUpdate g remote c.read.wall) = s.finish g s.clock (.ignored g remote) := by
      simp only [System.step, idle, absorbed]
      rfl
    have ignores : (c.update remote).clock = c.clock := by
      rw [absorbs_iff, not_and_or, not_not, not_not] at absorbed
      rw [update]
      split
      · rfl
      · rename_i nonneg
        rw [if_pos (absorbed.resolve_left nonneg), clock_read]
    exact ⟨[.callUpdate g remote c.read.wall], .ignored g remote, call.trans (by rw [ignores, same])⟩

end SystemClock

end Uninterrupted

end Oryx.Hlc
