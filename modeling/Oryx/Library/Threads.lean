import Mathlib.Logic.Function.Basic

/-!
# Threads over a shared memory

Any number of threads, each at a point of its program, over one memory. A step of a thread
reads and writes the memory and moves the thread on; the other threads stay where they are. What
is asserted at the points of the programs holds after a step when the thread that moves
establishes its own next assertion and does not interfere with those of the others.
-/

namespace Oryx.Library
set_option autoImplicit false

/-- The memory, and where each thread is. -/
structure Threads (M I P : Type*) where
  mem : M
  phases : I → P

namespace Threads

variable {M I P A : Type*} [DecidableEq I] {next : M → I → P → A → M × P} {s : Threads M I P}

/-- A step of one thread. -/
def step (next : M → I → P → A → M × P) (s : Threads M I P) (a : I × A) : Threads M I P where
  mem := (next s.mem a.1 (s.phases a.1) a.2).1
  phases := Function.update s.phases a.1 (next s.mem a.1 (s.phases a.1) a.2).2

theorem phases_step_self (i : I) (a : A) : (s.step next (i, a)).phases i = (next s.mem i (s.phases i) a).2 :=
  Function.update_self ..

theorem phases_step_ne {i j : I} (other : j ≠ i) (a : A) : (s.step next (i, a)).phases j = s.phases j :=
  Function.update_of_ne other ..

/-- **Freedom from interference**: assertions about all threads after a step of one. -/
theorem forall_step {before after : I → P → Prop} (asserted : ∀ j, before j (s.phases j)) {i : I} {a : A}
    (own : after i (next s.mem i (s.phases i) a).2) (others : ∀ j, j ≠ i → ∀ p, before j p → after j p) (j : I) :
    after j ((s.step next (i, a)).phases j) := by
  by_cases self : j = i
  · subst self
    rw [phases_step_self]
    exact own
  · rw [phases_step_ne self]
    exact others j self _ (asserted j)

/-- A thread with a property, after a step that this thread or another one takes. -/
theorem exists_step {before after : P → Prop} {i j : I} {a : A} (found : before (s.phases j))
    (own : before (s.phases i) → after (next s.mem i (s.phases i) a).2) (others : ∀ p, before p → after p) :
    after ((s.step next (i, a)).phases j) := by
  by_cases self : j = i
  · subst self
    rw [phases_step_self]
    exact own found
  · rw [phases_step_ne self]
    exact others _ found

end Threads

end Oryx.Library
