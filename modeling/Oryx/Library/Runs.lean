import Mathlib.Data.List.Induction

/-!
# Runs of a transition system

A step function over a list of actions, a condition on every step of a run
(`Along`), and the induction that carries an invariant along it. The invariant may
speak about the actions taken so far. What the steps put out along a run is a list
(`emitted`), and a queue between two outputs loses nothing exactly when no step does. A loop
over a list whose body may end it runs over a prefix of the list (`loop`, `visited`).
-/

namespace Oryx.Library
set_option autoImplicit false

variable {S A : Type*} {step : S → A → S}

/-- The state after a list of actions. -/
def runFrom (step : S → A → S) (s : S) (actions : List A) : S := actions.foldl step s

@[simp] theorem runFrom_nil (s : S) : runFrom step s [] = s := rfl

theorem runFrom_snoc (s : S) (actions : List A) (a : A) :
    runFrom step s (actions ++ [a]) = step (runFrom step s actions) a := by
  simp [runFrom]

theorem runFrom_append (s : S) (first second : List A) :
    runFrom step s (first ++ second) = runFrom step (runFrom step s first) second := List.foldl_append

/-- **The run rule**: an invariant of the actions taken and the state reached that
every step keeps holds after the whole run. -/
theorem runFrom_invariant {I : List A → S → Prop} {s : S} (start : I [] s)
    (keeps : ∀ past t a, I past t → I (past ++ [a]) (step t a)) (actions : List A) :
    I actions (runFrom step s actions) := by
  induction actions using List.reverseRecOn with
  | nil => exact start
  | append_singleton past a ih =>
    rw [runFrom_snoc]
    exact keeps past _ a ih

/-- Every step of the run meets `P` in the state it is taken in. -/
def Along (step : S → A → S) (P : S → A → Prop) : S → List A → Prop
  | _, [] => True
  | s, a :: rest => P s a ∧ Along step P (step s a) rest

instance Along.decidable {P : S → A → Prop} [∀ s a, Decidable (P s a)] :
    (s : S) → (actions : List A) → Decidable (Along step P s actions)
  | _, [] => inferInstanceAs (Decidable True)
  | s, a :: rest =>
    let _ := Along.decidable (P := P) (step s a) rest
    inferInstanceAs (Decidable (P s a ∧ Along step P (step s a) rest))

theorem along_snoc {P : S → A → Prop} {s : S} {actions : List A} {a : A} :
    Along step P s (actions ++ [a]) ↔ Along step P s actions ∧ P (runFrom step s actions) a := by
  induction actions generalizing s with
  | nil => simp [Along]
  | cons b rest ih =>
    rw [List.cons_append, Along, ih, Along, and_assoc]
    rfl

theorem Along.and_mem {P : S → A → Prop} {Q : A → Prop} {s : S} {actions : List A} (along : Along step P s actions)
    (all : ∀ a ∈ actions, Q a) : Along step (fun t a => P t a ∧ Q a) s actions := by
  induction actions generalizing s with
  | nil => trivial
  | cons a rest ih =>
    obtain ⟨here, later⟩ := List.forall_mem_cons.mp all
    exact ⟨⟨along.1, here⟩, ih along.2 later⟩

theorem Along.and {P Q : S → A → Prop} {s : S} {actions : List A} (first : Along step P s actions)
    (second : Along step Q s actions) : Along step (fun t a => P t a ∧ Q t a) s actions := by
  induction actions generalizing s with
  | nil => trivial
  | cons a rest ih => exact ⟨⟨first.1, second.1⟩, ih first.2 second.2⟩

/-- What the invariant and the condition give at each step holds along the run. -/
theorem Along.imp {P Q : S → A → Prop} {I : S → Prop} (keeps : ∀ t a, I t → P t a → I (step t a))
    (gives : ∀ t a, I t → P t a → Q t a) {s : S} (start : I s) {actions : List A} (along : Along step P s actions) :
    Along step Q s actions := by
  induction actions generalizing s with
  | nil => trivial
  | cons a rest ih =>
    obtain ⟨here, later⟩ := along
    exact ⟨gives s a start here, ih (keeps s a start here) later⟩

/-- What an invariant gives at each step holds along every run. -/
theorem along_of_invariant {Q : S → A → Prop} {I : S → Prop} (keeps : ∀ t a, I t → I (step t a))
    (gives : ∀ t a, I t → Q t a) {s : S} (start : I s) (actions : List A) : Along step Q s actions := by
  induction actions generalizing s with
  | nil => trivial
  | cons a rest ih => exact ⟨gives s a start, ih (keeps s a start)⟩

/-- The run rule under a condition on the steps. -/
theorem Along.invariant {P : S → A → Prop} {I : List A → S → Prop} {s : S} (start : I [] s)
    (keeps : ∀ past t a, I past t → P t a → I (past ++ [a]) (step t a)) {actions : List A}
    (along : Along step P s actions) : I actions (runFrom step s actions) := by
  induction actions using List.reverseRecOn with
  | nil => exact start
  | append_singleton past a ih =>
    obtain ⟨before, here⟩ := along_snoc.mp along
    rw [runFrom_snoc]
    exact keeps past _ a (ih before) here

/-! ## Calls of several steps -/

/-- **The run rule for every moment**: calls are lists of steps that are made one after the
other; what holds at every moment of each call holds at every moment of the run. -/
theorem runFrom_moments {B : Type*} {steps : B → List A} {Q : B → Prop} {I : List A → S → Prop} {s : S}
    (start : I [] s)
    (keeps : ∀ past t b, I past t → Q b → ∀ part, part <+: steps b → I (past ++ part) (runFrom step t part))
    {calls : List B} (all : ∀ b ∈ calls, Q b) {part : List A} (moment : part <+: calls.flatMap steps) :
    I part (runFrom step s part) := by
  induction calls using List.reverseRecOn generalizing part with
  | nil =>
    rw [List.prefix_nil.mp moment]
    exact start
  | append_singleton past b ih =>
    have before : ∀ b ∈ past, Q b := fun b member => all b (List.mem_append_left _ member)
    rw [List.flatMap_append, List.flatMap_singleton] at moment
    rcases List.prefix_or_prefix_of_prefix moment (List.prefix_append ..) with within | ⟨rest, rfl⟩
    · exact ih before within
    · have inside := (List.prefix_append_right_inj _).mp moment
      rw [runFrom_append]
      exact keeps _ _ b (ih before List.prefix_rfl) (all b (List.mem_append_right _ (List.mem_singleton_self b))) rest
        inside

/-! ## Outputs -/

variable {B : Type*} {out goesIn goesOut : S → A → List B}

/-- What the steps of a run put out, in order. -/
def emitted (step : S → A → S) (out : S → A → List B) : S → List A → List B
  | _, [] => []
  | s, a :: rest => out s a ++ emitted step out (step s a) rest

theorem emitted_append (s : S) (first second : List A) :
    emitted step out s (first ++ second) =
      emitted step out s first ++ emitted step out (runFrom step s first) second := by
  induction first generalizing s with
  | nil => rfl
  | cons a rest ih =>
    rw [List.cons_append, emitted, ih, emitted, List.append_assoc]
    rfl

theorem emitted_snoc (s : S) (past : List A) (a : A) :
    emitted step out s (past ++ [a]) = emitted step out s past ++ out (runFrom step s past) a := by
  rw [emitted_append, emitted, emitted, List.append_nil]

/-- **Conservation along a run**: at every point of it, what went into a queue is what came
out of it followed by what it holds, exactly when every single step keeps the account. -/
theorem conserved_iff_along (queue : S → List B) (s : S) (actions : List A) :
    (∀ past, past <+: actions →
        queue s ++ emitted step goesIn s past = emitted step goesOut s past ++ queue (runFrom step s past)) ↔
      Along step (fun t a => queue t ++ goesIn t a = goesOut t a ++ queue (step t a)) s actions := by
  induction actions generalizing s with
  | nil =>
    refine iff_of_true (fun past within => ?_) trivial
    rw [List.prefix_nil.mp within]
    simp [emitted]
  | cons a rest ih =>
    have account (here : queue s ++ goesIn s a = goesOut s a ++ queue (step s a)) (past : List A) :
        queue s ++ emitted step goesIn s (a :: past) =
            emitted step goesOut s (a :: past) ++ queue (runFrom step s (a :: past)) ↔
          queue (step s a) ++ emitted step goesIn (step s a) past =
            emitted step goesOut (step s a) past ++ queue (runFrom step (step s a) past) := by
      rw [emitted, emitted, ← List.append_assoc, here, List.append_assoc, List.append_assoc,
        List.append_cancel_left_eq]
      rfl
    rw [Along, ← ih]
    constructor
    · intro conserved
      have here : queue s ++ goesIn s a = goesOut s a ++ queue (step s a) := by
        simpa [emitted, runFrom] using conserved [a] (by simp)
      refine ⟨here, fun past within => (account here past).mp (conserved (a :: past) ?_)⟩
      exact List.cons_prefix_cons.mpr ⟨rfl, within⟩
    · rintro ⟨here, later⟩ past within
      cases past with
      | nil => simp [emitted]
      | cons b past =>
        obtain ⟨same, inside⟩ := List.cons_prefix_cons.mp within
        rw [same]
        exact (account here past).mpr (later past inside)

/-! ## Loops that may stop -/

variable {body : S → A → Bool × S}

/-- A loop whose body says whether to go on; the result says whether it ran through. -/
def loop (body : S → A → Bool × S) : S → List A → Bool × S
  | s, [] => (true, s)
  | s, a :: rest => if (body s a).1 then loop body (body s a).2 rest else (false, (body s a).2)

/-- The elements the body is given: up to the first one at which it stops. -/
def visited (body : S → A → Bool × S) : S → List A → List A
  | _, [] => []
  | s, a :: rest => a :: if (body s a).1 then visited body (body s a).2 rest else []

theorem loop_append (s : S) (first second : List A) :
    loop body s (first ++ second) =
      if (loop body s first).1 then loop body (loop body s first).2 second else loop body s first := by
  induction first generalizing s with
  | nil => rfl
  | cons a rest ih =>
    rw [List.cons_append, loop, loop]
    split
    · exact ih _
    · rfl

/-- A loop inside a loop is one loop. -/
theorem loop_flatMap (f : B → List A) (s : S) (l : List B) :
    loop (fun s b => loop body s (f b)) s l = loop body s (l.flatMap f) := by
  induction l generalizing s with
  | nil => rfl
  | cons b rest ih =>
    rw [List.flatMap_cons, loop_append, loop]
    split
    · exact ih _
    · rename_i stopped
      rw [← Bool.eq_false_iff.mpr stopped]

theorem loop_eq_foldl (s : S) (l : List A) :
    (loop body s l).2 = (visited body s l).foldl (fun s a => (body s a).2) s := by
  induction l generalizing s with
  | nil => rfl
  | cons a rest ih =>
    rw [loop, visited, List.foldl_cons]
    split
    · exact ih _
    · rfl

theorem visited_prefix (s : S) (l : List A) : visited body s l <+: l := by
  induction l generalizing s with
  | nil => exact List.prefix_rfl
  | cons a rest ih =>
    rw [visited, List.cons_prefix_cons]
    refine ⟨rfl, ?_⟩
    split
    · exact ih _
    · exact List.nil_prefix

theorem visited_eq (goesOn : ∀ s a, (body s a).1 = true) (s : S) (l : List A) : visited body s l = l := by
  induction l generalizing s with
  | nil => rfl
  | cons a rest ih => rw [visited, if_pos (goesOn s a), ih]

end Oryx.Library
