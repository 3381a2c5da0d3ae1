import Mathlib.Data.List.Induction
import Mathlib.Data.Set.Basic

/-!
# Knowledge that is passed on

Parties that know something each, and pull from one another: a puller adds what the other
one knows at that moment. What a party knows in the end is what those knew at the start
from whom there is a chain of pulls in the right order (`mem_spread`); who these are does
not depend on what is passed on (`sources`).
-/

namespace Oryx.Library
set_option autoImplicit false

variable {N α : Type*} [DecidableEq N]

/-- The first party of the pair learns what the second one knows. -/
def learn (know : N → Set α) (pull : N × N) : N → Set α :=
  Function.update know pull.1 (know pull.1 ∪ know pull.2)

/-- What the parties know after a list of pulls. -/
def spread (know : N → Set α) (pulls : List (N × N)) : N → Set α := pulls.foldl learn know

/-- The parties whose knowledge at the start has come to the party. -/
def sources (pulls : List (N × N)) : N → List N :=
  pulls.foldl (fun known pull => Function.update known pull.1 (known pull.1 ++ known pull.2)) fun p => [p]

theorem spread_append (know : N → Set α) (first second : List (N × N)) :
    spread know (first ++ second) = spread (spread know first) second := List.foldl_append

theorem sources_snoc (pulls : List (N × N)) (pull : N × N) :
    sources (pulls ++ [pull]) =
      Function.update (sources pulls) pull.1 (sources pulls pull.1 ++ sources pulls pull.2) := by
  simp [sources]

/-- **Gossip**: a party knows what its sources knew. -/
theorem mem_spread {know : N → Set α} {pulls : List (N × N)} {q : N} {x : α} :
    x ∈ spread know pulls q ↔ ∃ p ∈ sources pulls q, x ∈ know p := by
  induction pulls using List.reverseRecOn generalizing q with
  | nil => simp [spread, sources]
  | append_singleton pulls pull ih =>
    have last : spread know (pulls ++ [pull]) = learn (spread know pulls) pull := spread_append know pulls [pull]
    rw [last, sources_snoc, learn]
    by_cases same : q = pull.1
    · subst same
      rw [Function.update_self, Function.update_self, Set.mem_union, ih, ih]
      simp only [List.mem_append, or_and_right, exists_or]
    · rw [Function.update_of_ne same, Function.update_of_ne same, ih]

end Oryx.Library
