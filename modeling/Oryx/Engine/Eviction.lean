import Oryx.Clock.System
import Oryx.Wal.Protobuf
import Oryx.Engine.Calls

/-!
# Evictions next to other calls

A TTL eviction draws a timestamp and then stores its tombstone over whatever it finds.
Every other write goes through `StoreLWW`, so evictions are the only steps that can
take a record down: they do so exactly when the record they find does not lose to
their tombstone.
-/

namespace Oryx.Core
set_option autoImplicit false
open Oryx.Library Oryx.Hashmap Oryx.Writer Oryx.Hlc

section Eviction

variable {count : Nat} {C I : Type} [NeZero count] [DecidableEq I] [Security] [Proto] [Clocker C]

/-- No call evicts for capacity. -/
def KeepsKeys : CallAction I → Prop
  | .call _ (.evict _ reason) => reason = .ttl
  | _ => True

instance : DecidablePred (KeepsKeys : CallAction I → Prop)
  | .call _ (.evict _ reason) => inferInstanceAs (Decidable (reason = .ttl))
  | .call _ (.op _) | .call _ (.apply _) | .run _ => isTrue trivial

namespace Callers

/-- Every record stays or makes way for one strictly above it. -/
def MovesUp (s : Callers count C I) (a : CallAction I) : Prop :=
  ∀ key old, s.eng.sw.hm.cell hashFunc key = some old →
    ∃ new, (s.step a).eng.sw.hm.cell hashFunc key = some new ∧ (new = old ∨ rank old < rank new)

/-- The record that an eviction finds is its tombstone or loses to it. -/
def Yields (s : Callers count C I) : CallAction I → Prop
  | .run id => ∀ eviction ∈ (s.pcs id).evicts, ∀ old ∈ s.eng.sw.hm.cell hashFunc eviction.2.key,
      old = record (.delete eviction.2) ∨ lwwWins old (record (.delete eviction.2)) = true
  | .call _ _ => True

/-- No call is on its way to forget a key. -/
structure Keeping (s : Callers count C I) : Prop where
  inv : s.eng.sw.hm.Inv hashFunc
  keeps : ∀ id, (s.pcs id).forgets = false

variable {s : Callers count C I} {a : CallAction I}

/-- A capacity eviction moves on as one. -/
theorem forgets_run (s : Callers count C I) (id : I) :
    ∃ pc, (s.run id).pcs = Function.update s.pcs id pc ∧ (pc.forgets = true → (s.pcs id).forgets = true) := by
  cases here : s.pcs id with
  | fresh | finished => exact ⟨s.pcs id, by simp [run, here], by simp [here]⟩
  | evictNow key reason =>
    refine ⟨.evictStore reason ⟨key, s.eng.tick.1, s.eng.nodeID⟩, by simp [run, here, tick], ?_⟩
    cases reason <;> simp [Pc.forgets]
  | deleteLoad key =>
    refine ⟨_, by simp only [run, here]; rfl, ?_⟩
    split <;> intro forgets <;> cases forgets
  | store res r =>
    refine ⟨_, by simp only [run, here]; rfl, ?_⟩
    split <;> intro forgets <;> cases forgets
  | returning res err =>
    refine ⟨.finished, ?_, fun forgets => ?_⟩
    · cases res <;> simp [run, here, goto]
    · cases forgets
  | _ =>
    refine ⟨_, by simp only [run, here]; rfl, fun forgets => ?_⟩
    cases forgets

omit [DecidableEq I] [Security] [Proto] in
/-- A call that keeps its key begins as one. -/
theorem forgets_first {c : Call} {id : I} (keeps : KeepsKeys (.call id c)) : (Pc.first c).forgets = false := by
  match c, keeps with
  | .op (.get _), _ | .op (.set _ _), _ | .op (.delete _), _ | .apply _, _ => rfl
  | .evict _ _, rfl => rfl

omit [NeZero count] [Security] [Proto] [Clocker C] in
theorem pcs_call (s : Callers count C I) (id : I) (c : Call) :
    (s.call id c).pcs = s.pcs ∨ (s.call id c).pcs = Function.update s.pcs id (Pc.first c) := by
  simp only [call]
  split
  · exact Or.inr rfl
  · exact Or.inr rfl
  · exact Or.inl rfl

theorem Keeping.step (keeping : s.Keeping) (keeps : KeepsKeys a) : (s.step a).Keeping := by
  have moved {pcs : I → Pc} {id : I} {pc : Pc} (update : pcs = Function.update s.pcs id pc) (kept : pc.forgets = false)
      (id' : I) : (pcs id').forgets = false := by
    rw [update]
    by_cases here : id' = id
    · rw [here, Function.update_self]
      exact kept
    · rw [Function.update_of_ne here]
      exact keeping.keeps id'
  constructor
  · exact inv_step keeping.inv a
  · cases a with
    | run id =>
      obtain ⟨pc, pcs, inherits⟩ := forgets_run s id
      refine moved pcs (Bool.eq_false_iff.mpr fun forgets => ?_)
      rw [keeping.keeps] at inherits
      cases inherits forgets
    | call id c =>
      rcases pcs_call s id c with same | update
      · rw [Callers.step, same]
        exact keeping.keeps
      · exact moved update (forgets_first keeps)

omit [NeZero count] [DecidableEq I] [Proto] [Clocker C] in
/-- A TTL eviction stores its tombstone over whatever is there. -/
theorem Keeping.cell_evict {id : I} {reason : Reason} {req : DeleteRequest} (keeping : s.Keeping)
    (here : s.pcs id = .evictStore reason req) :
    (s.eng.evictMap reason req).sw.hm.cell hashFunc =
      Function.update (s.eng.sw.hm.cell hashFunc) req.key (some (record (.delete req))) := by
  cases reason with
  | ttl => exact (Engine.evictMap_spec keeping.inv .ttl req).2
  | capacity =>
    have forgets := keeping.keeps id
    rw [here] at forgets
    cases forgets

/-- **One step** moves records up exactly when an eviction's tombstone does. -/
theorem Keeping.movesUp_iff (keeping : s.Keeping) : s.MovesUp a ↔ s.Yields a := by
  constructor
  · intro up
    cases a with
    | call id c => trivial
    | run id =>
      rintro ⟨reason, req⟩ evicts old held
      have here : s.pcs id = .evictStore reason req := by
        generalize s.pcs id = pc at evicts
        cases pc <;> cases evicts
        rfl
      obtain ⟨new, stored, moved⟩ := up req.key old held
      simp only [Callers.step, run, here] at stored
      rw [keeping.cell_evict here, Function.update_self] at stored
      obtain rfl := Option.some.inj stored
      exact moved.imp Eq.symm lwwWins_iff.mpr
  · intro yields key old held
    have moves := hm_step s a
    generalize (s.step a).eng.sw.hm = hm at moves
    cases moves with
    | kept => exact ⟨old, held, Or.inl rfl⟩
    | stored acts here => exact merge_moves_up keeping.inv _ held
    | @evicted id reason req acts here =>
      subst acts
      rw [keeping.cell_evict here]
      by_cases same : key = req.key
      · subst same
        rw [Function.update_self]
        have beats := yields (reason, req) (by rw [here]; rfl) old held
        exact ⟨_, rfl, beats.imp Eq.symm lwwWins_iff.mp⟩
      · rw [Function.update_of_ne same]
        exact ⟨old, held, Or.inl rfl⟩

/-- **Records only move up** in a run of overlapping calls with TTL evictions, at every
step, exactly when every eviction finds a record that loses to its tombstone. -/
theorem moves_up_iff (config : Config) (clock : C) (disk : Disk) (choices : Choices) {actions : List (CallAction I)}
    (ttl : ∀ a ∈ actions, KeepsKeys a) :
    Along step MovesUp (start (newEngine count config clock disk choices)) actions ↔
      Along step Yields (start (newEngine count config clock disk choices)) actions := by
  have begins : Keeping (start (newEngine count config clock disk choices) : Callers count C I) :=
    ⟨newEngine_inv config clock disk choices, fun _ => rfl⟩
  constructor
  · intro up
    exact Along.imp (I := Keeping) (fun s a keeping here => keeping.step here.2)
      (fun s a keeping here => keeping.movesUp_iff.mp here.1) begins (up.and_mem ttl)
  · intro yields
    exact Along.imp (I := Keeping) (fun s a keeping here => keeping.step here.2)
      (fun s a keeping here => keeping.movesUp_iff.mpr here.1) begins (yields.and_mem ttl)

instance (s : Callers count C I) : DecidablePred s.Yields
  | .run id => inferInstanceAs (Decidable (∀ eviction ∈ (s.pcs id).evicts,
      ∀ old ∈ s.eng.sw.hm.cell hashFunc eviction.2.key,
        old = record (.delete eviction.2) ∨ lwwWins old (record (.delete eviction.2)) = true))
  | .call _ _ => isTrue trivial

end Callers

end Eviction

open Reference Protobuf

/-- A `Set`, then an eviction of its key that nobody interrupts. -/
theorem moves_up_iff_uninterrupted :
    Along Callers.step Callers.MovesUp
      (Callers.start (newEngine 1 durable steadyClock (.logOnly fun _ => []) .plain) : Callers 1 SystemClock (Fin 2))
      (.call 0 (.op (.set [97] [1])) :: List.replicate 5 (.run 0) ++
        .call 1 (.evict [97] .ttl) :: List.replicate 4 (.run 1)) :=
  (Callers.moves_up_iff durable steadyClock (.logOnly fun _ => []) .plain (by decide)).mpr (by decide +kernel)

/-- **A record moves down**: a `Set` completes between the clock reading of an eviction
and its tombstone. -/
theorem evict_moves_down :
    let s : Callers 1 SystemClock (Fin 2) :=
      runFrom Callers.step (Callers.start (newEngine 1 durable steadyClock (.logOnly fun _ => []) .plain))
        (.call 1 (.evict [97] .ttl) :: .run 1 :: .call 0 (.op (.set [97] [1])) :: List.replicate 5 (.run 0))
    s.pcs 1 = .evictStore .ttl ⟨[97], 1001 * 65536, [110]⟩ ∧
      s.eng.sw.hm.load [97] (hashFunc [97]) = some ⟨[110], [1], 1002 * 65536, false, 0⟩ ∧
      ¬s.MovesUp (.run 1) := by
  intro s
  refine ⟨by decide +kernel, by decide +kernel, fun up => ?_⟩
  have before : (s.eng.sw.hm.cell hashFunc [97]).map Value.timestamp = some (1002 * 65536) := by decide +kernel
  have after : ((s.step (.run 1)).eng.sw.hm.cell hashFunc [97]).map Value.timestamp = some (1001 * 65536) := by
    decide +kernel
  obtain ⟨old, held, late⟩ := Option.map_eq_some_iff.mp before
  obtain ⟨new, stored, moved⟩ := up [97] old held
  rw [stored] at after
  have early : new.timestamp = 1001 * 65536 := Option.some.inj after
  have notDown : old.timestamp ≤ new.timestamp := by
    rcases moved with rfl | above
    · exact le_rfl
    · exact timestamp_le_of_rank_le above.le
  rw [late, early] at notDown
  exact absurd notDown (by decide)

end Oryx.Core
