import Mathlib.Data.List.Nodup
import Mathlib.Logic.Function.Basic
import Mathlib.Logic.Relation

/-!
# Linearizability

Histories of overlapping operations on one object, and the object's sequential
meaning `apply`. A history is linearizable when its operations can be ordered so that
one after the other they give the answers of the history, and so that an operation
that returned before another was called comes first; an operation that has not
returned may take its place in the order or be left out. The atomic object performs
every operation in one step between its call and its return. All its histories are
linearizable, so it is enough that an implementation can be followed by it.
-/

namespace Oryx.Library
set_option autoImplicit false
open scoped List

universe u v w x

variable {I : Type u} {Op : Type v} {Res : Type w} {S : Type x}

inductive HistoryEvent (I : Type u) (Op : Type v) (Res : Type w) where
  | call (id : I) (op : Op)
  | ret (id : I) (res : Res)
  deriving DecidableEq, Repr

/-- An operation in its place in the order, with its answer. -/
structure Effect (I : Type u) (Op : Type v) (Res : Type w) where
  id : I
  op : Op
  res : Res
  deriving DecidableEq, Repr

/-- The object after the operations. -/
def perform (apply : S → Op → S × Res) (s : S) (order : List (Effect I Op Res)) : S :=
  order.foldl (fun s e => (apply s e.op).1) s

/-- One after the other, the operations give their answers. -/
def Legal (apply : S → Op → S × Res) : S → List (Effect I Op Res) → Prop
  | _, [] => True
  | s, e :: rest => (apply s e.op).2 = e.res ∧ Legal apply (apply s e.op).1 rest

instance Legal.decidable [DecidableEq Res] (apply : S → Op → S × Res) :
    (s : S) → (order : List (Effect I Op Res)) → Decidable (Legal apply s order)
  | _, [] => inferInstanceAs (Decidable True)
  | s, e :: rest =>
    let _ := Legal.decidable apply (apply s e.op).1 rest
    inferInstanceAs (Decidable ((apply s e.op).2 = e.res ∧ Legal apply (apply s e.op).1 rest))

/-- The order explains the history. -/
structure Linearizes (apply : S → Op → S × Res) (init : S) (history : List (HistoryEvent I Op Res))
    (order : List (Effect I Op Res)) : Prop where
  legal : Legal apply init order
  distinct : (order.map Effect.id).Nodup
  called : ∀ e ∈ order, .call e.id e.op ∈ history
  answered : ∀ id res, .ret id res ∈ history → ∃ op, ⟨id, op, res⟩ ∈ order
  realTime : ∀ first second res op, [.ret first res, .call second op] <+ history →
    second ∈ order.map Effect.id → [first, second] <+ order.map Effect.id

def Linearizable (apply : S → Op → S × Res) (init : S) (history : List (HistoryEvent I Op Res)) : Prop :=
  ∃ order, Linearizes apply init history order

section Orders

variable {apply : S → Op → S × Res} {init : S} {history : List (HistoryEvent I Op Res)}
  {order : List (Effect I Op Res)}

theorem perform_snoc (s : S) (order : List (Effect I Op Res)) (e : Effect I Op Res) :
    perform apply s (order ++ [e]) = (apply (perform apply s order) e.op).1 := by
  simp [perform]

theorem legal_snoc {s : S} {e : Effect I Op Res} :
    Legal apply s (order ++ [e]) ↔ Legal apply s order ∧ (apply (perform apply s order) e.op).2 = e.res := by
  induction order generalizing s with
  | nil => simp [Legal, perform]
  | cons first rest ih =>
    rw [List.cons_append, Legal, ih, Legal, and_assoc]
    rfl

/-- Of two events in order, the second is the last one or both came before it. -/
theorem pair_sublist_snoc {α : Type*} {x y z : α} {l : List α} (pair : [x, y] <+ l ++ [z]) :
    [x, y] <+ l ∨ x ∈ l ∧ y = z := by
  obtain ⟨front, back, split, inFront, inBack⟩ := List.sublist_append_iff.mp pair
  rcases List.sublist_singleton.mp inBack with rfl | rfl
  · rw [List.append_nil] at split
    exact Or.inl (split ▸ inFront)
  · match front, split with
    | [], split => cases split
    | [w], split =>
      obtain ⟨rfl, last⟩ := List.cons.inj split
      exact Or.inr ⟨inFront.subset List.mem_cons_self, (List.cons.inj last).1⟩
    | w :: w' :: more, split => cases more <;> cases split

/-- An operation is in the order with its answer. -/
theorem Linearizes.eq_of_ret (lin : Linearizes apply init history order) {e : Effect I Op Res} (member : e ∈ order)
    {res : Res} (returned : .ret e.id res ∈ history) : e.res = res := by
  obtain ⟨op, inOrder⟩ := lin.answered e.id res returned
  exact congrArg Effect.res (List.inj_on_of_nodup_map lin.distinct member inOrder rfl)

theorem Linearizes.start : Linearizes apply init ([] : List (HistoryEvent I Op Res)) [] :=
  ⟨trivial, List.nodup_nil, by simp, by simp, by simp⟩

/-- A call that is not in the history yet. -/
theorem Linearizes.call (lin : Linearizes apply init history order) {id : I} (new : ∀ op, .call id op ∉ history)
    (op : Op) : Linearizes apply init (history ++ [.call id op]) order where
  legal := lin.legal
  distinct := lin.distinct
  called e member := List.mem_append_left _ (lin.called e member)
  answered id' res member := by
    rcases List.mem_append.mp member with before | last
    · exact lin.answered id' res before
    · simp at last
  realTime first second res op' pair member := by
    rcases pair_sublist_snoc pair with before | ⟨-, last⟩
    · exact lin.realTime first second res op' before member
    · obtain ⟨e, inOrder, rfl⟩ := List.mem_map.mp member
      obtain ⟨same, -⟩ := HistoryEvent.call.inj last
      exact absurd (lin.called e inOrder) (same ▸ new e.op)

/-- A called operation takes effect now. -/
theorem Linearizes.commit (lin : Linearizes apply init history order) {e : Effect I Op Res}
    (called : .call e.id e.op ∈ history) (new : e.id ∉ order.map Effect.id)
    (answer : (apply (perform apply init order) e.op).2 = e.res) :
    Linearizes apply init history (order ++ [e]) where
  legal := legal_snoc.mpr ⟨lin.legal, answer⟩
  distinct := by
    rw [List.map_append, List.nodup_append]
    exact ⟨lin.distinct, List.nodup_singleton _, by
      rintro a member b last rfl
      rw [List.map_singleton, List.mem_singleton] at last
      exact new (last ▸ member)⟩
  called e' member := by
    rcases List.mem_append.mp member with before | last
    · exact lin.called e' before
    · rwa [List.mem_singleton.mp last]
  answered id res member := by
    obtain ⟨op, inOrder⟩ := lin.answered id res member
    exact ⟨op, List.mem_append_left _ inOrder⟩
  realTime first second res op pair member := by
    rw [List.map_append, List.map_singleton] at member ⊢
    rcases List.mem_append.mp member with before | last
    · exact (lin.realTime first second res op pair before).trans (List.sublist_append_left _ _)
    · obtain ⟨op', inOrder⟩ := lin.answered first res (pair.subset List.mem_cons_self)
      rw [List.mem_singleton.mp last]
      have front : [first] <+ order.map Effect.id := List.singleton_sublist.mpr (List.mem_map_of_mem inOrder)
      exact front.append (List.Sublist.refl [e.id])

/-- An operation that has taken effect returns. -/
theorem Linearizes.ret (lin : Linearizes apply init history order) {e : Effect I Op Res} (inOrder : e ∈ order) :
    Linearizes apply init (history ++ [.ret e.id e.res]) order where
  legal := lin.legal
  distinct := lin.distinct
  called e' member := List.mem_append_left _ (lin.called e' member)
  answered id res member := by
    rcases List.mem_append.mp member with before | last
    · exact lin.answered id res before
    · obtain ⟨rfl, rfl⟩ := HistoryEvent.ret.inj (List.mem_singleton.mp last)
      exact ⟨e.op, inOrder⟩
  realTime first second res op pair member := by
    rcases pair_sublist_snoc pair with before | ⟨-, last⟩
    · exact lin.realTime first second res op before member
    · cases last

end Orders

/-- A property of an updated function holds of the new value, or of the old one elsewhere. -/
theorem update_cases {α β : Type*} [DecidableEq α] {f : α → β} {i j : α} {new : β} (P : β → Prop)
    (updated : P (Function.update f i new j)) : j = i ∧ P new ∨ j ≠ i ∧ P (f j) := by
  by_cases here : j = i
  · subst here
    rw [Function.update_self] at updated
    exact Or.inl ⟨rfl, updated⟩
  · rw [Function.update_of_ne here] at updated
    exact Or.inr ⟨here, updated⟩

/-! ## The atomic object -/

inductive Status (Op : Type v) (Res : Type w) where
  | fresh
  | called (op : Op)
  /-- the operation has taken effect and has not returned -/
  | committed (op : Op) (res : Res)
  | returned

/-- A waiting operation after it took effect with the expected answer. -/
def Status.helped (answer : Op → Res) : Status Op Res → Status Op Res
  | .called op => .committed op (answer op)
  | other => other

structure Atomic (I : Type u) (Op : Type v) (Res : Type w) (S : Type x) where
  state : S
  status : I → Status Op Res
  history : List (HistoryEvent I Op Res)

namespace Atomic

variable [DecidableEq I]

def start (I : Type u) (Op : Type v) (Res : Type w) (init : S) : Atomic I Op Res S := ⟨init, fun _ => .fresh, []⟩

/-- `id` is called. -/
def call (a : Atomic I Op Res S) (id : I) (op : Op) : Atomic I Op Res S :=
  { a with status := Function.update a.status id (.called op), history := a.history ++ [.call id op] }

/-- `id` takes effect. -/
def commit (apply : S → Op → S × Res) (a : Atomic I Op Res S) (id : I) (op : Op) : Atomic I Op Res S :=
  { a with
    state := (apply a.state op).1
    status := Function.update a.status id (.committed op (apply a.state op).2) }

/-- `id` returns. -/
def ret (a : Atomic I Op Res S) (id : I) (res : Res) : Atomic I Op Res S :=
  { a with status := Function.update a.status id .returned, history := a.history ++ [.ret id res] }

inductive Step (apply : S → Op → S × Res) (a : Atomic I Op Res S) : Atomic I Op Res S → Prop where
  | call {id : I} (op : Op) (fresh : a.status id = .fresh) : Step apply a (a.call id op)
  | commit {id : I} {op : Op} (called : a.status id = .called op) : Step apply a (a.commit apply id op)
  | ret {id : I} {op : Op} {res : Res} (committed : a.status id = .committed op res) : Step apply a (a.ret id res)

abbrev Reaches (apply : S → Op → S × Res) : Atomic I Op Res S → Atomic I Op Res S → Prop :=
  Relation.ReflTransGen (Step apply)

variable {apply : S → Op → S × Res} {init : S} {a a' : Atomic I Op Res S}

/-- What the states of the calls say about the order so far. -/
structure Inv (apply : S → Op → S × Res) (init : S) (a : Atomic I Op Res S) (order : List (Effect I Op Res)) :
    Prop where
  linearizes : Linearizes apply init a.history order
  state : perform apply init order = a.state
  fresh : ∀ id, a.status id = .fresh → ∀ op, .call id op ∉ a.history
  called : ∀ id op, a.status id = .called op → .call id op ∈ a.history ∧ id ∉ order.map Effect.id
  committed : ∀ id op res, a.status id = .committed op res → ⟨id, op, res⟩ ∈ order

omit [DecidableEq I] in
theorem Inv.start : (start I Op Res init).Inv apply init [] where
  linearizes := .start
  state := rfl
  fresh _ _ _ := List.not_mem_nil
  called _ _ waiting := by cases waiting
  committed _ _ _ done := by cases done

/-- A call whose status has just changed, or another one. -/
theorem status_cases {status : I → Status Op Res} {id id' : I} {new now : Status Op Res}
    (updated : Function.update status id new id' = now) : id' = id ∧ new = now ∨ id' ≠ id ∧ status id' = now :=
  update_cases (· = now) updated

theorem Inv.call {order : List (Effect I Op Res)} (inv : a.Inv apply init order) {id : I} (op : Op)
    (fresh : a.status id = .fresh) : (a.call id op).Inv apply init order where
  linearizes := inv.linearizes.call (inv.fresh id fresh) op
  state := inv.state
  fresh id' still op' member := by
    rcases status_cases still with ⟨-, new⟩ | ⟨other, old⟩
    · cases new
    · rcases List.mem_append.mp member with before | last
      · exact inv.fresh id' old op' before
      · exact other (HistoryEvent.call.inj (List.mem_singleton.mp last)).1
  called id' op' waiting := by
    rcases status_cases waiting with ⟨rfl, new⟩ | ⟨-, old⟩
    · cases new
      refine ⟨List.mem_append_right _ (List.mem_singleton_self _), fun member => ?_⟩
      obtain ⟨e, inOrder, rfl⟩ := List.mem_map.mp member
      exact inv.fresh e.id fresh e.op (inv.linearizes.called e inOrder)
    · obtain ⟨member, new⟩ := inv.called id' op' old
      exact ⟨List.mem_append_left _ member, new⟩
  committed id' op' res done := by
    rcases status_cases done with ⟨-, new⟩ | ⟨-, old⟩
    · cases new
    · exact inv.committed id' op' res old

theorem Inv.commit {order : List (Effect I Op Res)} (inv : a.Inv apply init order) {id : I} {op : Op}
    (called : a.status id = .called op) :
    (a.commit apply id op).Inv apply init (order ++ [⟨id, op, (apply a.state op).2⟩]) where
  linearizes := by
    obtain ⟨member, new⟩ := inv.called id op called
    exact inv.linearizes.commit member new (by rw [inv.state])
  state := by
    rw [perform_snoc, inv.state]
    rfl
  fresh id' still := by
    rcases status_cases still with ⟨-, new⟩ | ⟨-, old⟩
    · cases new
    · exact inv.fresh id' old
  called id' op' waiting := by
    rcases status_cases waiting with ⟨-, new⟩ | ⟨other, old⟩
    · cases new
    · obtain ⟨member, new⟩ := inv.called id' op' old
      refine ⟨member, ?_⟩
      rw [List.map_append, List.mem_append, List.map_singleton, List.mem_singleton]
      exact not_or.mpr ⟨new, other⟩
  committed id' op' res done := by
    rcases status_cases done with ⟨rfl, new⟩ | ⟨-, old⟩
    · cases new
      exact List.mem_append_right _ (List.mem_singleton_self _)
    · exact List.mem_append_left _ (inv.committed id' op' res old)

theorem Inv.ret {order : List (Effect I Op Res)} (inv : a.Inv apply init order) {id : I} {op : Op} {res : Res}
    (committed : a.status id = .committed op res) : (a.ret id res).Inv apply init order where
  linearizes := inv.linearizes.ret (inv.committed id op res committed)
  state := inv.state
  fresh id' still op' member := by
    rcases status_cases still with ⟨-, new⟩ | ⟨-, old⟩
    · cases new
    · rcases List.mem_append.mp member with before | last
      · exact inv.fresh id' old op' before
      · cases List.mem_singleton.mp last
  called id' op' waiting := by
    rcases status_cases waiting with ⟨-, new⟩ | ⟨-, old⟩
    · cases new
    · obtain ⟨member, new⟩ := inv.called id' op' old
      exact ⟨List.mem_append_left _ member, new⟩
  committed id' op' res' done := by
    rcases status_cases done with ⟨-, new⟩ | ⟨-, old⟩
    · cases new
    · exact inv.committed id' op' res' old

/-- **The atomic object is linearizable**. -/
theorem linearizable (reached : Reaches apply (start I Op Res init) a) : Linearizable apply init a.history := by
  have inv : ∃ order, a.Inv apply init order := by
    induction reached with
    | refl => exact ⟨[], .start⟩
    | tail _ step ih =>
      obtain ⟨order, inv⟩ := ih
      cases step with
      | call op fresh => exact ⟨order, inv.call op fresh⟩
      | commit called => exact ⟨_, inv.commit called⟩
      | ret committed => exact ⟨order, inv.ret committed⟩
  obtain ⟨order, inv⟩ := inv
  exact ⟨order, inv.linearizes⟩

/-! ## Helping -/

open Classical in
/-- **Helping**: waiting operations take effect one after the other, as long as each
keeps `J` and answers what is expected of it in every state with `J`. -/
theorem exists_helped {J : S → Prop} {P : I → Prop} {answer : Op → Res}
    (keeps : ∀ id op, P id → a.status id = .called op → ∀ s, J s → J (apply s op).1 ∧ (apply s op).2 = answer op)
    (start : J a.state) (ids : List I) :
    ∃ a', Reaches apply a a' ∧ J a'.state ∧ a'.history = a.history ∧
      ∀ id, a'.status id = if P id ∧ id ∈ ids then (a.status id).helped answer else a.status id := by
  induction ids with
  | nil => exact ⟨a, .refl, start, rfl, by simp⟩
  | cons first rest ih =>
    obtain ⟨a', reached, kept, history, status⟩ := ih
    by_cases waits : ∃ op, P first ∧ a'.status first = .called op
    · obtain ⟨op, helps, waiting⟩ := waits
      have before : a.status first = .called op ∧ first ∉ rest := by
        have now := status first
        rw [waiting] at now
        split at now
        · cases held : a.status first <;> simp [held, Status.helped] at now
        · rename_i outside
          exact ⟨now.symm, fun member => outside ⟨helps, member⟩⟩
      obtain ⟨next, answers⟩ := keeps first op helps before.1 a'.state kept
      refine ⟨a'.commit apply first op, reached.tail (.commit waiting), next, history, fun id => ?_⟩
      by_cases here : id = first
      · subst here
        simp [Atomic.commit, helps, before.1, Status.helped, answers]
      · simp [Atomic.commit, here, status id]
    · refine ⟨a', reached, kept, history, fun id => ?_⟩
      rw [status id]
      by_cases here : id = first
      · subst here
        by_cases helps : P id
        · have done : (a.status id).helped answer = a.status id ∨ id ∈ rest := by
            by_cases member : id ∈ rest
            · exact Or.inr member
            · have now := status id
              rw [if_neg fun both => member both.2] at now
              cases held : a.status id with
              | called op => exact absurd ⟨op, helps, now.trans held⟩ waits
              | fresh | committed op res | returned => exact Or.inl rfl
          rcases done with same | member
          · simp [same]
          · simp [member]
        · simp [helps]
      · simp [here]

end Atomic

end Oryx.Library
