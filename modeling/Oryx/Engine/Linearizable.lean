import Mathlib.Data.List.Permutation
import Oryx.Engine.Calls
import Oryx.Clock.System
import Oryx.Wal.Protobuf

/-!
# Overlapping clients see one map

Whether the calls of `Get`, `Set` and `Delete` look as if each took effect at one
moment between its call and its return. A `Set` or a `Delete` draws its timestamp
before it stores, so a later one may overtake it: its own store is then stale. It took
effect all the same, immediately before the one that overtook it. What fails is a
`Delete` that decides on its answer when it loads: two of them that find the same
value both answer that they removed it.
-/

namespace Oryx.Core
set_option autoImplicit false
open Oryx.Library Oryx.Hashmap Oryx.Writer Oryx.Hlc

/-- A plain map. -/
def plainMap (m : Key → Option Bytes) : Op → (Key → Option Bytes) × Answer
  | .get key => (m, .value (m key))
  | .set key value => (Function.update m key (some value), .ok)
  | .delete key => (Function.update m key none, .deleted (m key).isSome)

/-- The plain map that the records stand for. -/
def view (cells : Key → Option Value) (key : Key) : Option Bytes := (cells key).bind answer

theorem view_update (cells : Key → Option Value) (key : Key) (v : Value) :
    view (Function.update cells key (some v)) = Function.update (view cells) key (answer v) := by
  funext k
  by_cases here : k = key
  · subst here
    simp [view]
  · simp [view, here]

/-- What a write answers that takes effect. -/
def Op.granted : Op → Answer
  | .delete _ => .deleted true
  | _ => .ok

/-- The request that an operation makes. -/
inductive Issues : Op → Request → Prop where
  | set (key : Key) (value : Bytes) (ts : Int64) (node : NodeID) : Issues (.set key value) (.set ⟨key, value, ts, node⟩)
  | delete (key : Key) (ts : Int64) (node : NodeID) : Issues (.delete key) (.delete ⟨key, ts, node⟩)

/-- The record of a request stands for what the operation does to a plain map. -/
theorem Issues.plainMap_fst [Security] {op : Op} {r : Request} (issues : Issues op r) (m : Key → Option Bytes) :
    (plainMap m op).1 = Function.update m r.key (answer (record r)) := by
  cases issues <;> rfl

/-- How far the atomic map is with a call. A write waits as long as its timestamp is
above the record of its key; once a later one is stored it has taken effect. -/
inductive Follows (cells : Key → Option Value) : Pc → Status Op Answer → Prop where
  | fresh : Follows cells .fresh .fresh
  | getLoad (key : Key) : Follows cells (.getLoad key) (.called (.get key))
  | setNow (key : Key) (value : Bytes) : Follows cells (.setNow key value) (.called (.set key value))
  | deleteLoad (key : Key) : Follows cells (.deleteLoad key) (.called (.delete key))
  | deleteNow {key : Key} (found : (view cells key).isSome = true) : Follows cells (.deleteNow key) (.called (.delete key))
  | waiting {pc : Pc} {op : Op} {r : Request} (write : pc.write = some (some op.granted, r)) (issues : Issues op r)
    (above : ∀ v, cells r.key = some v → v.timestamp < r.timestamp)
    (found : op = .delete r.key → (view cells r.key).isSome = true) : Follows cells pc (.called op)
  | overtaken {pc : Pc} {op : Op} {res : Answer} {r : Request} {v : Value} (write : pc.write = some (some res, r))
    (held : cells r.key = some v) (below : r.timestamp < v.timestamp) : Follows cells pc (.committed op res)
  | publish (op : Op) (res : Answer) (r : Request) : Follows cells (.publish (some res) r) (.committed op res)
  | returning (op : Op) (res : Answer) (err : Option Error) :
    Follows cells (.returning (some res) err) (.committed op res)
  | finished : Follows cells .finished .returned

theorem Pc.deleting_of_write {pc : Pc} {r : Request} (write : pc.write = some (some (.deleted true), r)) :
    pc.deleting r.key = true := by
  cases pc <;> simp_all [Pc.write, Pc.deleting]

/-- A write of the same key with an earlier timestamp. -/
def Passed (r : Request) (pc : Pc) : Prop :=
  ∃ res r', pc.write = some (res, r') ∧ r'.key = r.key ∧ r'.timestamp < r.timestamp

open Classical in
/-- What an accepted write does to another call: an earlier write of its key is overtaken. -/
theorem Follows.overtake [Security] {cells : Key → Option Value} {pc : Pc} {status : Status Op Answer}
    (follows : Follows cells pc status) {r : Request} (above : ∀ v, cells r.key = some v → v.timestamp < r.timestamp)
    (distinct : ∀ res r', pc.write = some (res, r') → r'.timestamp ≠ r.timestamp)
    (alone : answer (record r) = none → pc.deleting r.key = false) :
    Follows (Function.update cells r.key (some (record r))) pc
      (if Passed r pc then status.helped Op.granted else status) := by
  have other (none : pc.write = none) : ¬Passed r pc := by
    rintro ⟨res, r', write, -⟩
    rw [none] at write
    cases write
  have still {key : Key} (deleting : pc.deleting key = true) (found : (view cells key).isSome = true) :
      (view (Function.update cells r.key (some (record r))) key).isSome = true := by
    rw [view_update]
    by_cases here : key = r.key
    · subst here
      rw [Function.update_self, ← Option.ne_none_iff_isSome]
      intro gone
      rw [alone gone] at deleting
      cases deleting
    · rwa [Function.update_of_ne here]
  cases follows with
  | fresh => rw [if_neg (other rfl)]; exact .fresh
  | getLoad key => rw [if_neg (other rfl)]; exact .getLoad key
  | setNow key value => rw [if_neg (other rfl)]; exact .setNow key value
  | deleteLoad key => rw [if_neg (other rfl)]; exact .deleteLoad key
  | deleteNow found =>
    rw [if_neg (other rfl)]
    exact .deleteNow (still (by simp [Pc.deleting]) found)
  | publish op res r' => rw [if_neg (other rfl)]; exact .publish op res r'
  | returning op res err => rw [if_neg (other rfl)]; exact .returning op res err
  | finished => rw [if_neg (other rfl)]; exact .finished
  | @waiting _ op r' write issues above' found =>
    by_cases passed : Passed r pc
    · obtain ⟨res, r'', write', key, below⟩ := id passed
      obtain ⟨-, rfl⟩ := Prod.mk.inj (Option.some.inj (write.symm.trans write'))
      rw [if_pos passed]
      refine .overtaken write (by rw [key, Function.update_self]) ?_
      rwa [record_timestamp]
    · rw [if_neg passed]
      refine .waiting write issues (fun v held => ?_) fun asks => still ?_ (found asks)
      · by_cases here : r'.key = r.key
        · rw [here, Function.update_self] at held
          obtain rfl := Option.some.inj held
          rw [record_timestamp]
          have notBelow : ¬r'.timestamp < r.timestamp := fun below => passed ⟨_, r', write, here, below⟩
          exact lt_of_le_of_ne (not_lt.mp notBelow) (distinct _ r' write).symm
        · rw [Function.update_of_ne here] at held
          exact above' v held
      · subst asks
        exact Pc.deleting_of_write write
  | @overtaken _ op res r' v write held below =>
    have same : (if Passed r pc then (Status.committed op res).helped Op.granted else .committed op res) =
        .committed op res := by
      split <;> rfl
    rw [same]
    by_cases here : r'.key = r.key
    · refine .overtaken write (by rw [here, Function.update_self]) ?_
      rw [record_timestamp]
      exact lt_trans below (above v (here ▸ held))
    · exact .overtaken write (by rw [Function.update_of_ne here]; exact held) below

section Simulation

variable {count : Nat} {C I : Type} [NeZero count] [DecidableEq I] [Security] [Proto] [Clocker C]

namespace Callers

/-- Every reading of the clock is later than all before it. -/
def Increasing (s : Callers count C I) : CallAction I → Prop
  | .run id => (s.pcs id).draws = true → ∀ ts ∈ s.drawn, ts < s.eng.tick.1
  | .call _ _ => True

/-- A `Delete` that finds its key meets no other one that has found it and has not
stored its tombstone. -/
def Exclusive (s : Callers count C I) : CallAction I → Prop
  | .run id => ∀ key ∈ (s.pcs id).seeks, s.eng.live key = true → ∀ id', (s.pcs id').deleting key = false
  | .call _ _ => True

/-- Only clients call. -/
def ByClient : CallAction I → Prop
  | .call _ (.op _) | .run _ => True
  | .call _ _ => False

abbrev cells (s : Callers count C I) : Key → Option Value := s.eng.sw.hm.cell hashFunc

/-- What keeps the calls apart: no two writes share a timestamp, and no two `Delete`s
are past their load on one key. -/
structure Orderly (pcs : I → Pc) (drawn : List Int64) : Prop where
  finite : ∃ ids : List I, ∀ id, pcs id ≠ .fresh → id ∈ ids
  stamped : ∀ id res r, (pcs id).write = some (res, r) → r.timestamp ∈ drawn
  distinct : ∀ id id' res res' r r', (pcs id).write = some (res, r) → (pcs id').write = some (res', r') →
    r.timestamp = r'.timestamp → id = id'
  exclusive : ∀ id id' key, (pcs id).deleting key = true → (pcs id').deleting key = true → id = id'

/-- The atomic map follows the machine. -/
structure Simulated (s : Callers count C I) (a : Atomic I Op Answer (Key → Option Bytes)) : Prop where
  inv : s.eng.sw.hm.Inv hashFunc
  history : a.history = s.history
  state : a.state = view s.cells
  follows : ∀ id, Follows s.cells (s.pcs id) (a.status id)
  recorded : ∀ key v, s.cells key = some v → v.timestamp ∈ s.drawn
  orderly : Orderly s.pcs s.drawn

variable {s s' : Callers count C I} {a a' : Atomic I Op Answer (Key → Option Bytes)} {id : I} {pc : Pc}

omit [NeZero count] [DecidableEq I] [Proto] [Clocker C] in
theorem Simulated.start {eng : Engine count C} (new : eng.sw.hm = newShardedMap) :
    Simulated (start eng : Callers count C I) (Atomic.start I Op Answer fun _ => none) where
  inv := by
    rw [Callers.start, new]
    exact ShardedMap.inv_new hashFunc
  history := rfl
  state := by
    funext k
    simp [view, Callers.start, cells, new, ShardedMap.cell_new, Atomic.start]
  follows _ := .fresh
  recorded key v held := by
    simp [Callers.start, cells, new, ShardedMap.cell_new] at held
  orderly := ⟨⟨[], fun id moved => absurd rfl moved⟩, nofun, nofun, nofun⟩

/-! ## Steps that leave the map alone -/

omit [Security] [Proto] in
theorem Orderly.finite_update {pcs : I → Pc} {drawn : List Int64} (orderly : Orderly pcs drawn) :
    ∃ ids : List I, ∀ id', Function.update pcs id pc id' ≠ .fresh → id' ∈ ids := by
  obtain ⟨ids, all⟩ := orderly.finite
  refine ⟨id :: ids, fun id' moved => ?_⟩
  rcases update_cases (· ≠ Pc.fresh) moved with ⟨rfl, -⟩ | ⟨-, before⟩
  · exact List.mem_cons_self
  · exact List.mem_cons_of_mem _ (all id' before)

omit [Security] [Proto] in
theorem Orderly.exclusive_update {pcs : I → Pc} {drawn : List Int64} (orderly : Orderly pcs drawn)
    (alone : ∀ key, pc.deleting key = true → ∀ id', id' ≠ id → (pcs id').deleting key = false) (first second : I)
    (key : Key) (here : (Function.update pcs id pc first).deleting key = true)
    (there : (Function.update pcs id pc second).deleting key = true) : first = second := by
  rcases update_cases (Pc.deleting key · = true) here with ⟨rfl, mine⟩ | ⟨other, held⟩
  · rcases update_cases (Pc.deleting key · = true) there with ⟨rfl, -⟩ | ⟨other, held⟩
    · rfl
    · rw [alone key mine second other] at held
      cases held
  · rcases update_cases (Pc.deleting key · = true) there with ⟨rfl, mine⟩ | ⟨-, held'⟩
    · rw [alone key mine first other] at held
      cases held
    · exact orderly.exclusive first second key held held'

omit [Security] [Proto] in
/-- A call moves on with the request it has. -/
theorem Orderly.move {pcs : I → Pc} {drawn : List Int64} (orderly : Orderly pcs drawn)
    (write : ∀ w, pc.write = some w → (pcs id).write = some w)
    (alone : ∀ key, pc.deleting key = true → ∀ id', id' ≠ id → (pcs id').deleting key = false) :
    Orderly (Function.update pcs id pc) drawn := by
  have kept {id' : I} {w : Option Answer × Request} (writes : (Function.update pcs id pc id').write = some w) :
      (pcs id').write = some w := by
    rcases update_cases (Pc.write · = some w) writes with ⟨rfl, here⟩ | ⟨-, there⟩
    · exact write w here
    · exact there
  exact ⟨orderly.finite_update, fun id' res r writes => orderly.stamped id' res r (kept writes),
    fun first second res res' r r' writes writes' =>
      orderly.distinct first second res res' r r' (kept writes) (kept writes'),
    orderly.exclusive_update alone⟩

omit [Security] [Proto] in
/-- A call has nothing to write, or nothing any more. -/
theorem Orderly.leave {pcs : I → Pc} {drawn : List Int64} (orderly : Orderly pcs drawn) (idle : pc.write = none)
    (still : ∀ key, pc.deleting key = false) : Orderly (Function.update pcs id pc) drawn := by
  refine orderly.move (fun w write => ?_) fun key deleting => ?_
  · rw [idle] at write
    cases write
  · rw [still key] at deleting
    cases deleting

omit [Security] [Proto] in
/-- A call draws a timestamp later than all before. -/
theorem Orderly.draw {pcs : I → Pc} {drawn : List Int64} (orderly : Orderly pcs drawn) {res : Option Answer} {r : Request}
    (write : pc.write = some (res, r)) (later : ∀ ts ∈ drawn, ts < r.timestamp)
    (alone : ∀ key, pc.deleting key = true → ∀ id', id' ≠ id → (pcs id').deleting key = false) :
    Orderly (Function.update pcs id pc) (drawn ++ [r.timestamp]) := by
  have cases {id' : I} {res' : Option Answer} {r' : Request}
      (writes : (Function.update pcs id pc id').write = some (res', r')) :
      id' = id ∧ r' = r ∨ (pcs id').write = some (res', r') ∧ r'.timestamp < r.timestamp := by
    rcases update_cases (Pc.write · = some (res', r')) writes with ⟨same, here⟩ | ⟨-, there⟩
    · rw [write] at here
      exact Or.inl ⟨same, (Prod.mk.inj (Option.some.inj here)).2.symm⟩
    · exact Or.inr ⟨there, later _ (orderly.stamped id' res' r' there)⟩
  refine ⟨orderly.finite_update, fun id' res' r' writes => ?_, fun first second _ _ r₁ r₂ writes writes' same => ?_,
    orderly.exclusive_update alone⟩
  · rcases cases writes with ⟨-, rfl⟩ | ⟨there, -⟩
    · exact List.mem_append_right _ (List.mem_singleton_self _)
    · exact List.mem_append_left _ (orderly.stamped id' res' r' there)
  · rcases cases writes with ⟨rfl, rfl⟩ | ⟨there, below⟩
    · rcases cases writes' with ⟨rfl, -⟩ | ⟨-, below'⟩
      · rfl
      · exact absurd same below'.ne'
    · rcases cases writes' with ⟨rfl, rfl⟩ | ⟨there', -⟩
      · exact absurd same below.ne
      · exact orderly.distinct first second _ _ r₁ r₂ there there' same

omit [NeZero count] [Proto] [Clocker C] in
/-- A step that moves one call and leaves the map alone. -/
theorem Simulated.move (sim : s.Simulated a) {status : Status Op Answer} (hm : s'.eng.sw.hm = s.eng.sw.hm)
    (pcs : s'.pcs = Function.update s.pcs id pc) (orderly : Orderly s'.pcs s'.drawn) (drawn : s.drawn ⊆ s'.drawn)
    (history : a'.history = s'.history) (statuses : a'.status = Function.update a.status id status)
    (state : a'.state = a.state) (follows : Follows s.cells pc status) : s'.Simulated a' := by
  have same : s'.cells = s.cells := by rw [cells, hm]
  refine ⟨hm ▸ sim.inv, history, ?_, fun id' => ?_, fun key v held => ?_, orderly⟩
  · rw [state, same]
    exact sim.state
  · rw [same, pcs, statuses]
    by_cases here : id' = id
    · subst here
      rwa [Function.update_self, Function.update_self]
    · rw [Function.update_of_ne here, Function.update_of_ne here]
      exact sim.follows id'
  · rw [same] at held
    exact drawn (sim.recorded key v held)

/-! ## A write that is accepted -/

omit [NeZero count] [Proto] [Clocker C] [DecidableEq I] in
/-- A write on its way that has not taken effect. -/
theorem Simulated.waiting_of_passed (sim : s.Simulated a) {r : Request} (passed : Passed r (s.pcs id)) {op : Op}
    (called : a.status id = .called op) :
    ∃ r', (s.pcs id).write = some (some op.granted, r') ∧ Issues op r' ∧ r'.key = r.key ∧
      (op = .delete r.key → (view s.cells r.key).isSome = true) := by
  obtain ⟨res, r', write, key, -⟩ := passed
  have follows := sim.follows id
  rw [called] at follows
  generalize s.pcs id = pc at follows write
  cases follows with
  | getLoad | setNow | deleteLoad | deleteNow => cases write
  | waiting write' issues above found =>
    obtain ⟨-, rfl⟩ := Prod.mk.inj (Option.some.inj (write'.symm.trans write))
    exact ⟨_, write', issues, key, key ▸ found⟩

open Classical in
omit [NeZero count] [Proto] [Clocker C] in
/-- **Helping**: the writes that `r` overtakes take effect, the `Set`s first. -/
theorem Simulated.help (sim : s.Simulated a) (r : Request) :
    ∃ a', Atomic.Reaches plainMap a a' ∧ a'.history = a.history ∧
      (∀ k, k ≠ r.key → a'.state k = view s.cells k) ∧
      ((∀ id, Passed r (s.pcs id) → a.status id ≠ .called (.delete r.key)) →
        (view s.cells r.key).isSome = true → (a'.state r.key).isSome = true) ∧
      ∀ id, a'.status id = if Passed r (s.pcs id) then (a.status id).helped Op.granted else a.status id := by
  let P (id : I) : Prop := Passed r (s.pcs id) ∧ ∃ value, a.status id = .called (.set r.key value)
  let J (m : Key → Option Bytes) : Prop :=
    (∀ k, k ≠ r.key → m k = view s.cells k) ∧ ((view s.cells r.key).isSome = true → (m r.key).isSome = true)
  have keeps : ∀ id op, P id → a.status id = .called op →
      ∀ m, J m → J (plainMap m op).1 ∧ (plainMap m op).2 = op.granted := by
    rintro id op ⟨-, value, isSet⟩ called m ⟨off, present⟩
    obtain rfl := Status.called.inj (isSet.symm.trans called)
    refine ⟨⟨fun k other => ?_, fun _ => ?_⟩, rfl⟩
    · show Function.update m r.key (some value) k = _
      rw [Function.update_of_ne other]
      exact off k other
    · simp [plainMap]
  have begins : J a.state := by
    rw [sim.state]
    exact ⟨fun _ _ => rfl, id⟩
  obtain ⟨ids, all⟩ := sim.orderly.finite
  obtain ⟨a₁, reached, ⟨off, present⟩, history, status⟩ := Atomic.exists_helped keeps begins ids
  have inside {id : I} (passed : Passed r (s.pcs id)) : id ∈ ids := by
    refine all id fun fresh => ?_
    obtain ⟨res, r', write, -⟩ := passed
    rw [fresh] at write
    cases write
  have settled (id : I) (noDelete : Passed r (s.pcs id) → a.status id ≠ .called (.delete r.key)) :
      a₁.status id = if Passed r (s.pcs id) then (a.status id).helped Op.granted else a.status id := by
    rw [status id]
    by_cases passed : Passed r (s.pcs id)
    · rw [if_pos passed]
      cases now : a.status id with
      | fresh | committed op res | returned => split <;> rfl
      | called op =>
        obtain ⟨r', -, issues, key, -⟩ := sim.waiting_of_passed passed now
        cases issues with
        | set key' value ts node => exact if_pos ⟨⟨passed, value, key ▸ now⟩, inside passed⟩
        | delete key' ts node => exact absurd (key ▸ now) (noDelete passed)
    · rw [if_neg passed, if_neg fun helped => passed helped.1.1]
  by_cases found : ∃ d, Passed r (s.pcs d) ∧ a.status d = .called (.delete r.key)
  · obtain ⟨d, passed, called⟩ := found
    obtain ⟨r', write, -, key, live⟩ := sim.waiting_of_passed passed called
    have mine := Pc.deleting_of_write write
    have waits : a₁.status d = .called (.delete r.key) := by
      rw [status d, if_neg]
      · exact called
      · rintro ⟨⟨-, value, isSet⟩, -⟩
        rw [called] at isSet
        cases isSet
    have there := present (live rfl)
    refine ⟨a₁.commit plainMap d (.delete r.key), reached.tail (.commit waits), history, fun k other => ?_,
      fun nobody => absurd called (nobody d passed), fun id => ?_⟩
    · show Function.update a₁.state r.key none k = _
      rw [Function.update_of_ne other]
      exact off k other
    · by_cases here : id = d
      · subst here
        simp [Atomic.commit, passed, called, plainMap, there, Status.helped, Op.granted]
      · show Function.update a₁.status d _ id = _
        rw [Function.update_of_ne here]
        refine settled id fun passed' called' => here ?_
        obtain ⟨r'', write', -, key', -⟩ := sim.waiting_of_passed passed' called'
        exact sim.orderly.exclusive id d r.key (key' ▸ Pc.deleting_of_write write') (key ▸ mine)
  · refine ⟨a₁, reached, history, off, fun _ => present, fun id => settled id fun passed called => ?_⟩
    exact found ⟨id, passed, called⟩

/-- **An accepted write**: the writes it overtakes take effect, then the write itself. -/
theorem Simulated.store (sim : s.Simulated a) {op : Op} {r : Request} (here : s.pcs id = .store (some op.granted) r)
    (called : a.status id = .called op) (issues : Issues op r)
    (above : ∀ v, s.cells r.key = some v → v.timestamp < r.timestamp)
    (found : op = .delete r.key → (view s.cells r.key).isSome = true) :
    ∃ a', Atomic.Reaches plainMap a a' ∧ (s.run id).Simulated a' := by
  obtain ⟨a₂, reached, history, off, present, status⟩ := sim.help r
  have unpassed : ¬Passed r (s.pcs id) := by
    rintro ⟨res, r', write, -, below⟩
    rw [here] at write
    cases write
    exact lt_irrefl _ below
  have waits : a₂.status id = .called op := by rw [status id, if_neg unpassed, called]
  have alone (isDelete : op = .delete r.key) {id' : I} (deleting : (s.pcs id').deleting r.key = true) : id' = id := by
    refine sim.orderly.exclusive id' id r.key deleting ?_
    rw [here, isDelete]
    simp [Op.granted, Pc.deleting]
  have granted : (plainMap a₂.state op).2 = op.granted := by
    cases issues with
    | set key value ts node => rfl
    | delete key ts node =>
      have there := present (fun id' passed waiting => ?_) (found rfl)
      · exact congrArg Answer.deleted there
      · obtain ⟨r', write, -, same, -⟩ := sim.waiting_of_passed passed waiting
        exact unpassed (alone rfl (same ▸ Pc.deleting_of_write write) ▸ passed)
  have runs : s.run id = { s.goto id (.publish (some op.granted) r) with
      eng := { s.eng with sw := { s.eng.sw with hm := (merge s.eng.sw.hm r).1 } } } := by
    simp only [run, here, accepted_of_newer sim.inv above, if_true]
  have cells : (s.run id).cells = Function.update s.cells r.key (some (record r)) := by
    rw [runs]
    exact cell_merge_newer sim.inv above
  refine ⟨a₂.commit plainMap id op, reached.tail (.commit waits), ?_, ?_, ?_, fun id' => ?_, fun key v held => ?_, ?_⟩
  · rw [runs]
    exact inv_merge sim.inv r
  · rw [runs]
    exact history.trans sim.history
  · rw [cells, view_update]
    funext k
    show (plainMap a₂.state op).1 k = _
    rw [issues.plainMap_fst]
    by_cases same : k = r.key
    · rw [same, Function.update_self, Function.update_self]
    · rw [Function.update_of_ne same, Function.update_of_ne same, off k same]
  · rw [cells, runs]
    by_cases same : id' = id
    · subst same
      have committed : (a₂.commit plainMap id' op).status id' = .committed op op.granted := by
        simp [Atomic.commit, granted]
      rw [committed, show ∀ pc, (s.goto id' pc).pcs id' = pc from fun _ => Function.update_self ..]
      exact .publish op op.granted r
    · have unmoved : (a₂.commit plainMap id op).status id' = a₂.status id' := Function.update_of_ne same ..
      rw [unmoved, status id', show ∀ pc, (s.goto id pc).pcs id' = s.pcs id' from fun _ => Function.update_of_ne same ..]
      refine (sim.follows id').overtake above (fun res r' write stamp => same ?_) fun gone => ?_
      · exact sim.orderly.distinct id' id res _ r' r write (by rw [here]; rfl) stamp
      · have isDelete : op = .delete r.key := by
          cases issues with
          | set key value ts node => cases gone
          | delete key ts node => rfl
        rw [← Bool.not_eq_true]
        exact fun deleting => same (alone isDelete deleting)
  · rw [cells] at held
    rw [runs]
    by_cases same : key = r.key
    · rw [same, Function.update_self] at held
      obtain rfl := Option.some.inj held
      rw [record_timestamp]
      exact sim.orderly.stamped id _ r (by rw [here]; rfl)
    · rw [Function.update_of_ne same] at held
      exact sim.recorded key v held
  · rw [runs]
    exact sim.orderly.leave rfl fun _ => rfl

/-! ## Every step -/

omit [NeZero count] [Proto] [Clocker C] in
/-- A step that the atomic map does not notice. -/
theorem Simulated.stay (sim : s.Simulated a) (hm : s'.eng.sw.hm = s.eng.sw.hm)
    (pcs : s'.pcs = Function.update s.pcs id pc) (orderly : Orderly s'.pcs s'.drawn) (drawn : s.drawn ⊆ s'.drawn)
    (history : s'.history = s.history) (follows : Follows s.cells pc (a.status id)) : s'.Simulated a :=
  sim.move hm pcs orderly drawn (sim.history.trans history.symm) (Function.update_eq_self id a.status).symm rfl follows

omit [DecidableEq I] [Security] [Proto] in
/-- A `Delete` on its way is alone on its key. -/
theorem Orderly.alone {pcs : I → Pc} {drawn : List Int64} (orderly : Orderly pcs drawn)
    (inherits : ∀ key, pc.deleting key = true → (pcs id).deleting key = true) (key : Key)
    (deleting : pc.deleting key = true) (id' : I) (other : id' ≠ id) : (pcs id').deleting key = false := by
  rw [← Bool.not_eq_true]
  exact fun there => other (orderly.exclusive id' id key there (inherits key deleting))

omit [NeZero count] [Proto] in
/-- A client's write draws its timestamp. -/
theorem Simulated.draw (sim : s.Simulated a) {op : Op} {r : Int64 → Request} (called : a.status id = .called op)
    (later : ∀ ts ∈ s.drawn, ts < s.eng.tick.1) (issues : Issues op (r s.eng.tick.1))
    (stamp : (r s.eng.tick.1).timestamp = s.eng.tick.1)
    (found : op = .delete (r s.eng.tick.1).key → (view s.cells (r s.eng.tick.1).key).isSome = true)
    (inherits : ∀ key, op = .delete key → (s.pcs id).deleting key = true) :
    (s.tick id fun ts => .update (some op.granted) (r ts)).Simulated a := by
  have below : ∀ ts ∈ s.drawn, ts < (r s.eng.tick.1).timestamp := by rwa [stamp]
  refine sim.stay rfl rfl ?_ (List.subset_append_left _ _) rfl ?_
  · have isDelete (key : Key) (deleting : (Pc.update (some op.granted) (r s.eng.tick.1)).deleting key = true) :
        op = .delete key := by
      generalize r s.eng.tick.1 = r at issues deleting
      cases issues with
      | set key value ts node => cases deleting
      | delete key ts node => exact congrArg Op.delete (of_decide_eq_true deleting)
    have orderly := sim.orderly.draw rfl below
      (sim.orderly.alone fun key deleting => inherits key (isDelete key deleting))
    rwa [stamp] at orderly
  · rw [called]
    exact .waiting rfl issues (fun v held => below _ (sim.recorded _ v held)) found

/-- A `Delete` that finds a value goes on to write; one that finds none takes effect
with its load. -/
theorem Simulated.deleteLoad (sim : s.Simulated a) {key : Key} (here : s.pcs id = .deleteLoad key)
    (called : a.status id = .called (.delete key)) (exclusive : s.Exclusive (.run id)) :
    ∃ a', Atomic.Reaches plainMap a a' ∧ (s.run id).Simulated a' := by
  simp only [Callers.run, here]
  by_cases found : s.eng.live key = true
  · rw [if_pos found]
    have live : (view s.cells key).isSome = true := by
      rw [← Engine.get_isSome, Engine.get_eq sim.inv] at found
      exact found
    refine ⟨a, .refl, sim.stay rfl rfl (sim.orderly.move (fun w write => ?_) fun key' deleting id' _ => ?_)
      (List.Subset.refl _) rfl ?_⟩
    · cases write
    · obtain rfl := of_decide_eq_true deleting
      exact exclusive key (by rw [here]; rfl) found id'
    · rw [called]
      exact .deleteNow live
  · rw [if_neg found]
    have absent : a.state key = none := by
      rw [← Engine.get_isSome, Engine.get_eq sim.inv, Option.not_isSome_iff_eq_none] at found
      rw [sim.state]
      exact found
    have answers : (plainMap a.state (.delete key)).2 = .deleted false := by rw [plainMap, absent]; rfl
    have same : (plainMap a.state (.delete key)).1 = a.state := by
      rw [plainMap, ← absent]
      exact Function.update_eq_self key a.state
    refine ⟨a.commit plainMap id (.delete key), .single (.commit called), ?_⟩
    refine sim.move rfl rfl (sim.orderly.leave rfl fun _ => rfl) (List.Subset.refl _) sim.history rfl same ?_
    rw [answers]
    exact .returning _ _ none

/-- **Every step of a call** is none, one or several steps of the atomic map. -/
theorem Simulated.run (sim : s.Simulated a) (increasing : s.Increasing (.run id)) (exclusive : s.Exclusive (.run id)) :
    ∃ a', Atomic.Reaches plainMap a a' ∧ (s.run id).Simulated a' := by
  have follows := sim.follows id
  generalize called : a.status id = status at follows
  cases here : s.pcs id with
  | fresh | finished => exact ⟨a, .refl, by simpa only [Callers.run, here] using sim⟩
  | evictNow | evictStore | evictPublish =>
    rw [here] at follows
    cases follows with
    | waiting write => cases write
    | overtaken write => cases write
  | getLoad key =>
    rw [here] at follows
    cases follows with
    | waiting write | overtaken write => cases write
    | getLoad =>
      refine ⟨a.commit plainMap id (.get key), .single (.commit called), ?_⟩
      simp only [Callers.run, here]
      refine sim.move rfl rfl (sim.orderly.leave rfl fun _ => rfl) (List.Subset.refl _) sim.history rfl rfl ?_
      have answers : a.state key = s.eng.get key := by rw [sim.state, Engine.get_eq sim.inv]; rfl
      rw [← answers]
      exact .returning _ _ none
  | setNow key value =>
    rw [here] at follows
    cases follows with
    | waiting write | overtaken write => cases write
    | setNow =>
      refine ⟨a, .refl, ?_⟩
      simp only [Callers.run, here]
      refine sim.draw called (increasing (by rw [here]; rfl)) (.set ..) rfl (fun isDelete => ?_) fun key isDelete => ?_
      · cases isDelete
      · cases isDelete
  | deleteLoad key =>
    rw [here] at follows
    cases follows with
    | waiting write | overtaken write => cases write
    | deleteLoad =>
      exact sim.deleteLoad here called exclusive
  | deleteNow key =>
    rw [here] at follows
    cases follows with
    | waiting write | overtaken write => cases write
    | deleteNow found =>
      refine ⟨a, .refl, ?_⟩
      simp only [Callers.run, here]
      refine sim.draw called (increasing (by rw [here]; rfl)) (.delete ..) rfl (fun _ => found) fun key' same => ?_
      obtain rfl := Op.delete.inj same
      rw [here]
      exact decide_eq_true rfl
  | update res r =>
    refine ⟨a, .refl, ?_⟩
    simp only [Callers.run, here]
    refine sim.stay rfl rfl (sim.orderly.move ?_ (sim.orderly.alone ?_)) (List.Subset.refl _) rfl ?_
    · rw [here]
      exact fun w write => write
    · intro key deleting
      rwa [here, ← Pc.deleting_store]
    · rw [called]
      rw [here] at follows
      cases follows with
      | waiting write issues above found => exact .waiting write issues above found
      | overtaken write held below => exact .overtaken write held below
  | store res r =>
    rw [here] at follows
    cases follows with
    | waiting write issues above found =>
      obtain ⟨rfl, rfl⟩ := Prod.mk.inj (Option.some.inj write)
      exact sim.store here called issues above found
    | @overtaken _ op res' r' v write held below =>
      obtain ⟨rfl, rfl⟩ := Prod.mk.inj (Option.some.inj write)
      have stale := stale_of_older sim.inv held below
      refine ⟨a, .refl, ?_⟩
      simp only [Callers.run, here, stale]
      refine sim.stay (merge_stale sim.inv stale) rfl (sim.orderly.leave rfl fun _ => rfl) (List.Subset.refl _) rfl ?_
      rw [called]
      exact .returning op res' none
  | publish res r =>
    rw [here] at follows
    cases follows with
    | waiting write | overtaken write => cases write
    | publish op res' =>
      refine ⟨a, .refl, ?_⟩
      simp only [Callers.run, here]
      refine sim.stay rfl rfl (sim.orderly.leave rfl fun _ => rfl) (List.Subset.refl _) rfl ?_
      rw [called]
      exact .returning op res' _
  | returning res err =>
    rw [here] at follows
    cases follows with
    | waiting write | overtaken write => cases write
    | returning op res' =>
      refine ⟨a.ret id res', .single (.ret called), ?_⟩
      simp only [Callers.run, here]
      refine sim.move rfl rfl (sim.orderly.leave rfl fun _ => rfl) (List.Subset.refl _) ?_ rfl rfl .finished
      exact congrArg (· ++ [HistoryEvent.ret id res']) sim.history

omit [NeZero count] [Proto] [Clocker C] in
theorem Simulated.call (sim : s.Simulated a) (op : Op) :
    ∃ a', Atomic.Reaches plainMap a a' ∧ (s.call id (.op op)).Simulated a' := by
  cases here : s.pcs id with
  | fresh =>
    have follows := sim.follows id
    rw [here] at follows
    have called : a.status id = .fresh := by
      generalize a.status id = status at follows
      cases follows with
      | waiting write | overtaken write => cases write
      | fresh => rfl
    refine ⟨a.call id op, .single (.call op called), ?_⟩
    simp only [Callers.call, here]
    refine sim.move rfl rfl (sim.orderly.leave ?_ fun key => ?_) (List.Subset.refl _) ?_ rfl rfl ?_
    · cases op <;> rfl
    · cases op <;> rfl
    · exact congrArg (· ++ [HistoryEvent.call id op]) sim.history
    · cases op with
      | get key => exact .getLoad key
      | set key value => exact .setNow key value
      | delete key => exact .deleteLoad key
  | _ => exact ⟨a, .refl, by simpa only [Callers.call, here] using sim⟩

/-- **Linearizability**: when clients only call, the clock is strictly increasing and
no two `Delete`s of one key are between their load and their store at once, the calls
and answers are those of a plain map. -/
theorem linearizable_of_exclusive (config : Config) (clock : C) (choices : Choices) {actions : List (CallAction I)}
    (clients : ∀ a ∈ actions, ByClient a)
    (increasing : Along step Increasing (start (newEngine count config clock (.logOnly fun _ => []) choices)) actions)
    (exclusive : Along step Exclusive (start (newEngine count config clock (.logOnly fun _ => []) choices)) actions) :
    Linearizable plainMap (fun _ => none)
      (runFrom step (start (newEngine count config clock (.logOnly fun _ => []) choices)) actions).history := by
  have simulated := Along.invariant (I := fun (_ : List (CallAction I)) (s : Callers count C I) =>
      ∃ a, Atomic.Reaches plainMap (Atomic.start I Op Answer fun _ => none) a ∧ s.Simulated a)
    ⟨_, .refl, Simulated.start (hm_newEngine_new config clock choices)⟩
    (fun past s act sim here => ?_) ((increasing.and exclusive).and_mem clients)
  · obtain ⟨a, reached, sim⟩ := simulated
    rw [← sim.history]
    exact Atomic.linearizable reached
  · obtain ⟨a, reached, sim⟩ := sim
    obtain ⟨a', more, sim'⟩ : ∃ a', Atomic.Reaches plainMap a a' ∧ (s.step act).Simulated a' := by
      match act, here with
      | .run id, here => exact sim.run here.1.1 here.1.2
      | .call id (.op op), _ => exact sim.call op
    exact ⟨a', reached.trans more, sim'⟩

instance (s : Callers count C I) : DecidablePred s.Increasing
  | .run id =>
    -- through the list: there are too many timestamps to go through
    let _ : Decidable (∀ ts ∈ s.drawn, ts < s.eng.tick.1) := List.decidableBAll _ _
    inferInstanceAs (Decidable ((s.pcs id).draws = true → ∀ ts ∈ s.drawn, ts < s.eng.tick.1))
  | .call _ _ => isTrue trivial

instance [Fintype I] (s : Callers count C I) : DecidablePred s.Exclusive
  | .run id => inferInstanceAs (Decidable
      (∀ key ∈ (s.pcs id).seeks, s.eng.live key = true → ∀ id', (s.pcs id').deleting key = false))
  | .call _ _ => isTrue trivial

instance : DecidablePred (ByClient : CallAction I → Prop)
  | .run _ | .call _ (.op _) => isTrue trivial
  | .call _ (.apply _) | .call _ (.evict _ _) => isFalse False.elim

end Callers

end Simulation

open Reference Protobuf

/-- An engine with an empty log on which nothing has been called. -/
def uncalledEngine : Callers 1 SystemClock (Fin 3) :=
  Callers.start (newEngine 1 durable steadyClock (.logOnly fun _ => []) .plain)

/-- One call from its beginning to its end. -/
def wholeCall (id : Fin 3) (op : Op) : List (CallAction (Fin 3)) := .call id (.op op) :: List.replicate 5 (.run id)

/-- A `Set` draws its timestamp before a `Delete` and stores after it. -/
theorem linearizable_of_exclusive_overtaken :
    Linearizable plainMap (fun _ => none) (runFrom Callers.step uncalledEngine (wholeCall 0 (.set [97] [1]) ++
      [.call 1 (.op (.set [97] [2])), .call 2 (.op (.delete [97])), .run 1] ++ List.replicate 6 (.run 2) ++
      List.replicate 4 (.run 1))).history :=
  Callers.linearizable_of_exclusive durable steadyClock .plain (by decide) (by decide +kernel) (by decide +kernel)

/-- Two `Delete`s that load before either stores. -/
def bothDelete : List (CallAction (Fin 3)) :=
  wholeCall 0 (.set [97] [1]) ++ [.call 1 (.op (.delete [97])), .call 2 (.op (.delete [97])), .run 1, .run 2] ++
    List.replicate 5 (.run 1) ++ List.replicate 5 (.run 2)

/-- **Two `Delete`s remove one value**: one client sets a key, then two delete it and
are both told that they removed it. No order explains that. -/
theorem deletes_not_linearizable :
    (∀ a ∈ bothDelete, Callers.ByClient a) ∧ Along Callers.step Callers.Increasing uncalledEngine bothDelete ∧
      ¬Linearizable plainMap (fun _ => none) (runFrom Callers.step uncalledEngine bothDelete).history := by
  refine ⟨by decide, by decide +kernel, ?_⟩
  have history : (runFrom Callers.step uncalledEngine bothDelete).history =
      [.call 0 (.set [97] [1]), .ret 0 .ok, .call 1 (.delete [97]), .call 2 (.delete [97]),
        .ret 1 (.deleted true), .ret 2 (.deleted true)] := by decide +kernel
  rw [history]
  rintro ⟨order, lin⟩
  let effects : List (Effect (Fin 3) Op Answer) :=
    [⟨0, .set [97] [1], .ok⟩, ⟨1, .delete [97], .deleted true⟩, ⟨2, .delete [97], .deleted true⟩]
  have only (e : Effect (Fin 3) Op Answer) (member : e ∈ order) : e ∈ effects := by
    have called := lin.called e member
    obtain ⟨id, op, res⟩ := e
    simp only [List.mem_cons, List.not_mem_nil, HistoryEvent.call.injEq, reduceCtorEq, or_false, false_or] at called
    rcases called with ⟨rfl, rfl⟩ | ⟨rfl, rfl⟩ | ⟨rfl, rfl⟩
    · obtain rfl : res = .ok := lin.eq_of_ret member (by simp)
      decide
    · obtain rfl : res = .deleted true := lin.eq_of_ret member (by simp)
      decide
    · obtain rfl : res = .deleted true := lin.eq_of_ret member (by simp)
      decide
  have returned : ∀ e ∈ effects, .ret e.id e.res ∈ [HistoryEvent.call 0 (Op.set [97] [1]), .ret 0 .ok,
      .call 1 (.delete [97]), .call 2 (.delete [97]), .ret 1 (.deleted true), .ret 2 (.deleted true)] := by decide
  have named : ∀ e ∈ effects, ∀ e' ∈ effects, e'.id = e.id → e' = e := by decide
  have all (e : Effect (Fin 3) Op Answer) (member : e ∈ effects) : e ∈ order := by
    obtain ⟨op, inOrder⟩ := lin.answered e.id e.res (returned e member)
    exact named e member _ (only _ inOrder) rfl ▸ inOrder
  have perm : order.Perm effects :=
    (List.perm_ext_iff_of_nodup lin.distinct.of_map (by decide)).mpr fun e => ⟨only e, all e⟩
  have illegal : ∀ order ∈ effects.permutations', ¬Legal plainMap (fun _ => none) order := by decide
  exact illegal order (List.mem_permutations'.mpr perm) lin.legal

end Oryx.Core
