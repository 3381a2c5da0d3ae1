import Oryx.Cluster.Read
import Oryx.Hashmap.Refinement

/-!
# Reads and tombstones

`Node.Get` again, with the record it returns and the nodes it consulted on the way:
the node itself when it looks into its own map, and every peer that
`proxyGetRemote` asks, with what that peer consulted in turn. A local tombstone
ends a read at its node, but the gateway's loop takes the "not found" of a peer,
whatever its reason, for leave to ask the next owner.
-/

namespace Oryx.Cluster
set_option autoImplicit false

open Hashmap Mesh

/-- A read with what it leaves out: the record found, and the nodes whose maps were looked into. -/
structure Trace where
  found : Option Value
  consulted : List NodeID
deriving DecidableEq

/-- `Gateway.Get` at node `n`, traced. -/
def gatewayTrace (address : NodeID → Bool) (remote : NodeID → Option Trace) (n : NodeID) :
    List NodeID → Option Trace
  | [] => some ⟨none, []⟩
  | owner :: rest =>
    if owner = n then gatewayTrace address remote n rest
    else if address owner then
      match remote owner with
      | none => none
      | some ⟨some v, asked⟩ => some ⟨some v, asked⟩
      | some ⟨none, asked⟩ => (gatewayTrace address remote n rest).map fun t => ⟨t.found, asked ++ t.consulted⟩
    else gatewayTrace address remote n rest

/-- The traced loop returns what the loop returns, when the traced calls do. -/
theorem gatewayGet_eq_gatewayTrace (address : NodeID → Bool) {remote : NodeID → Option Outcome}
    {traced : NodeID → Option Trace}
    (same : ∀ m, (remote m).map Prod.fst = (traced m).map fun t => t.found.map Value.data) (n : NodeID)
    (l : List NodeID) :
    (gatewayGet address remote n l).map Prod.fst =
      (gatewayTrace address traced n l).map fun t => t.found.map Value.data := by
  induction l with
  | nil => rfl
  | cons owner rest ih =>
    rw [gatewayGet, gatewayTrace]
    split
    · exact ih
    · split
      · have call := same owner
        generalize remote owner = answer at call ⊢
        generalize traced owner = t at call ⊢
        rcases answer with _ | ⟨_ | val, calls⟩ <;> rcases t with _ | ⟨_ | v, asked⟩ <;>
          simp_all [Function.comp_def]
      · exact ih

/-- Calls that do not return leave the loop without a record. -/
theorem found_gatewayTrace_none {address : NodeID → Bool} {n : NodeID} {l : List NodeID} {t : Trace}
    (ends : gatewayTrace address (fun _ => none) n l = some t) : t.found = none := by
  induction l with
  | nil =>
    cases ends
    rfl
  | cons owner rest ih =>
    rw [gatewayTrace] at ends
    split at ends
    · exact ih ends
    · split at ends
      · cases ends
      · exact ih ends

namespace Peers

variable [Security] (c : Peers) (key : Key)

/-- The record a node holds, with the item hash the conflict rule compares. -/
def held (n : NodeID) : Option Value := (c.hm n).loadCell key (hashFunc key)

/-- The record, unless it is a tombstone. -/
def value (n : NodeID) : Option Value := (c.held key n).filter fun v => !v.tombstone

/-- `Node.Get`, traced. -/
def trace : Nat → NodeID → Option Trace
  | 0, _ => none
  | fuel + 1, n =>
    match c.localGet key n with
    | some _ => some ⟨c.value key n, [n]⟩
    | none =>
      (gatewayTrace c.address (trace fuel) n (c.owners key)).map fun t =>
        ⟨t.found, (if c.isOwner key n then [n] else []) ++ t.consulted⟩

/-- A value that the read at `n` returns is the data of a record, and no node consulted for
it holds a tombstone that wins over this record. -/
def NoResurrection (n : NodeID) : Prop :=
  ∀ fuel val calls, c.get key fuel n = some (some val, calls) →
    ∃ t v, c.trace key fuel n = some t ∧ t.found = some v ∧ v.data = val ∧
      ∀ o ∈ t.consulted, ∀ w, c.held key o = some w → w.tombstone = true → lwwWins v w = false

/-- The owners before the first with a value, in the order of the ring. -/
def passedOver : List NodeID := (c.owners key).takeWhile fun m => !c.live key m

/-- The first owner with a value stands behind a tombstone that wins over its record. -/
def buried : Bool :=
  ((c.owners key).find? (c.live key)).any fun m => (c.passedOver key).any fun o =>
    (c.held key m).any fun v => (c.held key o).any fun w => w.tombstone && lwwWins v w

variable {c key}

theorem loadData_eq_value (n : NodeID) :
    (c.hm n).loadData key (hashFunc key) = (c.value key n).map Value.data := by
  rw [value, held, ShardedMap.loadData]
  cases (c.hm n).loadCell key (hashFunc key) with
  | none => rfl
  | some v => cases dead : v.tombstone <;> simp [dead, Option.filter]

theorem get_eq_trace (fuel : Nat) (n : NodeID) :
    (c.get key fuel n).map Prod.fst = (c.trace key fuel n).map fun t => t.found.map Value.data := by
  induction fuel generalizing n with
  | zero => rfl
  | succ fuel ih =>
    cases holds : c.answers key n with
    | true => simp [get, trace, localGet_of_answers holds, loadData_eq_value]
    | false =>
      simpa only [get, trace, localGet_of_not_answers holds, Option.map_map, Function.comp_def]
        using gatewayGet_eq_gatewayTrace c.address ih n (c.owners key)

/-- The property, on traces alone. -/
theorem noResurrection_iff {n : NodeID} : c.NoResurrection key n ↔
    ∀ fuel t v, c.trace key fuel n = some t → t.found = some v →
      ∀ o ∈ t.consulted, ∀ w, c.held key o = some w → w.tombstone = true → lwwWins v w = false := by
  constructor
  · intro safe fuel t v ends found
    have same : (c.get key fuel n).map Prod.fst = _ := get_eq_trace fuel n
    rw [ends, Option.map_some, found, Option.map_some] at same
    obtain ⟨⟨answer, calls⟩, returns, rfl⟩ := Option.map_eq_some_iff.mp same
    obtain ⟨t', v', ends', found', -, newest⟩ := safe fuel v.data calls returns
    cases ends.symm.trans ends'
    cases found.symm.trans found'
    exact newest
  · intro safe fuel val calls returns
    have same := (get_eq_trace fuel n).symm.trans (congrArg (Option.map Prod.fst) returns)
    obtain ⟨t, ends, answer⟩ := Option.map_eq_some_iff.mp same
    obtain ⟨v, found, data⟩ := Option.map_eq_some_iff.mp answer
    exact ⟨t, v, ends, found, data, safe fuel t v ends found⟩

theorem trace_of_answers {n : NodeID} (holds : c.answers key n = true) (fuel : Nat) :
    c.trace key (fuel + 1) n = some ⟨c.value key n, [n]⟩ := by
  simp only [trace, localGet_of_answers holds]

theorem value_eq_some {n : NodeID} {v : Value} (found : c.value key n = some v) : c.held key n = some v :=
  (Option.filter_eq_some_iff.mp found).1

theorem live_eq {n : NodeID} (holds : c.answers key n = true) : c.live key n = (c.value key n).isSome := by
  rw [live, holds, Bool.true_and, loadData_eq_value, Option.isSome_map]

/-- A read that a node answers itself consults that node alone. -/
theorem noResurrection_of_answers {n : NodeID} (holds : c.answers key n = true) : c.NoResurrection key n := by
  refine noResurrection_iff.mpr fun fuel t v ends found o member w stored _ => ?_
  cases fuel with
  | zero => cases ends
  | succ fuel =>
    rw [trace_of_answers holds] at ends
    cases ends
    rw [List.mem_singleton.mp member, value_eq_some found] at stored
    cases stored
    exact Bool.eq_false_of_not_eq_true fun wins => lt_irrefl _ (lwwWins_iff.mp wins)

/-- Over owners that answer, the loop consults them up to and including the first with a value. -/
theorem gatewayTrace_of_answers {n : NodeID} {remote : NodeID → Option Trace} {l : List NodeID}
    (reachable : ∀ o ∈ l, c.address o = true) (holds : ∀ o ∈ l, c.answers key o = true) (outside : n ∉ l)
    (calls : ∀ o ∈ l, remote o = some ⟨c.value key o, [o]⟩) :
    gatewayTrace c.address remote n l =
      some ⟨(l.find? (c.live key)).bind (c.value key),
        l.takeWhile (fun m => !c.live key m) ++ (l.find? (c.live key)).toList⟩ := by
  induction l with
  | nil => rfl
  | cons owner rest ih =>
    simp only [List.forall_mem_cons] at reachable holds calls
    simp only [List.mem_cons, not_or] at outside
    rw [gatewayTrace, if_neg (Ne.symm outside.1), if_pos reachable.1, calls.1]
    cases found : c.value key owner with
    | some v =>
      have alive : c.live key owner = true := by rw [live_eq holds.1, found, Option.isSome_some]
      simp [alive, found]
    | none =>
      have dead : c.live key owner = false := by rw [live_eq holds.1, found, Option.isSome_none]
      simp [dead, ih reachable.2 holds.2 outside.2 calls.2]

theorem answers_of_held {o : NodeID} (owner : o ∈ c.owners key) (stored : c.held key o ≠ none) :
    c.answers key o = true := by
  obtain ⟨v, found⟩ := Option.ne_none_iff_exists'.mp stored
  have owns : c.isOwner key o = true := List.contains_iff_mem.mpr owner
  rw [held] at found
  simp [answers, owns, ShardedMap.load, found]

/-- What a read that goes through the gateway returns and consults, with every owner answering. -/
theorem trace_of_not_answers {n : NodeID} (reachable : ∀ o ∈ c.owners key, c.address o = true)
    (holds : ∀ o ∈ c.owners key, c.answers key o = true) (asks : c.answers key n = false) (fuel : Nat) :
    c.trace key (fuel + 2) n =
      some ⟨((c.owners key).find? (c.live key)).bind (c.value key),
        c.passedOver key ++ ((c.owners key).find? (c.live key)).toList⟩ := by
  have outside : n ∉ c.owners key := fun member => by simp [holds n member] at asks
  have other : c.isOwner key n = false := Bool.eq_false_of_not_eq_true fun owns =>
    outside (List.contains_iff_mem.mp owns)
  rw [trace, localGet_of_not_answers asks, gatewayTrace_of_answers reachable holds outside
    fun o member => trace_of_answers (holds o member) fuel]
  simp [other, passedOver]

theorem buried_eq_false : c.buried key = false ↔
    ∀ m, (c.owners key).find? (c.live key) = some m → ∀ o ∈ c.passedOver key, ∀ v, c.held key m = some v →
      ∀ w, c.held key o = some w → w.tombstone = true → lwwWins v w = false := by
  simp only [buried, ← Bool.not_eq_true, Option.any_eq_true, List.any_eq_true, Bool.and_eq_true]
  simp only [not_exists, not_and]

/-- **Reads and deleted keys**: with every owner reachable and holding a record, a read
returns no record that a consulted tombstone wins over exactly when its node answers
from its own map or no owner before the first with a value holds such a tombstone. -/
theorem get_no_resurrection_iff (c : Peers) (key : Key)
    (reachable : ∀ o ∈ c.owners key, c.address o = true)
    (stored : ∀ o ∈ c.owners key, c.held key o ≠ none) (n : NodeID) :
    c.NoResurrection key n ↔ c.answers key n = true ∨ c.buried key = false := by
  have holds (o : NodeID) (member : o ∈ c.owners key) := answers_of_held member (stored o member)
  cases own : c.answers key n with
  | true => simpa using noResurrection_of_answers own
  | false =>
    have through := trace_of_not_answers reachable holds own
    rw [noResurrection_iff, buried_eq_false]
    constructor
    · intro safe
      refine Or.inr fun m first o passed v found => ?_
      have alive : c.live key m = true := List.find?_some first
      rw [live_eq (holds m (List.mem_of_find?_eq_some first)), Option.isSome_iff_exists] at alive
      obtain ⟨v', returned⟩ := alive
      cases found.symm.trans (value_eq_some returned)
      exact safe 2 _ v (through 0) (by simp [first, returned]) o (List.mem_append_left _ passed)
    · rintro (answered | safe) fuel t v ends found o member w stored dead
      · cases answered
      · match fuel, ends with
        | 1, ends =>
          -- One unit of fuel is spent before any peer can answer.
          simp only [trace, localGet_of_not_answers own, Option.map_eq_some_iff] at ends
          obtain ⟨t', ends', rfl⟩ := ends
          cases (found_gatewayTrace_none ends').symm.trans found
        | fuel + 2, ends =>
          cases (through fuel).symm.trans ends
          obtain ⟨m, first, returned⟩ := Option.bind_eq_some_iff.mp found
          rcases List.mem_append.mp member with passed | self
          · exact safe m first o passed v (value_eq_some returned) w stored dead
          · rw [first, Option.toList_some, List.mem_singleton] at self
            subst self
            cases stored.symm.trans (value_eq_some returned)
            simp [value, Option.filter_eq_some_iff, dead] at returned

end Peers

/-! ## A reader beside the two owners -/

open Reference

/-- Nodes `a`, `b` and `c` of weight one with replication factor two; `c` and then `b` own the key. -/
def threeNodes (hm : NodeID → ShardedMap) : Peers :=
  { twoNodes hm with ring := (twoNodes hm).ring.addNodeWithWeight [99] 1 }

theorem threeNodes_owners (hm : NodeID → ShardedMap) : (threeNodes hm).owners sharedKey = [[99], [98]] :=
  have owners : (threeNodes fun _ => newShardedMap).owners sharedKey = [[99], [98]] := by decide +kernel
  owners

/-- The key was written at time five and deleted at time `deleted`; the deletion has reached
`c`, the write has reached `b`. -/
def deletedAt (deleted : Int64) (n : NodeID) : ShardedMap :=
  if n = [99] then newShardedMap.store sharedKey (hashFunc sharedKey) ⟨[99], [], deleted, true, 0⟩
  else if n = [98] then newShardedMap.store sharedKey (hashFunc sharedKey) ⟨[98], [1], 5, false, 0⟩
  else newShardedMap

/-- A tombstone older than the value does not stand in its way. -/
theorem get_no_resurrection_iff_older : (threeNodes (deletedAt 4)).NoResurrection sharedKey [97] ∧
    (threeNodes (deletedAt 4)).get sharedKey 2 [97] = some (some [1], 2) := by
  refine ⟨(Peers.get_no_resurrection_iff _ sharedKey (fun o _ => rfl) ?_ [97]).mpr (Or.inr ?_), ?_⟩
  · rw [threeNodes_owners]
    decide +kernel
  · simp only [Peers.buried, Peers.passedOver, Peers.live, Peers.answers, Peers.isOwner, threeNodes_owners]
    decide +kernel
  · simp only [Peers.get, Peers.localGet, Peers.isOwner, threeNodes_owners]
    decide +kernel

/-- The read at `a` passes over the tombstone at `c` and returns the older value of `b`. -/
theorem get_resurrects :
    (∀ o ∈ (threeNodes (deletedAt 6)).owners sharedKey, (threeNodes (deletedAt 6)).address o = true) ∧
      (∀ o ∈ (threeNodes (deletedAt 6)).owners sharedKey, (threeNodes (deletedAt 6)).held sharedKey o ≠ none) ∧
      (threeNodes (deletedAt 6)).get sharedKey 2 [97] = some (some [1], 2) ∧
      ¬(threeNodes (deletedAt 6)).NoResurrection sharedKey [97] := by
  refine ⟨fun o _ => rfl, ?_, ?_, fun safe => ?_⟩
  · rw [threeNodes_owners]
    decide +kernel
  · simp only [Peers.get, Peers.localGet, Peers.isOwner, threeNodes_owners]
    decide +kernel
  have traced : (threeNodes (deletedAt 6)).trace sharedKey 2 [97] =
      some ⟨(threeNodes (deletedAt 6)).held sharedKey [98], [[99], [98]]⟩ := by
    simp only [Peers.trace, Peers.localGet, Peers.isOwner, threeNodes_owners]
    decide +kernel
  have wins : (((threeNodes (deletedAt 6)).held sharedKey [98]).any fun v =>
      ((threeNodes (deletedAt 6)).held sharedKey [99]).any fun w => w.tombstone && lwwWins v w) = true := by
    decide +kernel
  obtain ⟨v, found, later⟩ := (Option.any_eq_true _ _).mp wins
  obtain ⟨w, stored, dead⟩ := (Option.any_eq_true _ _).mp later
  rw [Bool.and_eq_true] at dead
  have newest := Peers.noResurrection_iff.mp safe 2 _ v traced found [99] List.mem_cons_self w stored dead.1
  simp [newest] at dead

end Oryx.Cluster
