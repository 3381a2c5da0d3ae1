import Oryx.Mesh.HashRing
import Oryx.Hashmap.ShardedMap
import Oryx.Security.Reference

/-!
# Cluster reads

`Node.Get` of `cluster/node.go`, `Gateway.Get` and `proxyGetRemote` of
`cluster/gateway/gateway.go`, and `server.Get` on the peer, which is `Node.Get`
there. A read is evaluated with fuel, one unit for each node on the forwarding
path; every call is delivered and answered, so a read that runs out of every
amount of fuel forwards forever.
-/

namespace Oryx.Cluster
set_option autoImplicit false

open Hashmap Mesh

/-- The nodes of a cluster that agree on the ring, on its replication factor and on the
peers whose addresses are known. -/
structure Peers where
  ring : HashRing
  replicationFactor : Int
  singleNode : NodeID → Bool
  address : NodeID → Bool
  hm : NodeID → ShardedMap

/-- What a read ends with: the value found, if any, and the number of remote calls it took. -/
abbrev Outcome := Option Bytes × Nat

/-- `Gateway.Get` at node `n` over the owners still to try; `remote` is `server.Get` of a peer. -/
def gatewayGet (address : NodeID → Bool) (remote : NodeID → Option Outcome) (n : NodeID) :
    List NodeID → Option Outcome
  | [] => some (none, 0)
  | owner :: rest =>
    if owner = n then gatewayGet address remote n rest
    else if address owner then
      match remote owner with
      | none => none
      | some (some val, calls) => some (some val, calls + 1)
      | some (none, calls) => (gatewayGet address remote n rest).map fun o => (o.1, o.2 + calls + 1)
    else gatewayGet address remote n rest

namespace Peers

variable [Security] (c : Peers) (key : Key)

/-- The owners of a key, with the replication factor that stands in for a missing one. -/
def owners : List NodeID :=
  c.ring.getOwners key (if c.replicationFactor ≤ 0 then 1 else c.replicationFactor)

def isOwner (n : NodeID) : Bool := (c.owners key).contains n

/-- What `Node.Get` answers from the node's own map; `none` when it asks the gateway. -/
def localGet (n : NodeID) : Option (Option Bytes) :=
  if c.singleNode n then some ((c.hm n).loadData key (hashFunc key))
  else if c.isOwner key n then
    ((c.hm n).load key (hashFunc key)).map fun iv => if iv.tombstone then none else some iv.data
  else none

/-- `Node.Get` with fuel. -/
def get : Nat → NodeID → Option Outcome
  | 0, _ => none
  | fuel + 1, n =>
    match c.localGet key n with
    | some answer => some (answer, 0)
    | none => gatewayGet c.address (get fuel) n (c.owners key)

/-- The node answers from its own map: it runs alone, or owns the key and holds a record of it. -/
def answers (n : NodeID) : Bool :=
  c.singleNode n || (c.isOwner key n && ((c.hm n).load key (hashFunc key)).isSome)

/-- The node answers with a value. -/
def live (n : NodeID) : Bool := c.answers key n && ((c.hm n).loadData key (hashFunc key)).isSome

/-- The owners a read may call: the reachable ones before the first that has a value. -/
def called : List NodeID := ((c.owners key).filter c.address).takeWhile fun m => !c.live key m

/-- The owners among them that would ask the gateway in turn. -/
def forwarding : List NodeID := (c.called key).filter fun m => !c.answers key m

/-- The read at `n` comes to an end. -/
def Terminates (n : NodeID) : Prop := ∃ fuel answer calls, c.get key fuel n = some (answer, calls)

variable {c key}

theorem localGet_of_answers {n : NodeID} (held : c.answers key n = true) :
    c.localGet key n = some ((c.hm n).loadData key (hashFunc key)) := by
  cases single : c.singleNode n with
  | true => simp [localGet, single]
  | false =>
    simp only [answers, single, Bool.false_or, Bool.and_eq_true] at held
    obtain ⟨iv, found⟩ := Option.isSome_iff_exists.mp held.2
    obtain ⟨cell, found_cell, rfl⟩ := Option.map_eq_some_iff.mp found
    simp [localGet, single, held.1, ShardedMap.load, ShardedMap.loadData, found_cell, Value.blank]

theorem localGet_of_not_answers {n : NodeID} (absent : c.answers key n = false) : c.localGet key n = none := by
  simp only [answers, Bool.or_eq_false_iff, Bool.and_eq_false_iff, Option.isSome_eq_false_iff,
    Option.isNone_iff_eq_none] at absent
  rcases absent with ⟨single, other | missing⟩
  · simp [localGet, single, other]
  · simp [localGet, single, missing]

theorem get_of_answers {n : NodeID} (held : c.answers key n = true) (fuel : Nat) :
    c.get key (fuel + 1) n = some ((c.hm n).loadData key (hashFunc key), 0) := by
  simp only [get, localGet_of_answers held]

theorem get_of_not_answers {n : NodeID} (absent : c.answers key n = false) (fuel : Nat) :
    c.get key (fuel + 1) n = gatewayGet c.address (c.get key fuel) n (c.owners key) := by
  simp only [get, localGet_of_not_answers absent]

theorem nodup_forwarding (c : Peers) (key : Key) : (c.forwarding key).Nodup :=
  (((c.ring.nodup_getOwners key _).filter _).sublist (List.takeWhile_sublist _)).filter _

/-- A loop whose calls return, up to the first owner with a value, returns. -/
theorem gatewayGet_isSome {n : NodeID} (absent : c.answers key n = false) {remote : NodeID → Option Outcome}
    (value : ∀ m, c.live key m = true → ∃ val calls, remote m = some (some val, calls)) {l : List NodeID}
    (answered : ∀ m ∈ (l.filter c.address).takeWhile (fun m => !c.live key m), m ≠ n → (remote m).isSome) :
    (gatewayGet c.address remote n l).isSome := by
  have dead : c.live key n = false := by simp [live, absent]
  induction l with
  | nil => rfl
  | cons owner rest ih =>
    rw [gatewayGet]
    split
    · rename_i self
      subst self
      refine ih fun m member other => answered m ?_ other
      by_cases reachable : c.address owner = true
      · simpa [reachable, dead] using Or.inr member
      · simpa [reachable] using member
    · rename_i other
      split
      · rename_i reachable
        cases found : c.live key owner with
        | true =>
          obtain ⟨val, calls, answer⟩ := value owner found
          simp only [answer, Option.isSome_some]
        | false =>
          have head : (remote owner).isSome := answered owner (by simp [reachable, found]) other
          have tail : (gatewayGet c.address remote n rest).isSome :=
            ih fun m member => answered m (by simpa [reachable, found] using Or.inr member)
          obtain ⟨⟨answer, calls⟩, answer_eq⟩ := Option.isSome_iff_exists.mp head
          rw [answer_eq]
          cases answer with
          | none => simpa only [Option.isSome_map] using tail
          | some val => rfl
      · rename_i unreachable
        exact ih fun m member => answered m (by simpa [unreachable] using member)

/-- A loop that reaches an owner whose read does not return does not return. -/
theorem gatewayGet_eq_none {n : NodeID} {remote : NodeID → Option Outcome}
    (stuck : ∀ m, c.answers key m = false → remote m = none)
    (empty : ∀ m val calls, c.answers key m = true → c.live key m = false → remote m ≠ some (some val, calls))
    {l : List NodeID} {a : NodeID} (member : a ∈ (l.filter c.address).takeWhile (fun m => !c.live key m))
    (forwards : c.answers key a = false) (other : a ≠ n) :
    gatewayGet c.address remote n l = none := by
  induction l with
  | nil => simp at member
  | cons owner rest ih =>
    rw [gatewayGet]
    by_cases reachable : c.address owner = true
    · rw [List.filter_cons_of_pos reachable, List.takeWhile_cons] at member
      cases found : c.live key owner with
      | true => simp [found] at member
      | false =>
        simp only [found, Bool.not_false, if_true, List.mem_cons] at member
        by_cases self : owner = n
        · rw [if_pos self]
          exact ih (member.resolve_left fun same => other (same.trans self))
        · rw [if_neg self, if_pos reachable]
          cases held : c.answers key owner with
          | false => simp only [stuck owner held]
          | true =>
            have tail := ih (member.resolve_left fun same => by simp [← same, forwards] at held)
            cases answer : remote owner with
            | none => rfl
            | some o =>
              obtain ⟨val, calls⟩ := o
              cases val with
              | none => simp only [tail, Option.map_none]
              | some val => exact absurd answer (empty owner val calls held found)
    · rw [List.filter_cons_of_neg reachable] at member
      rw [if_neg reachable, ih member, ite_self]

theorem get_succ_isSome {n : NodeID} (absent : c.answers key n = false) {fuel : Nat}
    (answered : ∀ m ∈ c.called key, m ≠ n → (c.get key (fuel + 1) m).isSome) :
    (c.get key (fuel + 2) n).isSome := by
  rw [get_of_not_answers absent]
  refine gatewayGet_isSome absent (fun m found => ?_) answered
  simp only [live, Bool.and_eq_true] at found
  obtain ⟨val, value⟩ := Option.isSome_iff_exists.mp found.2
  exact ⟨val, 0, by rw [get_of_answers found.1, value]⟩

theorem forwarding_eq (few : (c.forwarding key).length ≤ 1) {a b : NodeID} (first : a ∈ c.forwarding key)
    (second : b ∈ c.forwarding key) : a = b := by
  rcases Nat.le_one_iff_eq_zero_or_eq_one.mp few with none | one
  · simp [List.length_eq_zero_iff.mp none] at first
  · obtain ⟨only, forwarding⟩ := List.length_eq_one_iff.mp one
    rw [forwarding, List.mem_singleton] at first second
    rw [first, second]

theorem exists_forwarding_ne (many : 1 < (c.forwarding key).length) (n : NodeID) :
    ∃ a ∈ c.forwarding key, a ≠ n := by
  have nodup := c.nodup_forwarding key
  match forwarding : c.forwarding key, many with
  | a :: b :: rest, _ =>
    rw [forwarding, List.nodup_cons] at nodup
    by_cases first : a = n
    · exact ⟨b, by simp, fun second => nodup.1 (by simp [first, second])⟩
    · exact ⟨a, by simp, first⟩

/-- With at most one forwarding owner a read ends within three nodes of its start. -/
theorem get_three_isSome (few : (c.forwarding key).length ≤ 1) (n : NodeID) : (c.get key 3 n).isSome := by
  have member {m : NodeID} (called : m ∈ c.called key) (absent : c.answers key m = false) :
      m ∈ c.forwarding key := List.mem_filter.mpr ⟨called, by simp [absent]⟩
  have answered {m : NodeID} (called : m ∈ c.called key) : (c.get key 2 m).isSome := by
    cases held : c.answers key m with
    | true => simp only [get_of_answers held, Option.isSome_some]
    | false =>
      refine get_succ_isSome held fun p reached other => ?_
      cases answer : c.answers key p with
      | true => simp only [get_of_answers answer, Option.isSome_some]
      | false => exact absurd (forwarding_eq few (member reached answer) (member called held)) other
  cases held : c.answers key n with
  | true => simp only [get_of_answers held, Option.isSome_some]
  | false => exact get_succ_isSome held fun m called _ => answered called

/-- Two forwarding owners send every read that reaches one of them back and forth. -/
theorem get_eq_none (many : 1 < (c.forwarding key).length) (fuel : Nat) {n : NodeID}
    (absent : c.answers key n = false) : c.get key fuel n = none := by
  induction fuel generalizing n with
  | zero => rfl
  | succ fuel ih =>
    rw [get_of_not_answers absent]
    obtain ⟨a, member, other⟩ := exists_forwarding_ne many n
    obtain ⟨called, forwards⟩ := List.mem_filter.mp member
    refine gatewayGet_eq_none (fun m => ih) (fun m val calls held empty => ?_) called
      (by simpa using forwards) other
    cases fuel with
    | zero => simp [get]
    | succ fuel =>
      rw [get_of_answers held]
      simp only [live, held, Bool.true_and, Option.isSome_eq_false_iff, Option.isNone_iff_eq_none] at empty
      simp [empty]

/-- **Termination of reads**: a read ends exactly when its node answers from its own
map or at most one of the owners it may call does not answer from its own. -/
theorem get_terminates_iff (c : Peers) (key : Key) (n : NodeID) :
    c.Terminates key n ↔ c.answers key n = true ∨ (c.forwarding key).length ≤ 1 := by
  constructor
  · rintro ⟨fuel, answer, calls, ends⟩
    by_contra neither
    obtain ⟨absent, many⟩ := not_or.mp neither
    simp [get_eq_none (Nat.lt_of_not_le many) fuel (Bool.eq_false_of_not_eq_true absent)] at ends
  · rintro (held | few)
    · exact ⟨1, _, 0, get_of_answers held 0⟩
    · obtain ⟨⟨answer, calls⟩, ends⟩ := Option.isSome_iff_exists.mp (get_three_isSome few n)
      exact ⟨3, answer, calls, ends⟩

end Peers

/-! ## Two owners without the key -/

open Reference

/-- A key that both nodes own. -/
def sharedKey : Key := [107]

/-- Two nodes of weight one, `a` and `b`, replication factor two, and the given maps. -/
def twoNodes (hm : NodeID → ShardedMap) : Peers where
  ring := (newHashRing.addNodeWithWeight [97] 1).addNodeWithWeight [98] 1
  replicationFactor := 2
  singleNode _ := false
  address _ := true
  hm := hm

/-- No node has the key: each owner asks the other. -/
theorem get_absent_forwards_forever : ¬(twoNodes fun _ => newShardedMap).Terminates sharedKey [97] := by
  rintro ⟨fuel, answer, calls, ends⟩
  have many : 1 < ((twoNodes fun _ => newShardedMap).forwarding sharedKey).length := by decide +kernel
  have absent : (twoNodes fun _ => newShardedMap).answers sharedKey [97] = false := by decide +kernel
  simp [Peers.get_eq_none many fuel absent] at ends

example : (twoNodes fun n =>
    if n = [98] then newShardedMap.store sharedKey (hashFunc sharedKey) ⟨[98], [1], 5, false, 0⟩
    else newShardedMap).get sharedKey 3 [97] = some (some [1], 1) := by decide +kernel

end Oryx.Cluster
