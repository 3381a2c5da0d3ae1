import Mathlib.Data.Set.Card
import Oryx.Library.Search
import Oryx.Mesh.Ownership

/-!
# What GetOwners returns

`GetOwners` and `GetNode` with the index expressions of the source, each of which panics
outside its slice, and with the binary search they make. On every ring that can be reached
no index is out of range, and the owners are the first members that a clockwise walk from
the key's hash meets. Who is a member, and with which weight, follows from the changes
alone.
-/

namespace Oryx.Mesh
set_option autoImplicit false
open Oryx.Library

/-! ## Membership -/

/-- What a change does to the weights of the members. -/
def RingOp.apply (members : NodeID → Option Int) : RingOp → NodeID → Option Int
  | .addNode id => Function.update members id (some defaultVnodes)
  | .addNodeWithWeight id weight => Function.update members id (some weight)
  | .updateNodeWeight id weight =>
    if (members id).isSome then Function.update members id (some weight) else members
  | .addNodes ids => fun id => if id ∈ ids ∧ (members id).isNone then some defaultVnodes else members id
  | .removeNode id => Function.update members id none

/-- The members after a sequence of changes, with their weights. -/
def membersAfter (ops : List RingOp) : NodeID → Option Int := runFrom RingOp.apply (fun _ => none) ops

namespace HashRing

/-! ## Checked indices -/

/-- `r.nodeList[r.vnodes[i].nodeIdx]`, or a panic. -/
def nodeAtChecked (r : HashRing) (i : Nat) : Option NodeID := do
  let v ← r.vnodes[i]?
  r.nodeList[v.nodeIdx]?

/-- `sort.Search` over the virtual nodes. -/
def searchChecked [Security] (r : HashRing) (key : Key) : Option Nat :=
  sortSearch (fun i => (r.vnodes[i]?).map fun v => decide (v.hash ≥ hashFuncSecure key)) 0 r.vnodes.length

def walkChecked (r : HashRing) (target idx : Nat) : Nat → List NodeID → Option (List NodeID)
  | 0, owners => some owners
  | left + 1, owners =>
    if owners.length < target then do
      let node ← r.nodeAtChecked ((idx + (r.vnodes.length - (left + 1))) % r.vnodes.length)
      walkChecked r target idx left (if owners.contains node then owners else owners ++ [node])
    else some owners

/-- `GetNode`; `none` is a panic. -/
def getNodeChecked [Security] (r : HashRing) (key : Key) : Option NodeID :=
  if r.vnodes.length = 0 then some []
  else do
    let idx ← r.searchChecked key
    r.nodeAtChecked (if idx = r.vnodes.length then 0 else idx)

/-- `GetOwners`; `none` is a panic. -/
def getOwnersChecked [Security] (r : HashRing) (key : Key) (replicationFactor : Int) : Option (List NodeID) :=
  if r.vnodes.length = 0 then some []
  else if r.target replicationFactor ≤ 0 then some []
  else do
    let idx ← r.searchChecked key
    r.walkChecked (r.target replicationFactor).toNat idx r.vnodes.length []

section Reachable

variable [Security] {r : HashRing}

/-- Each virtual node points at the member it was made for. -/
theorem Valid.resolves (valid : r.Valid) {v : Vnode} (member : v ∈ r.vnodes) :
    ∃ id ∈ r.nodeList, r.nodeList[v.nodeIdx]? = some id ∧ 0 < r.share id := by
  obtain ⟨id, listed, made⟩ := List.mem_flatMap.mp (valid.perm.mem_iff.mp member)
  obtain ⟨j, small, rfl⟩ := List.mem_map.mp made
  obtain ⟨i, found⟩ := Option.isSome_iff_exists.mp ((valid.indexed.listed id).mp listed)
  refine ⟨id, listed, ?_, ?_⟩
  · rw [found, Option.getD_some]
    exact valid.indexed.index id i found
  · rw [valid.share_listed listed]
    exact Nat.zero_lt_of_lt (List.mem_range.mp small)

theorem Valid.nodeAtChecked_eq (valid : r.Valid) {i : Nat} (inside : i < r.vnodes.length) :
    r.nodeAtChecked i = some (r.nodeAt i) := by
  obtain ⟨id, _, found, _⟩ := valid.resolves (List.getElem_mem inside)
  simp [nodeAtChecked, nodeAt, List.getElem?_eq_getElem inside, found]

theorem Valid.searchChecked_eq (valid : r.Valid) (key : Key) : r.searchChecked key = some (r.search key) := by
  have split : r.vnodes.Pairwise fun a b => decide (hashFuncSecure key ≤ a.hash) = true →
      decide (hashFuncSecure key ≤ b.hash) = true := by
    refine valid.sorted.imp fun order before => ?_
    rw [decide_eq_true_eq] at before ⊢
    exact before.trans order
  refine sortSearch_eq (turns_findIdx split) (fun h within => ?_) (Nat.zero_le _) List.findIdx_le_length le_rfl
  simp [List.getElem?_eq_getElem within]

theorem Valid.walkChecked_eq (valid : r.Valid) (target idx : Nat) {left : Nat} (bound : left ≤ r.vnodes.length)
    (owners : List NodeID) : r.walkChecked target idx left owners = some (r.walk target idx left owners) := by
  induction left generalizing owners with
  | zero => rfl
  | succ left ih =>
    rw [walkChecked, walk]
    split
    · have inside : (idx + (r.vnodes.length - (left + 1))) % r.vnodes.length < r.vnodes.length :=
        Nat.mod_lt _ (by omega)
      rw [valid.nodeAtChecked_eq inside]
      exact ih (by omega) _
    · rfl

/-- **No index is out of range** in `GetOwners`. -/
theorem Valid.getOwnersChecked_eq (valid : r.Valid) (key : Key) (rf : Int) :
    r.getOwnersChecked key rf = some (r.getOwners key rf) := by
  rw [getOwnersChecked, getOwners]
  split
  · rfl
  · split
    · rfl
    · rw [valid.searchChecked_eq]
      exact valid.walkChecked_eq _ _ le_rfl _

theorem Valid.getNodeChecked_eq (valid : r.Valid) (key : Key) : r.getNodeChecked key = some (r.getNode key) := by
  rw [getNodeChecked, getNode]
  split
  · rfl
  · rename_i some_vnode
    rw [valid.searchChecked_eq]
    refine valid.nodeAtChecked_eq ?_
    have bound : r.search key ≤ r.vnodes.length := List.findIdx_le_length
    split <;> omega

/-! ## The walk -/

/-- The walk meets the members that have virtual nodes, and no one else. -/
theorem Valid.mem_preference (valid : r.Valid) (key : Key) (id : NodeID) : id ∈ r.preference key ↔ 0 < r.share id := by
  have placed : id ∈ r.preference key ↔ ∃ h, h ∈ positions r.points id := by
    rw [preference, mem_firsts]
    simp only [List.mem_map, List.mem_rotate, positions, Set.mem_ofPred_eq]
    constructor
    · rintro ⟨⟨h, _⟩, member, rfl⟩
      exact ⟨h, member⟩
    · rintro ⟨h, member⟩
      exact ⟨(h, id), member, rfl⟩
  rw [placed, valid.positions_points]
  constructor
  · rintro ⟨_, j, small, _⟩
    exact Nat.zero_lt_of_lt small
  · exact fun some_label => ⟨_, 0, some_label, rfl⟩

theorem Valid.length_preference_eq (valid : r.Valid) (key : Key) :
    (r.preference key).length = {id | 0 < r.share id}.ncard := by
  have same : {id | 0 < r.share id} = ((r.preference key).toFinset : Set NodeID) := by
    ext id
    rw [Set.mem_ofPred_eq, ← valid.mem_preference key, Finset.mem_coe, List.mem_toFinset]
  have nodup : (r.preference key).Nodup := nodup_firsts _
  rw [same, Set.ncard_coe_finset, List.toFinset_card_of_nodup nodup]

end Reachable

/-! ## Weights -/

section Weights

variable [Security] [VnodeSort] {r : HashRing}

theorem weights_addNodes (r : HashRing) (ids : List NodeID) (id : NodeID) :
    (r.addNodes ids).weights id =
      if id ∈ ids ∧ (r.nodes id).isNone then some (defaultVnodes : Int) else r.weights id := by
  have new : id ∈ ids.filter (fun id => (r.nodes id).isNone) ↔ id ∈ ids ∧ (r.nodes id).isNone := List.mem_filter
  simp only [← new]
  unfold addNodes
  split
  · rename_i none
    simp [none]
  · exact weights_foldl_appendNode _ r id

/-- **One change** of the ring is the change of the membership. -/
theorem weights_apply (valid : r.Valid) (op : RingOp) : (r.step op).weights = op.apply r.weights := by
  have known (id : NodeID) : (r.weights id).isSome = (r.nodes id).isSome := valid.indexed.weighted id
  cases op with
  | addNode id =>
    rw [step, addNode, addNodeWithWeight]
    split <;> rfl
  | addNodeWithWeight id weight =>
    rw [step, addNodeWithWeight]
    split <;> rfl
  | updateNodeWeight id weight =>
    rw [step, updateNodeWeight, RingOp.apply, known]
    cases r.nodes id <;> rfl
  | addNodes ids =>
    funext id
    have unknown : (r.weights id).isNone = (r.nodes id).isNone := by
      rw [← Option.not_isSome, ← Option.not_isSome, known]
    rw [step, weights_addNodes, ← unknown]
    rfl
  | removeNode id =>
    rw [step, removeNode, RingOp.apply]
    split
    · rename_i absent
      have weightless : r.weights id = none := by
        rw [← Option.not_isSome_iff_eq_none, known, absent]
        exact Bool.false_ne_true
      rw [eq_comm, Function.update_eq_self_iff, weightless]
    · rfl

theorem weights_after (ops : List RingOp) : (after ops).weights = membersAfter ops := by
  have both : Valid (after ops) ∧ (after ops).weights = membersAfter ops := by
    induction ops using List.reverseRecOn with
    | nil => exact ⟨valid_new, rfl⟩
    | append_singleton past op ih =>
      rw [after, membersAfter, runFrom_snoc, runFrom_snoc]
      exact ⟨ih.1.step op, (weights_apply ih.1 op).trans (congrArg op.apply ih.2)⟩
  exact both.2

/-- A node has virtual nodes exactly when it is a member and its weight is not zero. -/
theorem share_after_pos (ops : List RingOp) (id : NodeID) :
    0 < (after ops).share id ↔ ∃ weight ∈ membersAfter ops id, weight ≠ 0 := by
  rw [share, weights_after]
  cases membersAfter ops id with
  | none => simp
  | some weight =>
    simp only [Option.mem_some_iff, exists_eq_left']
    split
    · rename_i negative
      exact iff_of_true (by decide) (by omega)
    · omega

/-- **GetOwners**: on a ring reached by any changes the virtual nodes are sorted and point at
members, no index is out of range, and the owners are the distinct members in the order in
which the walk clockwise from the key's hash meets them (`preference`): as many as are asked
for, or all whose weight is not zero. The node of the key is the first of them. -/
theorem getOwners_spec (ops : List RingOp) (key : Key) (rf : Int) :
    let r := after ops
    let owners := r.getOwners key rf
    let weighted := {id | ∃ weight ∈ membersAfter ops id, weight ≠ 0}
    r.vnodes.Pairwise (fun a b => a.hash ≤ b.hash) ∧
      (∀ v ∈ r.vnodes, ∃ id, r.nodeList[v.nodeIdx]? = some id ∧ (membersAfter ops id).isSome) ∧
      r.getOwnersChecked key rf = some owners ∧ r.getNodeChecked key = some (r.getNode key) ∧
      owners.Nodup ∧ (∀ id ∈ owners, (membersAfter ops id).isSome) ∧
      owners = (r.preference key).take (min rf.toNat weighted.ncard) ∧ owners.length = min rf.toNat weighted.ncard ∧
      (∀ id, id ∈ r.preference key ↔ id ∈ weighted) ∧
      ∀ first ∈ owners.head?, r.getNode key = first := by
  intro r owners weighted
  have valid : r.Valid := valid_after ops
  have positive : {id | 0 < r.share id} = weighted := Set.ext (share_after_pos ops)
  have walked : (r.preference key).length = weighted.ncard := by rw [valid.length_preference_eq key, positive]
  have taken : owners = (r.preference key).take rf.toNat := valid.getOwners_eq key rf
  have met (id : NodeID) : id ∈ r.preference key ↔ id ∈ weighted := by
    rw [valid.mem_preference key, ← positive]
    rfl
  refine ⟨valid.sorted, fun v member => ?_, valid.getOwnersChecked_eq key rf, valid.getNodeChecked_eq key,
    r.nodup_getOwners key rf, fun id member => ?_, ?_, ?_, met, fun first member => ?_⟩
  · obtain ⟨id, _, found, labelled⟩ := valid.resolves member
    obtain ⟨weight, present, _⟩ := (share_after_pos ops id).mp labelled
    exact ⟨id, found, Option.isSome_iff_exists.mpr ⟨weight, present⟩⟩
  · rw [taken] at member
    obtain ⟨weight, present, _⟩ := (met id).mp (List.mem_of_mem_take member)
    exact Option.isSome_iff_exists.mpr ⟨weight, present⟩
  · rw [taken, ← walked, List.take_eq_take_min]
  · rw [taken, List.length_take, walked]
  · have some_owner : rf.toNat ≠ 0 := by
      intro none
      rw [taken, none, List.take_zero] at member
      cases member
    rw [taken, List.head?_take, if_neg some_owner] at member
    rw [getNode_eq, Option.mem_def.mp member, Option.getD_some]

omit [VnodeSort] in
/-- Rings with the same weights send a key the same way. -/
theorem Valid.preference_of_weights {r r' : HashRing} (valid : r.Valid) (valid' : r'.Valid) (same : r.weights = r'.weights)
    (separated : r.Separated) (key : Key) : r.preference key = r'.preference key := by
  have ranks := valid.ranks_preference separated key
  have ranks' := valid'.ranks_preference (separated.of_weights same) key
  have ways : r.ways key = r'.ways key := funext fun id => ways_eq_of_weights (congrFun same id) key
  exact (ways ▸ ranks).unique ranks'

end Weights

end HashRing

end Oryx.Mesh
