import Oryx.Mesh.Ownership

/-!
# What a change of one node moves

Adding, removing or re-weighting one node changes the labels of that node only, so the
other nodes keep their order in every preference. A node that gains labels moves
forward in it, one that loses labels moves back, and where it does not appear the
owners stay what they were.
-/

namespace Oryx.Mesh
set_option autoImplicit false
open Oryx.Library

/-- The change names node `n` and no other. -/
def RingOp.Only (n : NodeID) : RingOp → Prop
  | .addNode id => id = n
  | .addNodeWithWeight id _ => id = n
  | .updateNodeWeight id _ => id = n
  | .addNodes ids => ∀ id ∈ ids, id = n
  | .removeNode id => id = n

namespace HashRing

variable [Security] [VnodeSort] {n : NodeID}

/-- A change leaves the weights of all other nodes. -/
theorem weights_step (r : HashRing) {op : RingOp} (only : op.Only n) {id : NodeID} (other : id ≠ n) :
    (r.step op).weights id = r.weights id := by
  have added (weight : Int) : (r.addNodeWithWeight n weight).weights id = r.weights id := by
    unfold addNodeWithWeight
    split <;> exact Function.update_of_ne other ..
  cases op with
  | addNode nodeID =>
    obtain rfl : nodeID = n := only
    exact added _
  | addNodeWithWeight nodeID weight =>
    obtain rfl : nodeID = n := only
    exact added weight
  | updateNodeWeight nodeID weight =>
    obtain rfl : nodeID = n := only
    simp only [step, updateNodeWeight]
    split
    · rfl
    · exact Function.update_of_ne other ..
  | addNodes ids =>
    simp only [step, addNodes]
    split
    · rfl
    · exact (weights_foldl_appendNode _ r id).trans
        (if_neg fun member => other (only id (List.mem_of_mem_filter member)))
  | removeNode nodeID =>
    obtain rfl : nodeID = n := only
    simp only [step, removeNode]
    split
    · rfl
    · exact Function.update_of_ne other ..

omit [VnodeSort] in
/-- More labels are more ways to the node. -/
theorem ways_subset {r r' : HashRing} (gains : r.share n ≤ r'.share n) (key : Key) : r.ways key n ⊆ r'.ways key n := by
  refine Set.image_mono ?_
  rintro h ⟨j, small, here⟩
  exact ⟨j, small.trans_le gains, here⟩

/-- The owners and the node of a key after node `n` has gained labels: `n` moves up in
the owners or they are the same, and the node is `n` or the same. -/
structure Gains (n : NodeID) (r r' : HashRing) (key : Key) : Prop where
  owners : ∀ rf, MovesUp n (r.getOwners key rf) (r'.getOwners key rf)
  node : r'.getNode key = n ∨ r'.getNode key = r.getNode key

omit [VnodeSort] in
theorem Gains.of_ways {r r' : HashRing} {key : Key} (valid : r.Valid) (valid' : r'.Valid)
    (ranks : Ranks (r.ways key) (r.preference key)) (ranks' : Ranks (r'.ways key) (r'.preference key))
    (others : ∀ id, id ≠ n → r.ways key id = r'.ways key id) (gains : r.share n ≤ r'.share n) : Gains n r r' key := by
  have moves (t : Nat) := ranks.movesUp ranks' others (ways_subset gains key) t
  refine ⟨fun rf => ?_, ?_⟩
  · rw [valid.getOwners_eq, valid'.getOwners_eq]
    exact moves _
  · have head (l : List NodeID) : l.head? = (l.take 1).head? := by cases l <;> rfl
    rw [getNode_eq, getNode_eq]
    by_cases first : n ∈ (r'.preference key).take 1
    · left
      cases preference : r'.preference key with
      | nil => simp [preference] at first
      | cons id rest =>
        rw [preference, List.take_succ_cons, List.take_zero, List.mem_singleton] at first
        exact first.symm
    · rw [head, (moves 1).same first, ← head]
      exact Or.inr rfl

/-- **Consistent hashing moves only what it must.** Between a reachable ring and the
ring after a change of node `n` alone, the other owners of a key keep their order and
none is skipped. If the effective weight of `n` did not decrease, `n` moves up in the
owners or they stay as they are; if it did not increase, the same holds backwards. -/
theorem change_moves_one_node (ops : List RingOp) {op : RingOp} (only : op.Only n)
    (separated : (after ops).Separated) (separated' : (after (ops ++ [op])).Separated) (key : Key) :
    let r := after ops
    let r' := after (ops ++ [op])
    (∀ rf, (r.getOwners key rf).filter (· ≠ n) <+: (r'.getOwners key rf).filter (· ≠ n) ∨
      (r'.getOwners key rf).filter (· ≠ n) <+: (r.getOwners key rf).filter (· ≠ n)) ∧
    (r.share n ≤ r'.share n → Gains n r r' key) ∧
    (r'.share n ≤ r.share n → Gains n r' r key) := by
  intro r r'
  have valid : r.Valid := valid_after ops
  have valid' : r'.Valid := valid_after (ops ++ [op])
  have ranks := valid.ranks_preference separated key
  have ranks' := valid'.ranks_preference separated' key
  have others (id : NodeID) (other : id ≠ n) : r.ways key id = r'.ways key id := by
    refine ways_eq_of_weights ?_ key
    rw [show r' = r.step op from runFrom_snoc .., weights_step r only other]
  refine ⟨fun rf => ?_, Gains.of_ways valid valid' ranks ranks' others,
    Gains.of_ways valid' valid ranks' ranks fun id other => (others id other).symm⟩
  have same := ranks.filter_eq ranks' others
  rw [valid.getOwners_eq, valid'.getOwners_eq]
  have front (l : List NodeID) : (l.take rf.toNat).filter (· ≠ n) <+: l.filter (· ≠ n) := (List.take_prefix ..).filter _
  exact List.prefix_or_prefix_of_prefix (front _) (same ▸ front (r'.preference key))

end HashRing

open Reference

/-- A third node joins a ring of two and becomes the first owner of a key. -/
def thirdNodeJoins : RingOp := .addNodeWithWeight [99] 4

theorem change_moves_one_node_joins :
    let r := HashRing.after joined
    let r' := HashRing.after (joined ++ [thirdNodeJoins])
    r.share [99] ≤ r'.share [99] ∧ HashRing.Gains [99] r r' [107] := by
  have only : thirdNodeJoins.Only [99] := rfl
  have separated : (HashRing.after joined).Separated :=
    (HashRing.valid_after _).separated_iff.mpr (by decide +kernel)
  have separated' : (HashRing.after (joined ++ [thirdNodeJoins])).Separated :=
    (HashRing.valid_after _).separated_iff.mpr (by decide +kernel)
  have gains : (HashRing.after joined).share [99] ≤ (HashRing.after (joined ++ [thirdNodeJoins])).share [99] := by
    decide +kernel
  exact ⟨gains, (HashRing.change_moves_one_node joined only separated separated' [107]).2.1 gains⟩

end Oryx.Mesh
