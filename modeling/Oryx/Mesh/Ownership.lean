import Oryx.Library.Clockwise
import Oryx.Library.Runs
import Oryx.Mesh.HashRing
import Oryx.Security.Reference

/-!
# Who owns a key

A ring reached by joins, leaves and re-weightings, in any order, has a virtual node for
each label of each of its nodes and nothing else. So the owners of a key are the nodes
ranked by the way from the key's hash to their nearest label: they depend on the
weights alone, and a change of one node's weight moves that node only.
-/

namespace Oryx.Mesh
set_option autoImplicit false
open Oryx.Library

/-- A change of the membership. -/
inductive RingOp where
  | addNode (nodeID : NodeID)
  | addNodeWithWeight (nodeID : NodeID) (weight : Int)
  | updateNodeWeight (nodeID : NodeID) (weight : Int)
  | addNodes (nodeIDs : List NodeID)
  | removeNode (nodeID : NodeID)
  deriving DecidableEq, Repr

namespace HashRing

/-! ## The node list and its maps -/

/-- The node list, the index map and the weights name the same nodes. -/
structure Indexed (nodes : NodeID → Option Nat) (weights : NodeID → Option Int) (nodeList : List NodeID) : Prop where
  index : ∀ id i, nodes id = some i → nodeList[i]? = some id
  listed : ∀ id, id ∈ nodeList ↔ (nodes id).isSome = true
  weighted : ∀ id, (weights id).isSome = (nodes id).isSome

section Indexed

variable {nodes : NodeID → Option Nat} {weights : NodeID → Option Int} {nodeList : List NodeID}

/-- A node is appended, known or not. -/
theorem Indexed.append (indexed : Indexed nodes weights nodeList) (id : NodeID) (weight : Int) :
    Indexed (Function.update nodes id (some nodeList.length)) (Function.update weights id (some weight))
      (nodeList ++ [id]) where
  index id' i found := by
    by_cases here : id' = id
    · subst here
      rw [Function.update_self] at found
      cases found
      simp
    · rw [Function.update_of_ne here] at found
      have old := indexed.index id' i found
      rw [List.getElem?_append_left (List.getElem?_eq_some_iff.mp old).1, old]
  listed id' := by
    by_cases here : id' = id
    · simp [here]
    · simp [here, indexed.listed]
  weighted id' := by
    by_cases here : id' = id
    · simp [here]
    · simp [here, indexed.weighted]

theorem Indexed.reweight (indexed : Indexed nodes weights nodeList) {id : NodeID} {i : Nat} (known : nodes id = some i)
    (weight : Int) : Indexed nodes (Function.update weights id (some weight)) nodeList where
  index := indexed.index
  listed := indexed.listed
  weighted id' := by
    by_cases here : id' = id
    · simp [here, known]
    · simp [here, indexed.weighted]

/-- The index map of a list points at a place of each member and at nothing else. -/
theorem foldl_reindex (l : List NodeID) (start : Nat) (nodes : NodeID → Option Nat) (id : NodeID) :
    (id ∈ l ∧ ∃ j, (l.zipIdx start).foldl (fun (nodes : NodeID → Option Nat) p => Function.update nodes p.1 (some p.2))
      nodes id = some (start + j) ∧ l[j]? = some id) ∨
    id ∉ l ∧ (l.zipIdx start).foldl (fun (nodes : NodeID → Option Nat) p => Function.update nodes p.1 (some p.2))
      nodes id = nodes id := by
  induction l generalizing start nodes with
  | nil => exact Or.inr ⟨List.not_mem_nil, rfl⟩
  | cons a rest ih =>
    rw [List.zipIdx_cons, List.foldl_cons]
    rcases ih (start + 1) (Function.update nodes a (some start)) with ⟨member, j, found, place⟩ | ⟨absent, same⟩
    · exact Or.inl ⟨List.mem_cons_of_mem a member, j + 1, by rw [found]; congr 1; omega, place⟩
    · rw [same]
      by_cases here : id = a
      · subst here
        exact Or.inl ⟨List.mem_cons_self, 0, Function.update_self .., rfl⟩
      · exact Or.inr ⟨by simp [here, absent], Function.update_of_ne here ..⟩

theorem reindex_cases (l : List NodeID) (id : NodeID) :
    (id ∈ l ∧ ∃ j, reindex l id = some j ∧ l[j]? = some id) ∨ id ∉ l ∧ reindex l id = none := by
  have lookup := foldl_reindex l 0 (fun _ => none) id
  simp only [Nat.zero_add] at lookup
  exact lookup

theorem Indexed.remove (indexed : Indexed nodes weights nodeList) (id : NodeID) :
    Indexed (reindex (nodeList.filter (· ≠ id))) (Function.update weights id none) (nodeList.filter (· ≠ id)) := by
  refine ⟨fun id' i found => ?_, fun id' => ?_, fun id' => ?_⟩ <;>
    rcases reindex_cases (nodeList.filter (· ≠ id)) id' with ⟨member, j, place, here⟩ | ⟨absent, nothing⟩
  · rwa [← Option.some.inj (place.symm.trans found)]
  · cases nothing.symm.trans found
  · exact iff_of_true member (by rw [place]; rfl)
  · exact iff_of_false absent (by rw [nothing]; exact Bool.false_ne_true)
  · obtain ⟨inList, other⟩ := List.mem_filter.mp member
    have other : id' ≠ id := by simpa using other
    rw [Function.update_of_ne other, indexed.weighted, place, (indexed.listed id').mp inList]
    rfl
  · rw [nothing]
    by_cases here : id' = id
    · simp [here]
    · have unlisted : id' ∉ nodeList := fun inList => absent (List.mem_filter.mpr ⟨inList, by simpa using here⟩)
      rw [Function.update_of_ne here, indexed.weighted]
      simpa [indexed.listed] using unlisted

end Indexed

/-! ## Reachable rings -/

section Reachable

variable [Security] [VnodeSort]

def step (r : HashRing) : RingOp → HashRing
  | .addNode id => r.addNode id
  | .addNodeWithWeight id weight => r.addNodeWithWeight id weight
  | .updateNodeWeight id weight => r.updateNodeWeight id weight
  | .addNodes ids => r.addNodes ids
  | .removeNode id => r.removeNode id

/-- The ring after a sequence of changes. -/
def after (ops : List RingOp) : HashRing := runFrom step newHashRing ops

/-- The virtual nodes of the listed nodes, unsorted. -/
def layout (r : HashRing) : List Vnode :=
  r.nodeList.flatMap fun id =>
    (List.range (r.weightOf id)).map fun j => ⟨hashFuncSecure (vnodeName id j), (r.nodes id).getD 0⟩

structure Valid (r : HashRing) : Prop where
  indexed : Indexed r.nodes r.weights r.nodeList
  perm : r.vnodes.Perm r.layout
  sorted : r.vnodes.Pairwise fun a b => a.hash ≤ b.hash

theorem Valid.rebuild {r : HashRing} (indexed : Indexed r.nodes r.weights r.nodeList) : Valid r.rebuildVnodes where
  indexed := indexed
  perm := VnodeSort.perm _
  sorted := VnodeSort.sorted _

omit [VnodeSort] in
theorem valid_new : Valid newHashRing :=
  ⟨⟨nofun, by simp [newHashRing], fun _ => rfl⟩, List.Perm.refl _, List.Pairwise.nil⟩

theorem Valid.addNodeWithWeight {r : HashRing} (valid : r.Valid) (id : NodeID) (weight : Int) :
    Valid (r.addNodeWithWeight id weight) := by
  unfold HashRing.addNodeWithWeight
  split
  · rename_i known
    exact .rebuild (valid.indexed.reweight known weight)
  · exact .rebuild (valid.indexed.append id weight)

theorem Valid.updateNodeWeight {r : HashRing} (valid : r.Valid) (id : NodeID) (weight : Int) :
    Valid (r.updateNodeWeight id weight) := by
  unfold HashRing.updateNodeWeight
  split
  · exact valid
  · rename_i known
    exact .rebuild (valid.indexed.reweight known weight)

omit [Security] [VnodeSort] in
theorem indexed_foldl_appendNode (ids : List NodeID) {r : HashRing} (indexed : Indexed r.nodes r.weights r.nodeList) :
    Indexed (ids.foldl appendNode r).nodes (ids.foldl appendNode r).weights (ids.foldl appendNode r).nodeList := by
  induction ids generalizing r with
  | nil => exact indexed
  | cons id rest ih => exact ih (indexed.append id _)

omit [Security] [VnodeSort] in
theorem weights_foldl_appendNode (ids : List NodeID) (r : HashRing) (id : NodeID) :
    (ids.foldl appendNode r).weights id = if id ∈ ids then some (defaultVnodes : Int) else r.weights id := by
  induction ids generalizing r with
  | nil => simp
  | cons a rest ih =>
    rw [List.foldl_cons, ih]
    by_cases later : id ∈ rest
    · simp [later]
    · by_cases here : id = a
      · simp [here, appendNode]
      · simp [here, later, appendNode]

theorem Valid.addNodes {r : HashRing} (valid : r.Valid) (ids : List NodeID) : Valid (r.addNodes ids) := by
  unfold HashRing.addNodes
  split
  · exact valid
  · exact .rebuild (indexed_foldl_appendNode _ valid.indexed)

theorem Valid.removeNode {r : HashRing} (valid : r.Valid) (id : NodeID) : Valid (r.removeNode id) := by
  unfold HashRing.removeNode
  split
  · exact valid
  · exact .rebuild (valid.indexed.remove id)

/-- **One change** leaves a valid ring. -/
theorem Valid.step {r : HashRing} (valid : r.Valid) (op : RingOp) : Valid (r.step op) := by
  cases op with
  | addNode id => exact valid.addNodeWithWeight id _
  | addNodeWithWeight id weight => exact valid.addNodeWithWeight id weight
  | updateNodeWeight id weight => exact valid.updateNodeWeight id weight
  | addNodes ids => exact valid.addNodes ids
  | removeNode id => exact valid.removeNode id

theorem valid_after (ops : List RingOp) : Valid (after ops) :=
  runFrom_invariant (I := fun _ r => Valid r) valid_new (fun _ _ op valid => valid.step op) ops

/-! ## Points of the circle -/

/-- How many labels a node has on the ring: its effective weight. -/
def share (r : HashRing) (id : NodeID) : Nat :=
  match r.weights id with
  | none => 0
  | some w => if w < 0 then defaultVnodes else w.toNat

/-- Where a node's labels are. -/
def labels (r : HashRing) (id : NodeID) : Set UInt64 := {h | ∃ j < r.share id, hashFuncSecure (vnodeName id j) = h}

/-- The virtual nodes with the nodes they stand for. -/
def points (r : HashRing) : List (UInt64 × NodeID) :=
  r.vnodes.map fun v => (v.hash, (r.nodeList[v.nodeIdx]?).getD [])

variable {r : HashRing}

omit [VnodeSort] in
theorem Valid.share_listed (valid : r.Valid) {id : NodeID} (listed : id ∈ r.nodeList) : r.share id = r.weightOf id := by
  have weighted := valid.indexed.weighted id
  rw [(valid.indexed.listed id).mp listed, Option.isSome_iff_exists] at weighted
  obtain ⟨w, found⟩ := weighted
  rw [share, weightOf, found]

omit [VnodeSort] in
theorem Valid.share_unlisted (valid : r.Valid) {id : NodeID} (unlisted : id ∉ r.nodeList) : r.share id = 0 := by
  have weighted := valid.indexed.weighted id
  rw [Bool.eq_false_iff.mpr fun some => unlisted ((valid.indexed.listed id).mpr some), Option.isSome_eq_false_iff,
    Option.isNone_iff_eq_none] at weighted
  rw [share, weighted]

omit [VnodeSort] in
/-- The node of each virtual node is the one it was made for. -/
theorem Valid.node_eq (valid : r.Valid) {id : NodeID} (listed : id ∈ r.nodeList) :
    (r.nodeList[(r.nodes id).getD 0]?).getD [] = id := by
  obtain ⟨i, found⟩ := Option.isSome_iff_exists.mp ((valid.indexed.listed id).mp listed)
  rw [found, Option.getD_some, valid.indexed.index id i found, Option.getD_some]

omit [VnodeSort] in
/-- **The points of a valid ring** are the labels of its nodes. -/
theorem Valid.positions_points (valid : r.Valid) : positions r.points = r.labels := by
  funext id
  ext h
  have members : h ∈ positions r.points id ↔
      ∃ id' ∈ r.nodeList, ∃ j < r.weightOf id', hashFuncSecure (vnodeName id' j) = h ∧
        (r.nodeList[(r.nodes id').getD 0]?).getD [] = id := by
    simp only [positions, points, Set.mem_ofPred_eq, List.mem_map, valid.perm.mem_iff, layout, List.mem_flatMap,
      List.mem_range, Prod.mk.injEq]
    constructor
    · rintro ⟨v, ⟨id', listed, j, small, rfl⟩, rfl, node⟩
      exact ⟨id', listed, j, small, rfl, node⟩
    · rintro ⟨id', listed, j, small, rfl, node⟩
      exact ⟨_, ⟨id', listed, j, small, rfl⟩, rfl, node⟩
  rw [members]
  constructor
  · rintro ⟨id', listed, j, small, rfl, node⟩
    rw [valid.node_eq listed] at node
    subst node
    exact ⟨j, (valid.share_listed listed).symm ▸ small, rfl⟩
  · rintro ⟨j, small, rfl⟩
    by_cases listed : id ∈ r.nodeList
    · exact ⟨id, listed, j, (valid.share_listed listed) ▸ small, rfl, valid.node_eq listed⟩
    · rw [valid.share_unlisted listed] at small
      cases small

/-! ## The order of owners -/

/-- Labels of different nodes never share a hash. -/
def Separated (r : HashRing) : Prop :=
  ∀ id id', id ≠ id' → ∀ j < r.share id, ∀ j' < r.share id',
    hashFuncSecure (vnodeName id j) ≠ hashFuncSecure (vnodeName id' j')

omit [VnodeSort] in
theorem Separated.apart (separated : r.Separated) : Apart r.labels := by
  intro id id' other
  rw [Set.disjoint_left]
  rintro h ⟨j, small, rfl⟩ ⟨j', small', same⟩
  exact separated id id' other j small j' small' same.symm

omit [VnodeSort] in
/-- Only nodes that are listed have labels. -/
theorem Valid.separated_iff (valid : r.Valid) :
    r.Separated ↔ ∀ id ∈ r.nodeList, ∀ id' ∈ r.nodeList, id ≠ id' → ∀ j < r.share id, ∀ j' < r.share id',
      hashFuncSecure (vnodeName id j) ≠ hashFuncSecure (vnodeName id' j') := by
  have listed {id : NodeID} {j : Nat} (small : j < r.share id) : id ∈ r.nodeList := by
    by_contra unlisted
    rw [valid.share_unlisted unlisted] at small
    cases small
  constructor
  · exact fun separated id _ id' _ => separated id id'
  · exact fun separated id id' other j small j' small' =>
      separated id (listed small) id' (listed small') other j small j' small'

/-- The nodes in the order in which the walk from a key meets them. -/
def preference (r : HashRing) (key : Key) : List NodeID :=
  firsts ((r.points.rotate (r.points.findIdx fun p => hashFuncSecure key ≤ p.1)).map Prod.snd)

/-- How far a node's labels are from a key. -/
def ways (r : HashRing) (key : Key) (id : NodeID) : Set Nat := Set.image (way (hashFuncSecure key)) (r.labels id)

omit [VnodeSort] in
/-- **The walk ranks the nodes** by the way to their nearest label. -/
theorem Valid.ranks_preference (valid : r.Valid) (separated : r.Separated) (key : Key) :
    Ranks (r.ways key) (r.preference key) := by
  have sorted : r.points.Pairwise fun p q => p.1 ≤ q.1 := List.pairwise_map.mpr valid.sorted
  have ranks := ranks_rotate sorted (valid.positions_points ▸ separated.apart) (hashFuncSecure key)
  rwa [valid.positions_points] at ranks

omit [VnodeSort] in
theorem search_eq (r : HashRing) (key : Key) :
    r.search key = r.points.findIdx fun p => hashFuncSecure key ≤ p.1 := by
  rw [search, points, List.findIdx_map]
  rfl

omit [Security] [VnodeSort] in
theorem nodeAt_eq (r : HashRing) {i : Nat} (inside : i < r.points.length) : r.nodeAt i = r.points[i].2 := by
  have bound : i < r.vnodes.length := by simpa [points] using inside
  simp [nodeAt, points, List.getElem?_eq_getElem bound]

omit [Security] [VnodeSort] in
theorem walk_eq (r : HashRing) (target idx : Nat) {left : Nat} (bound : left ≤ r.vnodes.length) (owners : List NodeID) :
    r.walk target idx left owners =
      collect target owners (((r.points.rotate idx).map Prod.snd).drop (r.vnodes.length - left)) := by
  have size : r.points.length = r.vnodes.length := List.length_map ..
  induction left generalizing owners with
  | zero =>
    rw [walk, Nat.sub_zero, List.drop_eq_nil_of_le (by simp [size]), collect]
  | succ left ih =>
    have here : r.vnodes.length - (left + 1) < ((r.points.rotate idx).map Prod.snd).length := by
      simp only [List.length_map, List.length_rotate, size]
      omega
    have next : r.vnodes.length - (left + 1) + 1 = r.vnodes.length - left := by omega
    have node : r.nodeAt ((idx + (r.vnodes.length - (left + 1))) % r.vnodes.length) =
        ((r.points.rotate idx).map Prod.snd)[r.vnodes.length - (left + 1)] := by
      rw [nodeAt_eq r (by rw [size]; exact Nat.mod_lt _ (by omega)), List.getElem_map, List.getElem_rotate]
      simp only [size, Nat.add_comm]
    rw [walk, List.drop_eq_getElem_cons here, next, collect, ← node]
    split
    · rw [ih (by omega)]
      by_cases member : r.nodeAt ((idx + (r.vnodes.length - (left + 1))) % r.vnodes.length) ∈ owners
      · rw [if_pos (List.contains_iff_mem.mpr member), if_pos member]
      · rw [if_neg fun found => member (List.contains_iff_mem.mp found), if_neg member]
    · rfl

omit [VnodeSort] in
/-- There are no more nodes to prefer than the list has, so the cap never cuts. -/
theorem Valid.length_preference (valid : r.Valid) (key : Key) : (r.preference key).length ≤ r.nodeList.length := by
  refine (nodup_firsts _).length_le_of_subset fun id member => ?_
  obtain ⟨p, walked, rfl⟩ := List.mem_map.mp (mem_firsts.mp member)
  have labelled : p.1 ∈ r.labels p.2 := valid.positions_points ▸ List.mem_rotate.mp walked
  obtain ⟨j, small, -⟩ := labelled
  by_contra unlisted
  rw [valid.share_unlisted unlisted] at small
  cases small

omit [VnodeSort] in
/-- **Owners**: the first nodes of the preference. -/
theorem Valid.getOwners_eq (valid : r.Valid) (key : Key) (rf : Int) :
    r.getOwners key rf = (r.preference key).take rf.toNat := by
  have cap := valid.length_preference key
  rw [getOwners]
  split
  · rename_i empty
    have none : r.preference key = [] := by
      simp [preference, points, List.eq_nil_of_length_eq_zero empty, firsts]
    rw [none, List.take_nil]
  · split
    · rename_i nobody
      have few : rf.toNat = 0 ∨ r.nodeList.length = 0 := by
        rw [target] at nobody
        split at nobody <;> omega
      rcases few with zero | zero
      · rw [zero, List.take_zero]
      · rw [List.eq_nil_of_length_eq_zero (by omega : (r.preference key).length = 0), List.take_nil]
    · rw [walk_eq r _ _ le_rfl, Nat.sub_self, List.drop_zero, search_eq,
        collect_eq List.nodup_nil (Nat.zero_le _), List.nil_append]
      change (r.preference key).take _ = _
      rw [target]
      split
      · rename_i more
        rw [List.take_of_length_le (by omega), List.take_of_length_le (by omega)]
      · rfl

omit [VnodeSort] in
/-- The node of a key is the first of the preference. -/
theorem getNode_eq (r : HashRing) (key : Key) : r.getNode key = (r.preference key).head?.getD [] := by
  have size : r.points.length = r.vnodes.length := List.length_map ..
  rw [preference, head?_firsts, ← search_eq, getNode]
  split
  · rename_i empty
    simp [points, List.eq_nil_of_length_eq_zero empty]
  · rename_i some
    have first : 0 < ((r.points.rotate (r.search key)).map Prod.snd).length := by
      simp only [List.length_map, List.length_rotate, size]
      omega
    have bound : r.search key ≤ r.vnodes.length := List.findIdx_le_length
    have start : (if r.search key = r.vnodes.length then 0 else r.search key) = (0 + r.search key) % r.points.length := by
      rw [size, Nat.zero_add]
      split
      · rename_i past
        rw [past, Nat.mod_self]
      · exact (Nat.mod_eq_of_lt (by omega)).symm
    rw [List.head?_eq_getElem?, List.getElem?_eq_getElem first, Option.getD_some, List.getElem_map, List.getElem_rotate,
      start, nodeAt_eq]

/-! ## What membership decides -/

omit [VnodeSort] in
theorem ways_eq_of_weights {r r' : HashRing} {id : NodeID} (same : r.weights id = r'.weights id) (key : Key) :
    r.ways key id = r'.ways key id := by
  have shares : r.share id = r'.share id := by rw [share, share, same]
  rw [ways, ways, labels, labels, shares]

omit [VnodeSort] in
theorem Separated.of_weights {r r' : HashRing} (separated : r.Separated) (same : r.weights = r'.weights) :
    r'.Separated := by
  have shares (id : NodeID) : r'.share id = r.share id := by rw [share, share, same]
  intro id id' other
  rw [shares, shares]
  exact separated id id' other

/-- **Agreement on membership is agreement on ownership**: two rings reached by any
changes that end with the same weights send every key to the same node and to the
same owners, in the same order. -/
theorem ownership_of_weights {ops ops' : List RingOp} (same : (after ops).weights = (after ops').weights)
    (separated : (after ops).Separated) (key : Key) :
    (after ops).getNode key = (after ops').getNode key ∧
      ∀ rf, (after ops).getOwners key rf = (after ops').getOwners key rf := by
  have ranks := (valid_after ops).ranks_preference separated key
  have ranks' := (valid_after ops').ranks_preference (separated.of_weights same) key
  have ways : (after ops).ways key = (after ops').ways key := funext fun id => ways_eq_of_weights (congrFun same id) key
  have preferences : (after ops).preference key = (after ops').preference key := (ways ▸ ranks).unique ranks'
  refine ⟨?_, fun rf => ?_⟩
  · rw [getNode_eq, getNode_eq, preferences]
  · rw [(valid_after ops).getOwners_eq, (valid_after ops').getOwners_eq, preferences]

end Reachable

end HashRing

open Reference

/-- Two nodes added one by one. -/
def joined : List RingOp := [.addNodeWithWeight [97] 2, .addNodeWithWeight [98] 3]

/-- The same two, by a detour: both at once, one leaves and comes back, the other is re-weighted. -/
def rejoined : List RingOp :=
  [.addNodes [[98], [97]], .removeNode [97], .addNodeWithWeight [97] 2, .updateNodeWeight [98] 3]

theorem ownership_of_weights_rejoined :
    (HashRing.after joined).getNode [107] = (HashRing.after rejoined).getNode [107] ∧
      (HashRing.after joined).getOwners [107] 2 = (HashRing.after rejoined).getOwners [107] 2 := by
  have weights : (HashRing.after joined).weights = (HashRing.after rejoined).weights := by
    funext id
    change Function.update (Function.update (fun _ => none) [97] (some 2)) [98] (some 3) id =
      Function.update (Function.update (Function.update (Function.update (Function.update (fun _ => none)
        [98] (some 128)) [97] (some 128)) [97] none) [97] (some 2)) [98] (some 3) id
    by_cases second : id = [98]
    · rw [second, Function.update_self, Function.update_self]
    · by_cases first : id = [97] <;> simp [first, second]
  have separated : (HashRing.after joined).Separated :=
    (HashRing.valid_after joined).separated_iff.mpr (by decide +kernel)
  have agree := HashRing.ownership_of_weights weights separated [107]
  exact ⟨agree.1, agree.2 2⟩

end Oryx.Mesh
