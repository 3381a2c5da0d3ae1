import Mathlib.Data.List.Sort
import Mathlib.Logic.Function.Basic
import Oryx.Kv

/-!
# The hash ring

`cluster/mesh/hashring.go`: consistent hashing with virtual nodes. Go maps are
partial functions. `slices.SortFunc` is some sorting function: the order of
virtual nodes with equal hashes is its own (`VnodeSort`). Indices into `nodeList`
are numbers here and `uint32` in the source; as they stay below the length of the
list, the two are the same for rings of at most `2 ^ 32` nodes.
-/

namespace Oryx.Mesh
set_option autoImplicit false

def defaultVnodes : Nat := 128

/-- A virtual node; `nodeIdx` is the place of its node in `nodeList`. -/
structure Vnode where
  hash : UInt64
  nodeIdx : Nat
  deriving DecidableEq, Repr

/-- `slices.SortFunc` on virtual nodes by their hashes. -/
class VnodeSort where
  sort : List Vnode → List Vnode
  perm : ∀ l, (sort l).Perm l
  sorted : ∀ l, (sort l).Pairwise fun a b => a.hash ≤ b.hash

structure HashRing where
  nodes : NodeID → Option Nat
  weights : NodeID → Option Int
  nodeList : List NodeID
  vnodes : List Vnode

def newHashRing : HashRing := ⟨fun _ => none, fun _ => none, [], []⟩

/-- `fmt.Sprintf("%s-%d", id, j)`. -/
def vnodeName (id : NodeID) (j : Nat) : Bytes :=
  id ++ ascii "-" ++ decimal j

namespace HashRing

/-- The number of virtual nodes of a node: the default for a missing or negative weight. -/
def weightOf (r : HashRing) (id : NodeID) : Nat :=
  match r.weights id with
  | some w => if w < 0 then defaultVnodes else w.toNat
  | none => defaultVnodes

section Ring

variable [Security] [VnodeSort]

def rebuildVnodes (r : HashRing) : HashRing :=
  { r with vnodes := VnodeSort.sort (r.nodeList.flatMap fun id =>
      (List.range (r.weightOf id)).map fun j => ⟨hashFuncSecure (vnodeName id j), (r.nodes id).getD 0⟩) }

def addNodeWithWeight (r : HashRing) (nodeID : NodeID) (weight : Int) : HashRing :=
  match r.nodes nodeID with
  | some _ => rebuildVnodes { r with weights := Function.update r.weights nodeID (some weight) }
  | none => rebuildVnodes { r with
      nodes := Function.update r.nodes nodeID (some r.nodeList.length)
      nodeList := r.nodeList ++ [nodeID]
      weights := Function.update r.weights nodeID (some weight) }

def addNode (r : HashRing) (nodeID : NodeID) : HashRing := r.addNodeWithWeight nodeID defaultVnodes

def updateNodeWeight (r : HashRing) (nodeID : NodeID) (weight : Int) : HashRing :=
  match r.nodes nodeID with
  | none => r
  | some _ => rebuildVnodes { r with weights := Function.update r.weights nodeID (some weight) }

/-- One new node of `AddNodes`, before the virtual nodes are rebuilt. -/
def appendNode (r : HashRing) (id : NodeID) : HashRing :=
  { r with
    nodes := Function.update r.nodes id (some r.nodeList.length)
    nodeList := r.nodeList ++ [id]
    weights := Function.update r.weights id (some (defaultVnodes : Int)) }

/-- The nodes that are not in the ring yet; one that is listed twice is added twice. -/
def addNodes (r : HashRing) (nodeIDs : List NodeID) : HashRing :=
  match nodeIDs.filter fun id => (r.nodes id).isNone with
  | [] => r
  | newNodes => rebuildVnodes (newNodes.foldl appendNode r)

/-- The index map of a node list. -/
def reindex (nodeList : List NodeID) : NodeID → Option Nat :=
  nodeList.zipIdx.foldl (fun nodes p => Function.update nodes p.1 (some p.2)) fun _ => none

def removeNode (r : HashRing) (nodeID : NodeID) : HashRing :=
  match r.nodes nodeID with
  | none => r
  | some _ =>
    let nodeList := r.nodeList.filter (· ≠ nodeID)
    rebuildVnodes { r with
      nodes := reindex nodeList
      nodeList := nodeList
      weights := Function.update r.weights nodeID none }

end Ring

/-! ## Owners -/

/-- The node of a virtual node. -/
def nodeAt (r : HashRing) (i : Nat) : NodeID :=
  ((r.vnodes[i]?).bind fun v => r.nodeList[v.nodeIdx]?).getD []

/-- The clockwise walk from `idx`, with `left` virtual nodes to go. -/
def walk (r : HashRing) (target idx : Nat) : Nat → List NodeID → List NodeID
  | 0, owners => owners
  | left + 1, owners =>
    if owners.length < target then
      let node := r.nodeAt ((idx + (r.vnodes.length - (left + 1))) % r.vnodes.length)
      walk r target idx left (if owners.contains node then owners else owners ++ [node])
    else owners

/-- The virtual node a key falls to: `sort.Search` for the first hash not below the key's. -/
def search [Security] (r : HashRing) (key : Key) : Nat :=
  r.vnodes.findIdx fun v => hashFuncSecure key ≤ v.hash

/-- The node responsible for a key; past the last virtual node the search wraps to the first. -/
def getNode [Security] (r : HashRing) (key : Key) : NodeID :=
  if r.vnodes.length = 0 then []
  else r.nodeAt (if r.search key = r.vnodes.length then 0 else r.search key)

/-- How many owners to look for. -/
def target (r : HashRing) (replicationFactor : Int) : Int :=
  if replicationFactor > r.nodeList.length then r.nodeList.length else replicationFactor

def getOwners [Security] (r : HashRing) (key : Key) (replicationFactor : Int) : List NodeID :=
  if r.vnodes.length = 0 then []
  else if r.target replicationFactor ≤ 0 then []
  else r.walk (r.target replicationFactor).toNat (r.search key) r.vnodes.length []

theorem nodup_walk (r : HashRing) (target idx left : Nat) {owners : List NodeID} (nodup : owners.Nodup) :
    (r.walk target idx left owners).Nodup := by
  induction left generalizing owners with
  | zero => exact nodup
  | succ left ih =>
    rw [walk]
    split
    · refine ih ?_
      split
      · exact nodup
      · rename_i fresh
        rw [List.nodup_append]
        refine ⟨nodup, List.nodup_singleton _, fun a member b here => ?_⟩
        rintro rfl
        rw [List.mem_singleton] at here
        subst here
        exact fresh (List.contains_iff_mem.mpr member)
    · exact nodup

/-- No node owns a key twice. -/
theorem nodup_getOwners [Security] (r : HashRing) (key : Key) (replicationFactor : Int) :
    (r.getOwners key replicationFactor).Nodup := by
  unfold getOwners
  split
  · exact List.nodup_nil
  · split
    · exact List.nodup_nil
    · exact r.nodup_walk _ _ _ List.nodup_nil

end HashRing

/-! ## Sorting by insertion -/

/-- A sorting function that evaluates. -/
def insertionSort (l : List Vnode) : List Vnode := l.insertionSort fun a b => a.hash ≤ b.hash

scoped instance insertion : VnodeSort where
  sort := insertionSort
  perm l := l.perm_insertionSort _
  sorted l := by
    have total : Std.Total fun a b : Vnode => a.hash ≤ b.hash := ⟨fun a b => le_total a.hash b.hash⟩
    have trans : IsTrans Vnode fun a b => a.hash ≤ b.hash := ⟨fun a b c => le_trans⟩
    exact l.pairwise_insertionSort _

end Oryx.Mesh
