import Oryx.Wal.Protobuf
import Oryx.Mesh.Owners

/-!
# Membership

The handlers that `memberlist` calls one after the other (`NotifyJoin`, `NotifyLeave` and
`NotifyUpdate` of `cluster/mesh/mesh.go`) and what the rest of the program reads next to
them. A handler makes two writes, one to the table of addresses and one to the ring, and
readers run at any moment, also between the two: a node enters the ring after its address
was stored, and its address is deleted after it has left the ring. What `Marshal` and
`Unmarshal` do with the metadata is a parameter of the model (`MetaProto`); so is the text
of an IP address.
-/

namespace Oryx.Membership
set_option autoImplicit false
open Oryx.Library Oryx.Mesh

abbrev PeerAddress := Bytes

/-- `pb.NodeMetadata`. -/
structure NodeMetadata where
  grpcPort : Int32
  weight : Int32
  deriving DecidableEq, Repr

/-- `proto.Marshal` and `proto.Unmarshal` for node metadata. -/
class MetaProto where
  marshal : NodeMetadata → Except Error Bytes
  unmarshal : Bytes → Except Error NodeMetadata

/-- What the handlers read of a `memberlist.Node`; `addr` is the text of its IP address. -/
structure Member where
  name : NodeID
  addr : Bytes
  metadata : Bytes
  deriving DecidableEq, Repr

/-- The address that the metadata of a node gives, if it does, and its weight. -/
def Member.announces [MetaProto] (node : Member) : Option PeerAddress × Int :=
  if node.metadata.length > 0 then
    match MetaProto.unmarshal node.metadata with
    | .ok metadata =>
      (if metadata.grpcPort > 0 then some (node.addr ++ ascii ":" ++ decimal metadata.grpcPort.toInt.toNat) else none,
        metadata.weight.toInt)
    | .error _ => (none, defaultVnodes)
  else (none, defaultVnodes)

/-- The state of a `Mesh`; `nodeAddrs` is a concurrent map. -/
structure Mesh where
  ring : HashRing
  nodeAddrs : List (NodeID × PeerAddress)
  stopping : Bool
  localWeight : Int32
  grpcPort : Int

/-- What `memberlist` calls, and `Stop`; a handler ignores a nil node. -/
inductive Notification where
  | join (node : Option Member)
  | leave (node : Option Member)
  | update (node : Option Member)
  | stop
  deriving DecidableEq, Repr

/-- A write that the others can see. -/
inductive MeshWrite where
  /-- `nodeAddrs.Store`, if the metadata gives an address -/
  | store (node : Member)
  | addNodeWithWeight (node : Member)
  | updateNodeWeight (node : Member)
  | removeNode (node : Member)
  /-- `nodeAddrs.Delete` -/
  | forget (node : Member)
  /-- `stopping.Store(true)` -/
  | stop
  deriving DecidableEq, Repr

/-- The writes of a call in their order. -/
def Notification.writes : Notification → List MeshWrite
  | .join (some node) => [.store node, .addNodeWithWeight node]
  | .leave (some node) => [.removeNode node, .forget node]
  | .update (some node) => [.store node, .updateNodeWeight node]
  | .join none | .leave none | .update none => []
  | .stop => [.stop]

/-! ## Tables -/

/-- `Delete` of a map. -/
def erased (table : List (NodeID × PeerAddress)) (id : NodeID) : List (NodeID × PeerAddress) :=
  table.filter fun p => p.1 ≠ id

/-- `Store` of a map. -/
def stored (table : List (NodeID × PeerAddress)) (id : NodeID) (address : PeerAddress) : List (NodeID × PeerAddress) :=
  (id, address) :: erased table id

theorem lookup_erased (table : List (NodeID × PeerAddress)) (id id' : NodeID) :
    (erased table id).lookup id' = if id' = id then none else table.lookup id' := by
  induction table with
  | nil => simp [erased]
  | cons p rest ih =>
    by_cases here : p.1 = id
    · have tail : erased (p :: rest) id = erased rest id := by simp [erased, here]
      rw [tail, ih, List.lookup_cons]
      by_cases same : id' = id
      · simp only [same, if_true]
      · simp only [here, same, if_false, beq_eq_false_iff_ne.mpr same]
    · have tail : erased (p :: rest) id = p :: erased rest id := by simp [erased, here]
      rw [tail, List.lookup_cons, List.lookup_cons, ih]
      by_cases same : id' = id
      · have other : (id == p.1) = false := beq_eq_false_iff_ne.mpr (Ne.symm here)
        simp only [same, other, if_true]
      · simp only [same, if_false]

theorem lookup_stored (table : List (NodeID × PeerAddress)) (id id' : NodeID) (address : PeerAddress) :
    (stored table id address).lookup id' = if id' = id then some address else table.lookup id' := by
  rw [stored, List.lookup_cons, lookup_erased]
  by_cases same : id' = id
  · simp only [same, beq_self_eq_true, if_true]
  · simp only [beq_eq_false_iff_ne.mpr same, same, if_false]

/-! ## The mesh -/

namespace Mesh

/-- `NewMesh`. -/
def new (grpcPort : Int) : Mesh := ⟨newHashRing, [], false, 128, grpcPort⟩

/-- An empty address stands for none. -/
def addressForNode (m : Mesh) (id : NodeID) : PeerAddress :=
  if m.stopping then [] else (m.nodeAddrs.lookup id).getD []

/-- `Members`, in the order in which `Range` happens to visit them. -/
def members (m : Mesh) : List PeerAddress := if m.stopping then [] else m.nodeAddrs.map Prod.snd

def owner [Security] (m : Mesh) (key : Key) : NodeID := m.ring.getNode key

def getOwners [Security] (m : Mesh) (key : Key) (n : Int) : List NodeID := m.ring.getOwners key n

/-- `NodeMeta`: what the node tells the others about itself. -/
def nodeMeta [MetaProto] (m : Mesh) : Bytes :=
  match MetaProto.marshal ⟨Int32.ofInt m.grpcPort, m.localWeight⟩ with
  | .ok b => b
  | .error _ => []

/-- `UpdateLocalWeight`; `memberlist` then asks for the metadata and spreads it. -/
def updateLocalWeight (m : Mesh) (weight : Int) : Mesh := { m with localWeight := Int32.ofInt weight }

variable [Security] [VnodeSort] [MetaProto]

def write (m : Mesh) : MeshWrite → Mesh
  | .store node =>
    match node.announces.1 with
    | some address => { m with nodeAddrs := stored m.nodeAddrs node.name address }
    | none => m
  | .addNodeWithWeight node => { m with ring := m.ring.addNodeWithWeight node.name node.announces.2 }
  | .updateNodeWeight node => { m with ring := m.ring.updateNodeWeight node.name node.announces.2 }
  | .removeNode node => { m with ring := m.ring.removeNode node.name }
  | .forget node => { m with nodeAddrs := erased m.nodeAddrs node.name }
  | .stop => { m with stopping := true }

end Mesh

/-! ## Addresses at every moment -/

section Handlers

variable [Security] [VnodeSort] [MetaProto]

/-- The address that the last of the writes has stored for the node. -/
def latest (past : List MeshWrite) (id : NodeID) : Option PeerAddress :=
  (past.filterMap fun
    | .store node => if node.name = id then node.announces.1 else none
    | _ => none).getLast?

/-- A node that joins has an address. -/
def Notification.Announces : Notification → Prop
  | .join (some node) => node.announces.1.isSome
  | _ => True

instance : DecidablePred Notification.Announces
  | .join (some node) => inferInstanceAs (Decidable (node.announces.1.isSome = true))
  | .join none | .leave _ | .update _ | .stop => isTrue trivial

/-- The members of the ring have the address that was last announced for them. -/
structure Addressed (past : List MeshWrite) (m : Mesh) : Prop where
  valid : m.ring.Valid
  known : ∀ id, (m.ring.weights id).isSome → ∃ address, latest past id = some address ∧
    m.nodeAddrs.lookup id = some address

variable {past : List MeshWrite} {m : Mesh}

omit [Security] [VnodeSort] in
theorem latest_store (past : List MeshWrite) (node : Member) (id : NodeID) :
    latest (past ++ [.store node]) id =
      if node.name = id then node.announces.1.or (latest past id) else latest past id := by
  rw [latest, List.filterMap_append]
  by_cases same : node.name = id
  · rw [if_pos same]
    cases announced : node.announces.1 with
    | none => simp [same, announced, latest]
    | some address => simp [same, announced]
  · simp [same, latest]

omit [Security] [VnodeSort] in
theorem latest_other (past : List MeshWrite) {w : MeshWrite} (other : ∀ node, w ≠ .store node) (id : NodeID) :
    latest (past ++ [w]) id = latest past id := by
  rw [latest, List.filterMap_append]
  cases w with
  | store node => exact absurd rfl (other node)
  | addNodeWithWeight | updateNodeWeight | removeNode | forget | stop => simp [latest]

/-- The table after a store that may have nothing to store. -/
theorem lookup_write_store (m : Mesh) (node : Member) (id : NodeID) :
    (m.write (.store node)).nodeAddrs.lookup id =
      if node.name = id then node.announces.1.or (m.nodeAddrs.lookup id) else m.nodeAddrs.lookup id := by
  rw [Mesh.write]
  cases node.announces.1 with
  | none => simp
  | some address =>
    dsimp only
    rw [lookup_stored]
    simp only [eq_comm, Option.some_or]

theorem ring_write_store (m : Mesh) (node : Member) : (m.write (.store node)).ring = m.ring := by
  rw [Mesh.write]
  cases node.announces.1 <;> rfl

/-- Storing an address keeps the members addressed. -/
theorem Addressed.store (addressed : Addressed past m) (node : Member) :
    Addressed (past ++ [.store node]) (m.write (.store node)) := by
  refine ⟨ring_write_store m node ▸ addressed.valid, fun id member => ?_⟩
  rw [ring_write_store] at member
  obtain ⟨address, last, found⟩ := addressed.known id member
  rw [latest_store, lookup_write_store]
  split
  · cases node.announces.1 with
    | none => exact ⟨address, last, found⟩
    | some new => exact ⟨new, rfl, rfl⟩
  · exact ⟨address, last, found⟩

omit [VnodeSort] in
/-- A write that leaves the addresses alone and brings in at most nodes whose address is known. -/
theorem Addressed.ring (addressed : Addressed past m) {w : MeshWrite} {m' : Mesh} (other : ∀ node, w ≠ .store node)
    (addresses : m'.nodeAddrs = m.nodeAddrs) (valid : m'.ring.Valid)
    (known : ∀ id, (m'.ring.weights id).isSome → (m.ring.weights id).isSome ∨
      ∃ address, latest past id = some address ∧ m.nodeAddrs.lookup id = some address) :
    Addressed (past ++ [w]) m' := by
  refine ⟨valid, fun id member => ?_⟩
  rw [latest_other past other, addresses]
  rcases known id member with old | new
  · exact addressed.known id old
  · exact new

/-- An entry is deleted of a node that is not in the ring. -/
theorem Addressed.forget (addressed : Addressed past m) {node : Member} (gone : m.ring.weights node.name = none) :
    Addressed (past ++ [.forget node]) (m.write (.forget node)) := by
  refine ⟨addressed.valid, fun id member => ?_⟩
  have present : (m.ring.weights id).isSome := member
  have other : id ≠ node.name := by
    rintro rfl
    rw [gone] at present
    cases present
  obtain ⟨address, last, found⟩ := addressed.known id present
  refine ⟨address, ?_, ?_⟩
  · rw [latest_other past (by simp)]
    exact last
  · show (erased m.nodeAddrs node.name).lookup id = some address
    rw [lookup_erased, if_neg other]
    exact found

theorem weights_join (valid : m.ring.Valid) (node : Member) :
    (m.write (.addNodeWithWeight node)).ring.Valid ∧ (m.write (.addNodeWithWeight node)).ring.weights =
      Function.update m.ring.weights node.name (some node.announces.2) :=
  ⟨valid.step (.addNodeWithWeight node.name node.announces.2),
    HashRing.weights_apply valid (.addNodeWithWeight node.name node.announces.2)⟩

theorem weights_leave (valid : m.ring.Valid) (node : Member) :
    (m.write (.removeNode node)).ring.Valid ∧ (m.write (.removeNode node)).ring.weights =
      Function.update m.ring.weights node.name none :=
  ⟨valid.step (.removeNode node.name), HashRing.weights_apply valid (.removeNode node.name)⟩

theorem weights_update (valid : m.ring.Valid) (node : Member) :
    (m.write (.updateNodeWeight node)).ring.Valid ∧ (m.write (.updateNodeWeight node)).ring.weights =
      if (m.ring.weights node.name).isSome then Function.update m.ring.weights node.name (some node.announces.2)
      else m.ring.weights :=
  ⟨valid.step (.updateNodeWeight node.name node.announces.2),
    HashRing.weights_apply valid (.updateNodeWeight node.name node.announces.2)⟩

theorem Addressed.join (addressed : Addressed past m) {node : Member} {address : PeerAddress}
    (last : latest past node.name = some address) (found : m.nodeAddrs.lookup node.name = some address) :
    Addressed (past ++ [.addNodeWithWeight node]) (m.write (.addNodeWithWeight node)) := by
  obtain ⟨valid, weights⟩ := weights_join addressed.valid node
  refine addressed.ring (by simp) rfl valid fun id member => ?_
  rw [weights] at member
  by_cases same : id = node.name
  · exact Or.inr ⟨address, same ▸ last, same ▸ found⟩
  · rw [Function.update_of_ne same] at member
    exact Or.inl member

theorem Addressed.leave (addressed : Addressed past m) (node : Member) :
    Addressed (past ++ [.removeNode node]) (m.write (.removeNode node)) := by
  obtain ⟨valid, weights⟩ := weights_leave addressed.valid node
  refine addressed.ring (by simp) rfl valid fun id member => Or.inl ?_
  rw [weights] at member
  by_cases same : id = node.name
  · rw [same, Function.update_self] at member
    cases member
  · rwa [Function.update_of_ne same] at member

theorem Addressed.update (addressed : Addressed past m) (node : Member) :
    Addressed (past ++ [.updateNodeWeight node]) (m.write (.updateNodeWeight node)) := by
  obtain ⟨valid, weights⟩ := weights_update addressed.valid node
  refine addressed.ring (by simp) rfl valid fun id member => Or.inl ?_
  rw [weights] at member
  split at member
  · rename_i present
    by_cases same : id = node.name
    · rw [same]
      exact present
    · rwa [Function.update_of_ne same] at member
  · exact member

omit [Security] [VnodeSort] [MetaProto] in
/-- The moments of a call with two writes. -/
theorem moments_pair {w w' : MeshWrite} {part : List MeshWrite} (moment : part <+: [w, w']) :
    part = [] ∨ part = [w] ∨ part = [w] ++ [w'] := by
  rcases List.prefix_cons_iff.mp moment with rfl | ⟨rest, rfl, inside⟩
  · exact Or.inl rfl
  · rcases List.prefix_cons_iff.mp inside with rfl | ⟨rest, rfl, empty⟩
    · exact Or.inr (Or.inl rfl)
    · rw [List.prefix_nil.mp empty]
      exact Or.inr (Or.inr rfl)

/-- **Every moment of a handler** keeps the members addressed. -/
theorem Addressed.handle (addressed : Addressed past m) {n : Notification} (announces : n.Announces)
    {part : List MeshWrite} (moment : part <+: n.writes) : Addressed (past ++ part) (runFrom Mesh.write m part) := by
  have still : Addressed (past ++ []) m := by
    rw [List.append_nil]
    exact addressed
  cases n with
  | join node =>
    cases node with
    | none =>
      rw [List.prefix_nil.mp moment]
      exact still
    | some node =>
      rcases moments_pair moment with rfl | rfl | rfl
      · exact still
      · exact addressed.store node
      · obtain ⟨address, announced⟩ := Option.isSome_iff_exists.mp announces
        rw [← List.append_assoc]
        have last : latest (past ++ [.store node]) node.name = some address := by
          rw [latest_store, if_pos rfl, announced, Option.some_or]
        have found : (m.write (.store node)).nodeAddrs.lookup node.name = some address := by
          rw [lookup_write_store, if_pos rfl, announced, Option.some_or]
        exact (addressed.store node).join last found
  | leave node =>
    cases node with
    | none =>
      rw [List.prefix_nil.mp moment]
      exact still
    | some node =>
      rcases moments_pair moment with rfl | rfl | rfl
      · exact still
      · exact addressed.leave node
      · rw [← List.append_assoc]
        refine (addressed.leave node).forget ?_
        rw [(weights_leave addressed.valid node).2, Function.update_self]
  | update node =>
    cases node with
    | none =>
      rw [List.prefix_nil.mp moment]
      exact still
    | some node =>
      rcases moments_pair moment with rfl | rfl | rfl
      · exact still
      · exact addressed.store node
      · rw [← List.append_assoc]
        exact (addressed.store node).update node
  | stop =>
    rcases List.prefix_cons_iff.mp moment with rfl | ⟨rest, rfl, empty⟩
    · exact still
    · rw [List.prefix_nil.mp empty]
      exact addressed.ring (by simp) rfl addressed.valid fun id member => Or.inl member

omit [VnodeSort] [MetaProto] in
/-- The owners of a key are members of the ring. -/
theorem member_of_owner {ring : HashRing} (valid : ring.Valid) {key : Key} {rf : Int} {id : NodeID}
    (owner : id ∈ ring.getOwners key rf) : (ring.weights id).isSome := by
  rw [valid.getOwners_eq] at owner
  have share := (valid.mem_preference key id).mp (List.mem_of_mem_take owner)
  unfold HashRing.share at share
  cases weight : ring.weights id with
  | none =>
    rw [weight] at share
    cases share
  | some w => rfl

/-- **Owners can be reached**: at every moment of any sequence of notifications in which
joining nodes announce a port, also between the two writes of a handler, `AddressForNode`
gives for every owner of every key the address it has last announced, until `Stop`. -/
theorem owners_have_addresses (grpcPort : Int) {ns : List Notification} (announces : ∀ n ∈ ns, n.Announces)
    {past : List MeshWrite} (moment : past <+: ns.flatMap Notification.writes) (key : Key) (rf : Int) :
    let m := runFrom Mesh.write (.new grpcPort) past
    ∀ id ∈ m.getOwners key rf, ∃ address, latest past id = some address ∧
      m.addressForNode id = if m.stopping then [] else address := by
  intro m id owner
  have fresh : Addressed [] (.new grpcPort) := ⟨HashRing.valid_new, fun _ member => absurd member Bool.false_ne_true⟩
  have addressed : Addressed past m := runFrom_moments (I := Addressed) (Q := Notification.Announces) fresh
    (fun past m n addressed announces part moment => addressed.handle announces moment) announces moment
  obtain ⟨address, last, found⟩ := addressed.known id (member_of_owner addressed.valid owner)
  refine ⟨address, last, ?_⟩
  rw [Mesh.addressForNode, found, Option.getD_some]

/-! ## The view that memberlist gives -/

/-- What is known of the nodes after a notification: weight and address. -/
def hear (view : NodeID → Option (Int × PeerAddress)) : Notification → NodeID → Option (Int × PeerAddress)
  | .join (some node) | .update (some node) =>
    Function.update view node.name (node.announces.1.map fun address => (node.announces.2, address))
  | .leave (some node) => Function.update view node.name none
  | .join none | .update none | .leave none | .stop => view

/-- The nodes that are told of announce a port, and only members are updated. -/
def Told (view : NodeID → Option (Int × PeerAddress)) : Notification → Prop
  | .join (some node) => node.announces.1.isSome
  | .update (some node) => node.announces.1.isSome ∧ (view node.name).isSome
  | _ => True

instance (view : NodeID → Option (Int × PeerAddress)) : DecidablePred (Told view)
  | .join (some node) => inferInstanceAs (Decidable (node.announces.1.isSome = true))
  | .update (some node) => inferInstanceAs (Decidable (node.announces.1.isSome = true ∧ (view node.name).isSome = true))
  | .join none | .update none | .leave _ | .stop => isTrue trivial

/-- The mesh after the notifications. -/
def handled (grpcPort : Int) (ns : List Notification) : Mesh := runFrom Mesh.write (.new grpcPort) (ns.flatMap Notification.writes)

/-- What the last notification about each node says. -/
def viewOf (ns : List Notification) : NodeID → Option (Int × PeerAddress) := runFrom hear (fun _ => none) ns

/-- The ring and the addresses are those of the view. -/
structure Follows (view : NodeID → Option (Int × PeerAddress)) (m : Mesh) : Prop where
  valid : m.ring.Valid
  weights : m.ring.weights = fun id => (view id).map Prod.fst
  addresses : ∀ id, m.nodeAddrs.lookup id = (view id).map Prod.snd

variable {view : NodeID → Option (Int × PeerAddress)}

omit [Security] [VnodeSort] [MetaProto] in
theorem map_update {β : Type} (f : Int × PeerAddress → β) (id : NodeID) (entry : Option (Int × PeerAddress)) :
    (fun id' => (Function.update view id entry id').map f) =
      Function.update (fun id' => (view id').map f) id (entry.map f) := by
  funext id'
  by_cases same : id' = id
  · subst same
    simp
  · simp [same]

/-- An entry that a handler stores, weight and address. -/
theorem Follows.enter (follows : Follows view m) {node : Member} {m' : Mesh} {address : PeerAddress}
    (announced : node.announces.1 = some address) (valid : m'.ring.Valid)
    (weights : m'.ring.weights = Function.update m.ring.weights node.name (some node.announces.2))
    (addresses : m'.nodeAddrs = (m.write (.store node)).nodeAddrs) :
    Follows (Function.update view node.name (node.announces.1.map fun address => (node.announces.2, address))) m' := by
  refine ⟨valid, ?_, fun id => ?_⟩
  · rw [weights, follows.weights, map_update, announced]
    rfl
  · rw [addresses, lookup_write_store, announced, follows.addresses]
    by_cases same : node.name = id
    · rw [if_pos same, ← same, Function.update_self]
      rfl
    · rw [if_neg same, Function.update_of_ne (Ne.symm same)]

/-- **One notification.** -/
theorem Follows.handle (follows : Follows view m) {n : Notification} (told : Told view n) :
    Follows (hear view n) (runFrom Mesh.write m n.writes) := by
  cases n with
  | join node =>
    cases node with
    | none => exact follows
    | some node =>
      obtain ⟨address, announced⟩ := Option.isSome_iff_exists.mp told
      have entered : (m.write (.store node)).ring.Valid := ring_write_store m node ▸ follows.valid
      obtain ⟨valid, weights⟩ := weights_join entered node
      refine follows.enter announced valid ?_ rfl
      rw [← ring_write_store m node]
      exact weights
  | leave node =>
    cases node with
    | none => exact follows
    | some node =>
      obtain ⟨valid, weights⟩ := weights_leave follows.valid node
      refine ⟨valid, ?_, fun id => ?_⟩
      · show (m.write (.removeNode node)).ring.weights = _
        rw [weights, follows.weights, hear, map_update]
        rfl
      · show (erased m.nodeAddrs node.name).lookup id = _
        rw [lookup_erased, hear]
        by_cases same : id = node.name
        · rw [if_pos same, same, Function.update_self]
          rfl
        · rw [if_neg same, Function.update_of_ne same, follows.addresses]
  | update node =>
    cases node with
    | none => exact follows
    | some node =>
      obtain ⟨announced, present⟩ := told
      obtain ⟨address, announced⟩ := Option.isSome_iff_exists.mp announced
      have entered : (m.write (.store node)).ring.Valid := ring_write_store m node ▸ follows.valid
      obtain ⟨valid, weights⟩ := weights_update entered node
      have known : ((m.write (.store node)).ring.weights node.name).isSome := by
        rw [ring_write_store, follows.weights, Option.isSome_map]
        exact present
      rw [if_pos known, ring_write_store] at weights
      exact follows.enter announced valid weights rfl
  | stop => exact ⟨follows.valid, follows.weights, follows.addresses⟩

theorem follows_handled (grpcPort : Int) {ns : List Notification} (told : Along hear Told (fun _ => none) ns) :
    Follows (viewOf ns) (handled grpcPort ns) := by
  induction ns using List.reverseRecOn with
  | nil => exact ⟨HashRing.valid_new, rfl, fun _ => rfl⟩
  | append_singleton past n ih =>
    obtain ⟨before, here⟩ := along_snoc.mp told
    rw [handled, viewOf, runFrom_snoc, List.flatMap_append, List.flatMap_singleton, runFrom_append]
    exact (ih before).handle here

/-- The node that a notification is about. -/
def Notification.subject : Notification → Option NodeID
  | .join node | .leave node | .update node => node.map Member.name
  | .stop => none

omit [Security] [VnodeSort] in
theorem hear_other {n : Notification} {id : NodeID} (other : n.subject ≠ some id) : hear view n id = view id := by
  cases n with
  | join node | leave node | update node =>
    cases node with
    | none => rfl
    | some node => exact Function.update_of_ne (fun same => other (congrArg some same.symm)) _ _
  | stop => rfl

omit [Security] [VnodeSort] in
/-- What is said of other nodes does not change what is known of a node. -/
theorem runFrom_hear_others {ns : List Notification} {id : NodeID} (others : ∀ n ∈ ns, n.subject ≠ some id) :
    runFrom hear view ns id = view id := by
  induction ns using List.reverseRecOn with
  | nil => rfl
  | append_singleton past n ih =>
    rw [runFrom_snoc, hear_other (others n (by simp))]
    exact ih fun m earlier => others m (List.mem_append_left [n] earlier)

/-- **The view decides the routes**: after any notifications the weights in the ring and the
addresses are those that were last announced. Two nodes whose notifications have come to the
same view, by whatever detours, have the same addresses, and send every key to the same owners
unless virtual nodes of two nodes have one hash. -/
theorem routes_of_view (grpcPort grpcPort' : Int) {ns ns' : List Notification}
    (told : Along hear Told (fun _ => none) ns) (told' : Along hear Told (fun _ => none) ns') :
    let m := handled grpcPort ns
    let m' := handled grpcPort' ns'
    (∀ id, m.ring.weights id = (viewOf ns id).map Prod.fst ∧
      (m.stopping = false → m.addressForNode id = ((viewOf ns id).map Prod.snd).getD [])) ∧
    (viewOf ns = viewOf ns' →
      (m.stopping = m'.stopping → ∀ id, m.addressForNode id = m'.addressForNode id) ∧
      (m.ring.Separated →
        (∀ key n, m.getOwners key n = m'.getOwners key n) ∧ ∀ key, m.owner key = m'.owner key)) := by
  intro m m'
  have follows := follows_handled grpcPort told
  have follows' := follows_handled grpcPort' told'
  refine ⟨fun id => ⟨by rw [follows.weights], fun running => ?_⟩, fun same => ⟨fun alike id => ?_, fun separated => ?_⟩⟩
  · rw [Mesh.addressForNode, running, follows.addresses]
    rfl
  · rw [Mesh.addressForNode, Mesh.addressForNode, alike, follows.addresses, follows'.addresses, same]
  · have weights : m.ring.weights = m'.ring.weights := by rw [follows.weights, follows'.weights, same]
    have preferences (key : Key) := follows.valid.preference_of_weights follows'.valid weights separated key
    refine ⟨fun key n => ?_, fun key => ?_⟩
    · rw [Mesh.getOwners, Mesh.getOwners, follows.valid.getOwners_eq, follows'.valid.getOwners_eq, preferences key]
    · rw [Mesh.owner, Mesh.owner, HashRing.getNode_eq, HashRing.getNode_eq, preferences key]

end Handlers

/-! ## The node's own metadata -/

section NodeMeta

variable [MetaProto]

/-- The codec carries the metadata: it marshals to a message that is not empty and reads back. -/
def Carried (metadata : NodeMetadata) : Prop :=
  ∃ b, MetaProto.marshal metadata = .ok b ∧ 0 < b.length ∧ MetaProto.unmarshal b = .ok metadata

/-- What the others understand of the node's own metadata. -/
theorem announces_nodeMeta (name : NodeID) (addr : Bytes) {m : Mesh} (port : 0 < m.grpcPort ∧ m.grpcPort < 2 ^ 31)
    (carried : Carried ⟨Int32.ofInt m.grpcPort, m.localWeight⟩) :
    (Member.mk name addr m.nodeMeta).announces =
      (some (addr ++ ascii ":" ++ decimal m.grpcPort.toNat), m.localWeight.toInt) := by
  obtain ⟨b, marshals, nonempty, unmarshals⟩ := carried
  have announced : (Int32.ofInt m.grpcPort).toInt = m.grpcPort := Int32.toInt_ofInt_of_le (by omega) (by omega)
  have positive : Int32.ofInt m.grpcPort > 0 := by
    rw [gt_iff_lt, Int32.lt_iff_toInt_lt, announced]
    exact port.1
  have told : m.nodeMeta = b := by rw [Mesh.nodeMeta, marshals]
  rw [told, Member.announces, if_pos nonempty, unmarshals]
  simp only [if_pos positive, announced]

/-- A member may be updated with the metadata of its node. -/
theorem told_nodeMeta {view : NodeID → Option (Int × PeerAddress)} {name : NodeID} (member : (view name).isSome)
    (addr : Bytes) {m : Mesh} (port : 0 < m.grpcPort ∧ m.grpcPort < 2 ^ 31)
    (carried : Carried ⟨Int32.ofInt m.grpcPort, m.localWeight⟩) :
    Told view (.update (some ⟨name, addr, m.nodeMeta⟩)) := by
  refine ⟨?_, member⟩
  rw [announces_nodeMeta name addr port carried]
  rfl

end NodeMeta

/-! ## The wire format of the metadata -/

open Protobuf

def encodeMetadata (metadata : NodeMetadata) : Bytes :=
  int64Field 1 metadata.grpcPort.toInt64 ++ int64Field 2 metadata.weight.toInt64

def metadataField (metadata : NodeMetadata) : Nat × Wire → Except Error NodeMetadata
  | (1, .varint n) => .ok { metadata with grpcPort := (int64OfVarint n).toInt32 }
  | (2, .varint n) => .ok { metadata with weight := (int64OfVarint n).toInt32 }
  | _ => .ok metadata

scoped instance metaProto : MetaProto where
  marshal metadata := .ok (encodeMetadata metadata)
  unmarshal b := readMessage metadataField b.length ⟨0, 0⟩ b

open Reference

/-- A node on the local host with the given port and weight. -/
def localMember (name : NodeID) (port weight : Int32) : Member :=
  ⟨name, ascii "127.0.0.1", encodeMetadata ⟨port, weight⟩⟩

/-- Two nodes join and one of them leaves. -/
def departure : List Notification :=
  [.join (some (localMember [97] 7001 2)), .join (some (localMember [98] 7002 3)), .leave (some (localMember [97] 7001 2))]

/-- At the moment at which the node is out of the ring and still in the table, the other one is the owner. -/
theorem owners_have_addresses_leaving :
    let past := (departure.flatMap Notification.writes).take 5
    let m := runFrom Mesh.write (.new 7000) past
    m.getOwners [107] 2 = [[98]] ∧ latest past [98] = some (ascii "127.0.0.1:7002") ∧
      ∃ address, latest past [98] = some address ∧ m.addressForNode [98] = if m.stopping then [] else address := by
  refine ⟨by decide +kernel, by decide +kernel, ?_⟩
  have announces : ∀ n ∈ departure, n.Announces := by decide +kernel
  exact owners_have_addresses 7000 announces (List.take_prefix 5 _) [107] 2 [98] (by decide +kernel)

/-- Two nodes join with their final weights. -/
def straight : List Notification := [.join (some (localMember [97] 7001 2)), .join (some (localMember [98] 7002 3))]

/-- The same two, by a detour: one of them leaves and comes back, the other is updated. -/
def detour : List Notification :=
  [.join (some (localMember [98] 7002 128)), .join (some (localMember [97] 7005 4)),
    .leave (some (localMember [97] 7005 4)), .join (some (localMember [97] 7001 2)),
    .update (some (localMember [98] 7002 3))]

theorem viewOf_detour : viewOf straight = viewOf detour := by
  funext id
  by_cases second : id = [98]
  · rw [second]
    decide +kernel
  by_cases first : id = [97]
  · rw [first]
    decide +kernel
  · simp [viewOf, straight, detour, runFrom, hear, localMember, first, second]

theorem routes_of_view_detour :
    (handled 7001 straight).ring.weights [98] = some 3 ∧
      (handled 7001 straight).addressForNode [98] = (handled 7002 detour).addressForNode [98] ∧
      (handled 7001 straight).getOwners [107] 2 = (handled 7002 detour).getOwners [107] 2 := by
  have told : Along hear Told (fun _ => none) straight := by decide +kernel
  have told' : Along hear Told (fun _ => none) detour := by decide +kernel
  have separated : (handled 7001 straight).ring.Separated :=
    (follows_handled 7001 told).valid.separated_iff.mpr (by decide +kernel)
  have announced : viewOf straight [98] = some (3, ascii "127.0.0.1:7002") := by decide +kernel
  obtain ⟨known, agree⟩ := routes_of_view 7001 7002 told told'
  obtain ⟨addresses, routes⟩ := agree viewOf_detour
  refine ⟨?_, addresses (by decide +kernel) [98], (routes separated).1 [107] 2⟩
  rw [(known [98]).1, announced, Option.map_some]

end Oryx.Membership
