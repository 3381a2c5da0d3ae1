import Oryx.Library.Custody
import Oryx.Mesh.Owners

/-!
# The pool of virtual nodes

`rebuildVnodes` writes into an array that it takes out of a pool shared by all rings of the
process, and puts the array of the ring that it replaces into the pool. Rings are rebuilt side
by side, each under its own lock, and may take each other's old arrays; so every step that
touches memory is a step of the model. What a reader sees under the read lock is the ring
of the plain model nevertheless.
-/

namespace Oryx.Mesh
set_option autoImplicit false
open Oryx.Library

/-- How far a rebuild is; `array` is the one that it has leased. -/
inductive Rebuild where
  | idle
  | leasing
  | filling (array vIdx : Nat)
  | sorting (array : Nat)
  deriving DecidableEq, Repr

/-- A ring whose virtual nodes are a slice, that is an array and a length; a new ring has none. -/
structure PooledRing where
  nodes : NodeID → Option Nat
  weights : NodeID → Option Int
  nodeList : List NodeID
  vnodes : Option (Nat × Nat)
  phase : Rebuild

/-- The arrays, the numbers of those in the pool, and the rings. -/
structure VnodePool (I : Type) where
  arrays : Nat → List Vnode
  fresh : Nat
  pool : List Nat
  rings : I → PooledRing

/-- The steps of the process. The pool hands out any of its slices, or has none to hand out,
and forgets slices whenever it likes. Sorting is a sequence of swaps, and over when the slice
is sorted. -/
inductive PoolAction (I : Type) where
  | change (i : I) (op : RingOp)
  | lease (i : I) (choice : Option Nat)
  | fill (i : I)
  | swap (i : I) (x y : Nat)
  | publish (i : I)
  | forget (array : Nat)
  deriving DecidableEq, Repr

def sliceOf (arrays : Nat → List Vnode) : Option (Nat × Nat) → List Vnode
  | none => []
  | some (array, len) => (arrays array).take len

/-- `make([]vnode, len)`. -/
def zeroed (len : Nat) : List Vnode := List.replicate len ⟨0, 0⟩

def swapped (l : List Vnode) (x y : Nat) : List Vnode :=
  match l[x]?, l[y]? with
  | some a, some b => (l.set x b).set y a
  | _, _ => l

namespace HashRing

/-- What an operation changes before it calls `rebuildVnodes`, if it does. -/
def prepare (r : HashRing) : RingOp → Option HashRing
  | .addNode id => some (enter r id defaultVnodes)
  | .addNodeWithWeight id weight => some (enter r id weight)
  | .updateNodeWeight id weight =>
    match r.nodes id with
    | none => none
    | some _ => some { r with weights := Function.update r.weights id (some weight) }
  | .addNodes ids =>
    match ids.filter fun id => (r.nodes id).isNone with
    | [] => none
    | newNodes => some (newNodes.foldl appendNode r)
  | .removeNode id =>
    match r.nodes id with
    | none => none
    | some _ =>
      let nodeList := r.nodeList.filter (· ≠ id)
      some { r with
        nodes := reindex nodeList
        nodeList := nodeList
        weights := Function.update r.weights id none }
where
  /-- `AddNodeWithWeight`. -/
  enter (r : HashRing) (id : NodeID) (weight : Int) : HashRing :=
    match r.nodes id with
    | some _ => { r with weights := Function.update r.weights id (some weight) }
    | none => { r with
        nodes := Function.update r.nodes id (some r.nodeList.length)
        nodeList := r.nodeList ++ [id]
        weights := Function.update r.weights id (some weight) }

def totalVnodes (r : HashRing) : Nat := (r.nodeList.map r.weightOf).sum

end HashRing

namespace PooledRing

/-- The ring as a reader finds it. -/
def view (arrays : Nat → List Vnode) (r : PooledRing) : HashRing :=
  ⟨r.nodes, r.weights, r.nodeList, sliceOf arrays r.vnodes⟩

def new : PooledRing := ⟨fun _ => none, fun _ => none, [], none, .idle⟩

/-- The maps and the list, without the virtual nodes. -/
def tables (r : PooledRing) : HashRing := ⟨r.nodes, r.weights, r.nodeList, []⟩

/-- The arrays that the ring refers to. -/
def held (r : PooledRing) : List Nat :=
  (match r.phase with
    | .idle | .leasing => []
    | .filling array _ | .sorting array => [array]) ++ (r.vnodes.map Prod.fst).toList

end PooledRing

namespace VnodePool

variable {I : Type} [DecidableEq I] [Security]

def start : VnodePool I := ⟨fun _ => [], 0, [], fun _ => .new⟩

def held (s : VnodePool I) (i : I) : List Nat := (s.rings i).held

def put (s : VnodePool I) (i : I) (r : PooledRing) : VnodePool I := { s with rings := Function.update s.rings i r }

def write (s : VnodePool I) (array : Nat) (content : List Vnode) : VnodePool I :=
  { s with arrays := Function.update s.arrays array content }

/-- A new array for the ring to fill. -/
def allocate (s : VnodePool I) (i : I) (len : Nat) : VnodePool I :=
  { s with
    arrays := Function.update s.arrays s.fresh (zeroed len)
    fresh := s.fresh + 1
    rings := Function.update s.rings i { s.rings i with phase := .filling s.fresh 0 } }

/-- `vnodeSlicePool.Get` and the check of the capacity; an undersized slice is dropped. -/
def leaseStep (s : VnodePool I) (i : I) (choice : Option Nat) : VnodePool I :=
  let total := (s.rings i).tables.totalVnodes
  match choice with
  | none => s.allocate i (if 1024 ≥ total then 1024 else total)
  | some array =>
    if array ∈ s.pool then
      let s := { s with pool := s.pool.erase array }
      if (s.arrays array).length ≥ total then s.put i { s.rings i with phase := .filling array 0 }
      else s.allocate i total
    else s

/-- Publishing the new slice, and what becomes of the old one. -/
def publishStep (s : VnodePool I) (i : I) (array : Nat) : VnodePool I :=
  let r := s.rings i
  let s' := s.put i { r with vnodes := some (array, r.tables.totalVnodes), phase := .idle }
  match r.vnodes with
  | some (old, _) => if (s.arrays old).length > 0 then { s' with pool := old :: s.pool } else s'
  | none => s'

def step (s : VnodePool I) : PoolAction I → VnodePool I
  | .change i op =>
    match (s.rings i).phase with
    | .idle =>
      match (s.rings i).tables.prepare op with
      | none => s
      | some r => s.put i ⟨r.nodes, r.weights, r.nodeList, (s.rings i).vnodes, .leasing⟩
    | _ => s
  | .lease i choice =>
    match (s.rings i).phase with
    | .leasing => s.leaseStep i choice
    | _ => s
  | .fill i =>
    match (s.rings i).phase with
    | .filling array vIdx =>
      match (s.rings i).tables.layout[vIdx]? with
      | some v =>
        (s.write array ((s.arrays array).set vIdx v)).put i { s.rings i with phase := .filling array (vIdx + 1) }
      | none => s.put i { s.rings i with phase := .sorting array }
    | _ => s
  | .swap i x y =>
    match (s.rings i).phase with
    | .sorting array =>
      if x < (s.rings i).tables.totalVnodes ∧ y < (s.rings i).tables.totalVnodes then
        s.write array (swapped (s.arrays array) x y)
      else s
    | _ => s
  | .publish i =>
    match (s.rings i).phase with
    | .sorting array =>
      if ((s.arrays array).take (s.rings i).tables.totalVnodes).Pairwise fun a b => a.hash ≤ b.hash then
        s.publishStep i array
      else s
    | _ => s
  | .forget array => { s with pool := s.pool.erase array }

/-- The operation that a step begins on the ring. -/
def begun (i : I) (s : VnodePool I) : PoolAction I → List RingOp
  | .change j op => if j = i ∧ (s.rings j).phase = .idle then [op] else []
  | _ => []

end VnodePool

/-! ## Operations without the virtual nodes -/

namespace HashRing

/-- The ring without its virtual nodes. -/
def bare (r : HashRing) : HashRing := { r with vnodes := [] }

theorem bare_foldl_appendNode (ids : List NodeID) (r : HashRing) :
    (ids.foldl appendNode r).bare = ids.foldl appendNode r.bare := by
  induction ids generalizing r with
  | nil => rfl
  | cons id ids ih => exact ih (appendNode r id)

variable [Security] [VnodeSort]

omit [VnodeSort] in
theorem length_layout (r : HashRing) : r.layout.length = r.totalVnodes := by
  simp only [layout, totalVnodes, List.length_flatMap, List.length_map, List.length_range]

omit [VnodeSort] in
theorem eq_of_bare {r r' : HashRing} (same : r.bare = r'.bare) :
    r.nodes = r'.nodes ∧ r.weights = r'.weights ∧ r.nodeList = r'.nodeList ∧ r.layout = r'.layout := by
  have layout : r.bare.layout = r'.bare.layout := congrArg HashRing.layout same
  obtain ⟨nodes, weights, nodeList, -⟩ := HashRing.mk.inj same
  exact ⟨nodes, weights, nodeList, layout⟩

/-- An operation is what it prepares, and then a rebuild. -/
theorem bare_step (r : HashRing) (op : RingOp) : (r.step op).bare = (r.bare.prepare op).getD r.bare := by
  cases op with
  | addNode id | addNodeWithWeight id weight =>
    simp only [step, addNode, addNodeWithWeight, prepare, prepare.enter, bare, Option.getD_some]
    cases r.nodes id <;> rfl
  | updateNodeWeight id weight =>
    simp only [step, updateNodeWeight, prepare, bare]
    cases r.nodes id <;> rfl
  | addNodes ids =>
    have same : (ids.filter fun id => (r.bare.nodes id).isNone) = ids.filter fun id => (r.nodes id).isNone := rfl
    simp only [step, addNodes, prepare, same]
    cases ids.filter fun id => (r.nodes id).isNone with
    | nil => rfl
    | cons id ids => exact bare_foldl_appendNode (id :: ids) r
  | removeNode id =>
    simp only [step, removeNode, prepare, bare]
    cases r.nodes id <;> rfl

end HashRing

/-! ## Slices -/

theorem perm_swapped (l : List Vnode) (x y : Nat) : (swapped l x y).Perm l := by
  unfold swapped
  split
  · rename_i a b first second
    obtain ⟨inside, rfl⟩ := List.getElem?_eq_some_iff.mp first
    obtain ⟨inside', rfl⟩ := List.getElem?_eq_some_iff.mp second
    exact List.set_set_perm inside inside'
  · exact List.Perm.refl l

/-- Swaps inside a slice of an array are swaps of the slice. -/
theorem take_swapped (l : List Vnode) {x y n : Nat} (inside : x < n) (inside' : y < n) :
    (swapped l x y).take n = swapped (l.take n) x y := by
  unfold swapped
  rw [List.getElem?_take_of_lt inside, List.getElem?_take_of_lt inside']
  split
  · rw [List.take_set, List.take_set]
  · rfl

/-- Filling goes on by one virtual node. -/
theorem take_set_next {l plan : List Vnode} {i : Nat} {v : Vnode} (next : plan[i]? = some v) (room : i < l.length)
    (written : l.take i = plan.take i) : (l.set i v).take (i + 1) = plan.take (i + 1) := by
  rw [List.take_add_one, List.take_add_one, List.getElem?_set_self room, next, List.take_set_of_le (Nat.le_refl i), written]

/-! ## A ring and its arrays -/

namespace PooledRing

variable {r : PooledRing}

theorem held_quiet (quiet : r.phase = .idle ∨ r.phase = .leasing) : r.held = (r.vnodes.map Prod.fst).toList := by
  rcases quiet with phase | phase <;> simp only [held, phase, List.nil_append]

theorem held_leased {array : Nat} (leased : (∃ vIdx, r.phase = .filling array vIdx) ∨ r.phase = .sorting array) :
    r.held = array :: (r.vnodes.map Prod.fst).toList := by
  rcases leased with ⟨vIdx, phase⟩ | phase <;> simp only [held, phase, List.singleton_append]

theorem mem_held_leased {array : Nat} (leased : (∃ vIdx, r.phase = .filling array vIdx) ∨ r.phase = .sorting array) :
    array ∈ r.held := by
  rw [held_leased leased]
  exact List.mem_cons_self

end PooledRing

section Sound

variable [Security] [VnodeSort]

/-- Where a ring stands that has begun the operations, the last of them perhaps not finished. -/
inductive Stands (arrays : Nat → List Vnode) (r : PooledRing) (ops : List RingOp) : Prop where
  | idle (phase : r.phase = .idle) (tables : r.tables = (HashRing.after ops).bare)
      (perm : (sliceOf arrays r.vnodes).Perm r.tables.layout)
      (sorted : (sliceOf arrays r.vnodes).Pairwise fun a b => a.hash ≤ b.hash)
  | leasing (phase : r.phase = .leasing) (tables : r.tables = (HashRing.after ops).bare)
  | filling (array vIdx : Nat) (phase : r.phase = .filling array vIdx) (tables : r.tables = (HashRing.after ops).bare)
      (room : r.tables.totalVnodes ≤ (arrays array).length) (begun : vIdx ≤ r.tables.totalVnodes)
      (written : (arrays array).take vIdx = r.tables.layout.take vIdx)
  | sorting (array : Nat) (phase : r.phase = .sorting array) (tables : r.tables = (HashRing.after ops).bare)
      (perm : ((arrays array).take r.tables.totalVnodes).Perm r.tables.layout)

variable {arrays arrays' : Nat → List Vnode} {r : PooledRing} {ops : List RingOp}

/-- Only the arrays of the ring matter. -/
theorem Stands.frame (stands : Stands arrays r ops) (same : ∀ a ∈ r.held, arrays' a = arrays a) :
    Stands arrays' r ops := by
  cases stands with
  | idle phase tables perm sorted =>
    have slice : sliceOf arrays' r.vnodes = sliceOf arrays r.vnodes := by
      cases published : r.vnodes with
      | none => rfl
      | some slice =>
        have held : slice.1 ∈ r.held := by simp [PooledRing.held, published]
        simp only [sliceOf, same _ held]
    exact .idle phase tables (slice ▸ perm) (slice ▸ sorted)
  | leasing phase tables => exact .leasing phase tables
  | filling array vIdx phase tables room begun written =>
    have mine := same array (PooledRing.mem_held_leased (.inl ⟨vIdx, phase⟩))
    exact .filling array vIdx phase tables (mine ▸ room) begun (mine ▸ written)
  | sorting array phase tables perm =>
    have mine := same array (PooledRing.mem_held_leased (.inr phase))
    exact .sorting array phase tables (mine ▸ perm)

end Sound

namespace VnodePool

variable {I : Type} [DecidableEq I] [Security] [VnodeSort]

/-- **Every array has one user**, and every ring stands where its operations have brought it. -/
structure Sound (s : VnodePool I) (done : I → List RingOp) : Prop where
  exclusive : Exclusive s.held s.pool s.fresh
  rings : ∀ i, Stands s.arrays (s.rings i) (done i)

variable {s : VnodePool I} {done : I → List RingOp}

omit [DecidableEq I] in
theorem sound_start : Sound (start : VnodePool I) fun _ => [] where
  exclusive := .none_held
  rings _ := .idle rfl rfl (List.Perm.refl []) List.Pairwise.nil

omit [Security] [VnodeSort] in
theorem held_update (rings : I → PooledRing) (i : I) (r : PooledRing) :
    (fun j => (Function.update rings i r j).held) = Function.update (fun j => (rings j).held) i r.held := by
  funext j
  by_cases here : j = i
  · subst here
    rw [Function.update_self, Function.update_self]
  · rw [Function.update_of_ne here, Function.update_of_ne here]

/-- A step of ring `i` that touches no array but its own. -/
theorem Sound.move (sound : Sound s done) {i : I} {s' : VnodePool I} {r : PooledRing} {ops : List RingOp}
    (rings : s'.rings = Function.update s.rings i r) (exclusive : Exclusive (Function.update s.held i r.held) s'.pool s'.fresh)
    (others : ∀ j ≠ i, ∀ a ∈ s.held j, s'.arrays a = s.arrays a) (stands : Stands s'.arrays r ops) :
    Sound s' (Function.update done i ops) := by
  refine ⟨?_, fun j => ?_⟩
  · have held : s'.held = Function.update s.held i r.held := by
      unfold VnodePool.held
      rw [rings]
      exact held_update s.rings i r
    rw [held]
    exact exclusive
  · rw [rings]
    by_cases here : j = i
    · subst here
      rw [Function.update_self, Function.update_self]
      exact stands
    · rw [Function.update_of_ne here, Function.update_of_ne here]
      exact (sound.rings j).frame (others j here)

/-- Such a step that begins no operation. -/
theorem Sound.proceed (sound : Sound s done) {i : I} {s' : VnodePool I} {r : PooledRing}
    (rings : s'.rings = Function.update s.rings i r) (exclusive : Exclusive (Function.update s.held i r.held) s'.pool s'.fresh)
    (others : ∀ j ≠ i, ∀ a ∈ s.held j, s'.arrays a = s.arrays a) (stands : Stands s'.arrays r (done i)) :
    Sound s' done := by
  rw [← Function.update_eq_self i done]
  exact sound.move rings exclusive others stands

omit [DecidableEq I] in
theorem Sound.forget (sound : Sound s done) (array : Nat) : Sound { s with pool := s.pool.erase array } done :=
  ⟨sound.exclusive.forget array, sound.rings⟩

/-- A new array comes to a ring that has none to write to. -/
theorem Sound.allocate (sound : Sound s done) {i : I} (leasing : (s.rings i).phase = .leasing)
    (tables : (s.rings i).tables = (HashRing.after (done i)).bare) {len : Nat}
    (enough : (s.rings i).tables.totalVnodes ≤ len) : Sound (s.allocate i len) done := by
  refine sound.proceed rfl ?_ (fun j _ a theirs => ?_) (.filling s.fresh 0 rfl tables ?_ (Nat.zero_le _) rfl)
  · have made := sound.exclusive.make i
    rw [VnodePool.held, PooledRing.held_quiet (.inr leasing)] at made
    exact made
  · exact Function.update_of_ne (Nat.ne_of_lt (sound.exclusive.held_lt j a theirs)) _ _
  · show (s.rings i).tables.totalVnodes ≤ (Function.update s.arrays s.fresh (zeroed len) s.fresh).length
    rw [Function.update_self, zeroed, List.length_replicate]
    exact enough

/-- **Leasing.** -/
theorem Sound.lease (sound : Sound s done) {i : I} (leasing : (s.rings i).phase = .leasing)
    (tables : (s.rings i).tables = (HashRing.after (done i)).bare) (choice : Option Nat) :
    Sound (s.leaseStep i choice) done := by
  unfold leaseStep
  cases choice with
  | none =>
    refine sound.allocate leasing tables ?_
    split <;> omega
  | some array =>
    dsimp only
    split
    · rename_i pooled
      split
      · rename_i large
        refine sound.proceed rfl ?_ (fun _ _ _ _ => rfl) (.filling array 0 rfl tables large (Nat.zero_le _) rfl)
        have leased := sound.exclusive.lease i pooled
        rw [VnodePool.held, PooledRing.held_quiet (.inr leasing)] at leased
        exact leased
      · exact (sound.forget array).allocate leasing tables (Nat.le_refl _)
    · exact sound

omit [DecidableEq I] in
/-- The ring alone has the array that it has leased. -/
theorem Sound.others (sound : Sound s done) {i : I} {array : Nat} (mine : array ∈ s.held i) (content : List Vnode) :
    ∀ j ≠ i, ∀ a ∈ s.held j, Function.update s.arrays array content a = s.arrays a := by
  intro j other a theirs
  refine Function.update_of_ne ?_ _ _
  rintro rfl
  exact other (sound.exclusive.apart j i a theirs mine)

/-- **One virtual node is written**, or all are. -/
theorem Sound.fill (sound : Sound s done) (i : I) : Sound (s.step (.fill i)) done := by
  rw [step]
  cases sound.rings i with
  | idle phase | leasing phase | sorting _ phase =>
    rw [phase]
    exact sound
  | filling array vIdx phase tables room begun written =>
    have mine : array ∈ s.held i := PooledRing.mem_held_leased (.inl ⟨vIdx, phase⟩)
    have kept := sound.exclusive.keep (List.Sublist.refl (s.held i))
    rw [VnodePool.held, PooledRing.held_leased (.inl ⟨vIdx, phase⟩)] at kept
    rw [phase]
    dsimp only
    have whole := (s.rings i).tables.length_layout
    cases next : (s.rings i).tables.layout[vIdx]? with
    | some v =>
      have inside : vIdx < (s.rings i).tables.totalVnodes := whole ▸ (List.getElem?_eq_some_iff.mp next).1
      refine sound.proceed rfl kept (sound.others mine _) (.filling array (vIdx + 1) rfl tables ?_ inside ?_)
      · show (s.rings i).tables.totalVnodes ≤ (Function.update s.arrays array _ array).length
        rw [Function.update_self, List.length_set]
        exact room
      · show (Function.update s.arrays array _ array).take (vIdx + 1) = _
        rw [Function.update_self]
        exact take_set_next next (by omega) written
    | none =>
      have ended : (s.rings i).tables.totalVnodes ≤ vIdx := whole ▸ List.getElem?_eq_none_iff.mp next
      have all : vIdx = (s.rings i).tables.totalVnodes := Nat.le_antisymm begun ended
      refine sound.proceed rfl kept (fun _ _ _ _ => rfl) (.sorting array rfl tables ?_)
      show ((s.arrays array).take (s.rings i).tables.totalVnodes).Perm (s.rings i).tables.layout
      rw [← all, written, all, ← whole, List.take_length]

/-- **Two virtual nodes are swapped.** -/
theorem Sound.swap (sound : Sound s done) (i : I) (x y : Nat) : Sound (s.step (.swap i x y)) done := by
  rw [step]
  cases sound.rings i with
  | idle phase | leasing phase | filling _ _ phase =>
    rw [phase]
    exact sound
  | sorting array phase tables perm =>
    have mine : array ∈ s.held i := PooledRing.mem_held_leased (.inr phase)
    rw [phase]
    dsimp only
    split
    · rename_i inside
      have kept := sound.exclusive.keep (List.Sublist.refl (s.held i))
      refine sound.proceed (r := s.rings i) (Function.update_eq_self i s.rings).symm kept (sound.others mine _)
        (.sorting array phase tables ?_)
      show ((Function.update s.arrays array _ array).take _).Perm _
      rw [Function.update_self, take_swapped _ inside.1 inside.2]
      exact (perm_swapped _ x y).trans perm
    · exact sound

/-- **The new ring is published** and the old array put into the pool. -/
theorem Sound.publish (sound : Sound s done) (i : I) : Sound (s.step (.publish i)) done := by
  rw [step]
  cases sound.rings i with
  | idle phase | leasing phase | filling _ _ phase =>
    rw [phase]
    exact sound
  | sorting array phase tables perm =>
    rw [phase]
    dsimp only
    split
    · rename_i sorted
      have held : s.held i = [array] ++ ((s.rings i).vnodes.map Prod.fst).toList := PooledRing.held_leased (.inr phase)
      have kept : [array].Sublist (s.held i) := by
        rw [held]
        exact List.sublist_append_left _ _
      unfold publishStep
      dsimp only
      cases published : (s.rings i).vnodes with
      | none => exact sound.proceed rfl (sound.exclusive.keep kept) (fun _ _ _ _ => rfl) (.idle rfl tables perm sorted)
      | some slice =>
        obtain ⟨old, len⟩ := slice
        dsimp only
        split
        · refine sound.proceed rfl (sound.exclusive.release ?_) (fun _ _ _ _ => rfl) (.idle rfl tables perm sorted)
          rw [held, published]
          exact List.Sublist.refl _
        · exact sound.proceed rfl (sound.exclusive.keep kept) (fun _ _ _ _ => rfl) (.idle rfl tables perm sorted)
    · exact sound

/-- **An operation begins.** -/
theorem Sound.change (sound : Sound s done) (i : I) (op : RingOp) :
    Sound (s.step (.change i op)) fun j => done j ++ begun j s (.change i op) := by
  have silent (busy : (s.rings i).phase ≠ .idle) : (fun j => done j ++ begun j s (.change i op)) = done := by
    funext j
    rw [begun, if_neg (fun both => busy both.2), List.append_nil]
  have told (free : (s.rings i).phase = .idle) :
      (fun j => done j ++ begun j s (.change i op)) = Function.update done i (done i ++ [op]) := by
    funext j
    by_cases here : j = i
    · subst here
      rw [Function.update_self, begun, if_pos ⟨rfl, free⟩]
    · rw [Function.update_of_ne here, begun, if_neg (fun both => here both.1.symm), List.append_nil]
  rw [step]
  cases sound.rings i with
  | idle phase tables perm sorted =>
    have after : (HashRing.after (done i ++ [op])).bare = ((s.rings i).tables.prepare op).getD (s.rings i).tables := by
      rw [HashRing.after, runFrom_snoc, HashRing.bare_step, tables]
      rfl
    have kept := sound.exclusive.keep (List.Sublist.refl (s.held i))
    rw [told phase, phase]
    dsimp only
    cases prepared : (s.rings i).tables.prepare op with
    | none =>
      rw [prepared, Option.getD_none] at after
      exact sound.move (r := s.rings i) (Function.update_eq_self i s.rings).symm kept (fun _ _ _ _ => rfl)
        (.idle phase after.symm perm sorted)
    | some r =>
      rw [prepared, Option.getD_some] at after
      rw [VnodePool.held, PooledRing.held_quiet (.inl phase)] at kept
      refine sound.move rfl kept (fun _ _ _ _ => rfl) (.leasing rfl ?_)
      rw [← after]
      rfl
  | leasing phase | filling _ _ phase | sorting _ phase =>
    have busy : (s.rings i).phase ≠ .idle := by simp [phase]
    rw [silent busy, phase]
    exact sound

/-- **One step**, of whatever ring. -/
theorem Sound.step (sound : Sound s done) (a : PoolAction I) : Sound (s.step a) fun j => done j ++ begun j s a := by
  have silent (none_begun : ∀ j, begun j s a = []) : (fun j => done j ++ begun j s a) = done := by
    funext j
    rw [none_begun, List.append_nil]
  cases a with
  | change i op => exact sound.change i op
  | lease i choice =>
    rw [silent fun _ => rfl, VnodePool.step]
    cases sound.rings i with
    | leasing phase tables =>
      rw [phase]
      exact sound.lease phase tables choice
    | idle phase | filling _ _ phase | sorting _ phase =>
      rw [phase]
      exact sound
  | fill i =>
    rw [silent fun _ => rfl]
    exact sound.fill i
  | swap i x y =>
    rw [silent fun _ => rfl]
    exact sound.swap i x y
  | publish i =>
    rw [silent fun _ => rfl]
    exact sound.publish i
  | forget array =>
    rw [silent fun _ => rfl]
    exact sound.forget array

theorem sound_run (actions : List (PoolAction I)) :
    Sound (runFrom VnodePool.step start actions) fun i => emitted VnodePool.step (begun i) start actions := by
  induction actions using List.reverseRecOn with
  | nil => exact sound_start
  | append_singleton past a ih =>
    simp only [runFrom_snoc, emitted_snoc]
    exact ih.step a

/-- **Rings that share a pool**: whatever the rings of a process do side by side and whatever
the pool hands out, a ring that is not being changed looks to its readers as if it had been
built alone: the same maps and the same virtual nodes in the order of their hashes, and the same
owners of every key unless virtual nodes of two nodes have one hash. No array is used by two
rings, or used and in the pool. -/
theorem pooled_ring_refines (actions : List (PoolAction I)) :
    let s := runFrom VnodePool.step start actions
    (∀ i, (s.rings i).phase = .idle →
      let seen := (s.rings i).view s.arrays
      let alone := HashRing.after (emitted VnodePool.step (begun i) start actions)
      seen.bare = alone.bare ∧ seen.vnodes.Perm alone.vnodes ∧ seen.Valid ∧
        (alone.Separated → ∀ key n, seen.getOwners key n = alone.getOwners key n)) ∧
      (∀ i j a, a ∈ s.held i → a ∈ s.held j → i = j) ∧ ∀ i, ∀ a ∈ s.held i, a ∉ s.pool := by
  intro s
  have sound := sound_run actions
  refine ⟨fun i free => ?_, sound.exclusive.apart, sound.exclusive.unheld⟩
  intro seen alone
  have valid' : alone.Valid := HashRing.valid_after _
  cases sound.rings i with
  | idle phase tables perm sorted =>
    have bare : seen.bare = alone.bare := tables
    obtain ⟨nodes, weights, nodeList, layout⟩ := HashRing.eq_of_bare bare
    have valid : seen.Valid := by
      refine ⟨?_, perm, sorted⟩
      rw [nodes, weights, nodeList]
      exact valid'.indexed
    refine ⟨bare, ?_, valid, fun separated key n => ?_⟩
    · have planned : seen.vnodes.Perm seen.layout := perm
      rw [layout] at planned
      exact planned.trans valid'.perm.symm
    · have same := valid'.preference_of_weights valid weights.symm separated key
      rw [valid.getOwners_eq, valid'.getOwners_eq, same]
  | leasing phase | filling _ _ phase | sorting _ phase =>
    rw [phase] at free
    cases free

end VnodePool

open Reference VnodePool

/-- One ring grows and gives up its first array, which another one takes over that has begun to
change in the meantime. -/
def handedOver : List (PoolAction Bool) :=
  [.change true (.addNodeWithWeight [97] 1), .lease true none, .fill true, .fill true, .publish true,
    .change true (.addNodeWithWeight [98] 1), .lease true none, .change false (.addNodeWithWeight [99] 2),
    .fill true, .fill true, .fill true, .publish true,
    .lease false (some 0), .fill false, .fill false, .fill false, .swap false 0 1, .publish false]

theorem pooled_ring_refines_handedOver :
    let s := runFrom VnodePool.step start handedOver
    s.held true = [1] ∧ s.held false = [0] ∧
      ((s.rings true).view s.arrays).getOwners [107] 2 =
        (HashRing.after [.addNodeWithWeight [97] 1, .addNodeWithWeight [98] 1]).getOwners [107] 2 ∧
      ((s.rings false).view s.arrays).getOwners [107] 2 =
        (HashRing.after [.addNodeWithWeight [99] 2]).getOwners [107] 2 := by
  have grown : emitted VnodePool.step (begun true) start handedOver =
      [.addNodeWithWeight [97] 1, .addNodeWithWeight [98] 1] := by decide +kernel
  have taken : emitted VnodePool.step (begun false) start handedOver = [.addNodeWithWeight [99] 2] := by
    decide +kernel
  obtain ⟨alike, -⟩ := pooled_ring_refines handedOver
  obtain ⟨-, -, -, owners⟩ := alike true (by decide +kernel)
  obtain ⟨-, -, -, owners'⟩ := alike false (by decide +kernel)
  rw [grown] at owners
  rw [taken] at owners'
  have separated : (HashRing.after [.addNodeWithWeight [97] 1, .addNodeWithWeight [98] 1]).Separated :=
    (HashRing.valid_after _).separated_iff.mpr (by decide +kernel)
  have separated' : (HashRing.after [.addNodeWithWeight [99] 2]).Separated :=
    (HashRing.valid_after _).separated_iff.mpr (by decide +kernel)
  exact ⟨by decide +kernel, by decide +kernel, owners separated [107] 2, owners' separated' [107] 2⟩

end Oryx.Mesh
