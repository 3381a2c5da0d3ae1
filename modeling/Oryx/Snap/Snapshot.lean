import Oryx.Kv

/-!
# Snapshot entries

The snapshot file is a `gob` stream of `SnapshotEntry` records, written and read
through pooled objects. `encoding/gob` is taken at its word: a zero-valued field
is not transmitted, and decoding leaves a field that is absent from the stream as
it was in the destination. The pool may hand out any object that was returned to
it, or a new one.
-/

namespace Oryx.Snap
set_option autoImplicit false

structure SnapshotEntry where
  key : Key
  data : Bytes
  timestamp : Int64
  nodeID : NodeID
  tombstone : Bool
  deriving DecidableEq, Repr

namespace SnapshotEntry

def zero : SnapshotEntry := ⟨[], [], 0, [], false⟩

/-- The entry of a pair of the map. -/
def ofPair (p : Key × Value) : SnapshotEntry := ⟨p.1, p.2.data, p.2.timestamp, p.2.nodeID, p.2.tombstone⟩

/-- The record `recover` stores for an entry. -/
def toValue (e : SnapshotEntry) : Value := ⟨e.nodeID, e.data, e.timestamp, e.tombstone, 0⟩

/-- What both loops clear before they return an object to the pool. -/
def release (e : SnapshotEntry) : SnapshotEntry := { e with key := [], data := [], nodeID := [] }

end SnapshotEntry

/-! ## The wire -/

/-- The fields of an entry that are on the wire. -/
structure GobRecord where
  key : Option Key
  data : Option Bytes
  timestamp : Option Int64
  nodeID : Option NodeID
  tombstone : Option Bool
  deriving DecidableEq, Repr

/-- A field is sent unless it is zero. -/
def transmit {α : Type} [DecidableEq α] (zero a : α) : Option α := if a = zero then none else some a

def gobEncode (e : SnapshotEntry) : GobRecord :=
  ⟨transmit [] e.key, transmit [] e.data, transmit 0 e.timestamp, transmit [] e.nodeID, transmit false e.tombstone⟩

def gobDecode (record : GobRecord) (into : SnapshotEntry) : SnapshotEntry :=
  ⟨record.key.getD into.key, record.data.getD into.data, record.timestamp.getD into.timestamp,
    record.nodeID.getD into.nodeID, record.tombstone.getD into.tombstone⟩

theorem getD_transmit {α : Type} [DecidableEq α] (zero a b : α) :
    (transmit zero a).getD b = if a = zero then b else a := by
  rw [transmit]
  split <;> rfl

/-- A snapshot file: its records, and the error a decoder meets after them, if any. -/
structure SnapshotFile where
  records : List GobRecord
  ending : Option Error

/-! ## The pool -/

/-- The objects returned to `pools.snapshotEntries`. -/
abbrev Pool := List SnapshotEntry

/-- `Get`: the chosen object, or a new one when the choice names none. -/
def Pool.get (pool : Pool) (choice : Nat) : SnapshotEntry := (pool[choice]?).getD SnapshotEntry.zero

/-- The pool with the chosen object gone. -/
def Pool.rest (pool : Pool) (choice : Nat) : Pool := pool.eraseIdx choice

theorem Pool.get_cases (pool : Pool) (choice : Nat) : pool.get choice ∈ pool ∨ pool.get choice = SnapshotEntry.zero := by
  rw [Pool.get]
  cases found : pool[choice]? with
  | none => exact Or.inr rfl
  | some p => exact Or.inl (List.mem_of_getElem? found)

theorem Pool.rest_subset {pool : Pool} {choice : Nat} {p : SnapshotEntry} (member : p ∈ pool.rest choice) : p ∈ pool :=
  List.mem_of_mem_eraseIdx member

/-- The loop of `stateTransferEncoder`: all five fields of the object are set
before it is encoded. -/
def encodeLoop : (Nat → Nat) → Pool → List (Key × Value) → List GobRecord
  | _, _, [] => []
  | choose, pool, p :: rest =>
    let entry := { pool.get (choose 0) with
      key := p.1, data := p.2.data, timestamp := p.2.timestamp, nodeID := p.2.nodeID, tombstone := p.2.tombstone }
    gobEncode entry :: encodeLoop (fun n => choose (n + 1)) (entry.release :: pool.rest (choose 0)) rest

/-- The decoding loop of `recover`: each record is decoded into whatever object
the pool hands out. -/
def decodeLoop : (Nat → Nat) → Pool → List GobRecord → List SnapshotEntry
  | _, _, [] => []
  | choose, pool, record :: rest =>
    let entry := gobDecode record (pool.get (choose 0))
    entry :: decodeLoop (fun n => choose (n + 1)) (entry.release :: pool.rest (choose 0)) rest

/-- The encoder does not depend on what the pool hands out. -/
theorem encodeLoop_eq (choose : Nat → Nat) (pool : Pool) (pairs : List (Key × Value)) :
    encodeLoop choose pool pairs = pairs.map fun p => gobEncode (.ofPair p) := by
  induction pairs generalizing choose pool with
  | nil => rfl
  | cons p rest ih => rw [encodeLoop, ih, List.map_cons, SnapshotEntry.ofPair]

/-! ## What decoding into a used object gives -/

/-- Decoding `e` into an object that last held `used` gives `e`. -/
def Keeps (used e : SnapshotEntry) : Prop :=
  (used.tombstone = true → e.tombstone = true) ∧ (e.timestamp = 0 → used.timestamp = 0)

instance (used e : SnapshotEntry) : Decidable (Keeps used e) :=
  inferInstanceAs (Decidable (_ ∧ _))

/-- The fields that `release` clears. -/
structure Released (e : SnapshotEntry) : Prop where
  key : e.key = []
  data : e.data = []
  nodeID : e.nodeID = []

theorem released_release (e : SnapshotEntry) : Released e.release := ⟨rfl, rfl, rfl⟩

theorem released_zero : Released .zero := ⟨rfl, rfl, rfl⟩

theorem keeps_zero (e : SnapshotEntry) : Keeps .zero e :=
  ⟨fun h => absurd h Bool.false_ne_true, fun _ => rfl⟩

/-- Only the two fields that are never cleared can go wrong. -/
theorem gobDecode_eq_iff {used e : SnapshotEntry} (clean : Released used) :
    gobDecode (gobEncode e) used = e ↔ Keeps used e := by
  obtain ⟨k, d, t, n, b⟩ := e
  obtain ⟨k', d', t', n', b'⟩ := used
  obtain ⟨rfl, rfl, rfl⟩ := clean
  simp only [gobDecode, gobEncode, getD_transmit, Keeps, SnapshotEntry.mk.injEq, ite_eq_right_iff]
  constructor
  · rintro ⟨-, -, time, -, tomb⟩
    refine ⟨fun stale => ?_, fun zero => (time zero).trans zero⟩
    by_contra live
    have := tomb (by simpa using live)
    simp_all
  · rintro ⟨tomb, time⟩
    refine ⟨fun h => h.symm, fun h => h.symm, fun zero => (time zero).trans zero.symm, fun h => h.symm, fun live => ?_⟩
    subst live
    by_contra stale
    exact absurd (tomb (by simpa using stale)) Bool.false_ne_true

/-- The pool stays clean when one of its objects is used and released. -/
theorem released_cons_rest {pool : Pool} (clean : ∀ p ∈ pool, Released p) (e : SnapshotEntry) (choice : Nat) :
    ∀ p ∈ e.release :: pool.rest choice, Released p :=
  List.forall_mem_cons.mpr ⟨released_release e, fun p old => clean p (Pool.rest_subset old)⟩

/-- Whatever the pool hands out, the keys come back. -/
theorem map_key_decodeLoop (choose : Nat → Nat) {pool : Pool} (entries : List SnapshotEntry)
    (clean : ∀ p ∈ pool, Released p) :
    (decodeLoop choose pool (entries.map gobEncode)).map SnapshotEntry.key = entries.map SnapshotEntry.key := by
  induction entries generalizing choose pool with
  | nil => rfl
  | cons e rest ih =>
    have used : (pool.get (choose 0)).key = [] := by
      rcases pool.get_cases (choose 0) with member | new
      · exact (clean _ member).key
      · rw [new]
        rfl
    have here : (gobDecode (gobEncode e) (pool.get (choose 0))).key = e.key := by
      simp only [gobDecode, gobEncode, getD_transmit, used, ite_eq_right_iff]
      exact fun empty => empty.symm
    rw [List.map_cons, decodeLoop, List.map_cons, here, List.map_cons, ih]
    exact released_cons_rest clean _ _

/-- **Reading back**: whatever the pool hands out, the entries come back as they
were written exactly when no object can carry over a tombstone mark or a timestamp. -/
theorem decodeLoop_eq_iff {pool : Pool} {entries : List SnapshotEntry} (clean : ∀ p ∈ pool, Released p) :
    (∀ choose, decodeLoop choose pool (entries.map gobEncode) = entries) ↔
      (∀ p ∈ pool, ∀ e ∈ entries, Keeps p e) ∧ entries.Pairwise Keeps := by
  induction entries generalizing pool with
  | nil => simp [decodeLoop]
  | cons e rest ih =>
    constructor
    · intro same
      -- A new object for `e` leaves the whole pool, and `e`'s object, to the rest.
      have after : ∀ choose, decodeLoop choose (e.release :: pool) (rest.map gobEncode) = rest := by
        intro choose
        have run := same fun n => if n = 0 then pool.length else choose (n - 1)
        have new : pool.get pool.length = .zero := by simp [Pool.get]
        have all : pool.rest pool.length = pool := List.eraseIdx_of_length_le (Nat.le_refl _)
        simp only [List.map_cons, decodeLoop, if_true, new, all,
          (gobDecode_eq_iff released_zero).mpr (keeps_zero e), List.cons.injEq, true_and] at run
        simpa using run
      have cleanMore : ∀ p ∈ e.release :: pool, Released p := List.forall_mem_cons.mpr ⟨released_release e, clean⟩
      obtain ⟨keeps, pairs⟩ := (ih cleanMore).mp after
      have first : ∀ q ∈ rest, Keeps e q := fun q later => keeps e.release List.mem_cons_self q later
      refine ⟨fun p member => ?_, List.pairwise_cons.mpr ⟨first, pairs⟩⟩
      intro q here
      rcases List.mem_cons.mp here with rfl | later
      · obtain ⟨i, bound, rfl⟩ := List.getElem_of_mem member
        have run := same fun _ => i
        simp only [List.map_cons, decodeLoop, List.cons.injEq] at run
        have got : pool.get i = pool[i] := by simp [Pool.get, bound]
        rw [got] at run
        exact (gobDecode_eq_iff (clean _ member)).mp run.1
      · exact keeps p (List.mem_cons_of_mem _ member) q later
    · rintro ⟨keeps, pairs⟩ choose
      obtain ⟨first, pairs⟩ := List.pairwise_cons.mp pairs
      have here : gobDecode (gobEncode e) (pool.get (choose 0)) = e := by
        rcases pool.get_cases (choose 0) with member | new
        · exact (gobDecode_eq_iff (clean _ member)).mpr (keeps _ member e List.mem_cons_self)
        · rw [new]
          exact (gobDecode_eq_iff released_zero).mpr (keeps_zero e)
      rw [List.map_cons, decodeLoop, here]
      refine congrArg (e :: ·) ((ih (released_cons_rest clean e (choose 0))).mpr ⟨fun p member q later => ?_, pairs⟩ _)
      rcases List.mem_cons.mp member with rfl | old
      · exact first q later
      · exact keeps p (Pool.rest_subset old) q (List.mem_cons_of_mem e later)

end Oryx.Snap
