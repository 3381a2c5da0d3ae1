import Oryx.Wal.Protobuf
import Oryx.Writer.Convergence
import Oryx.Engine.Writers

/-!
# Taking a snapshot under load

`Snapshotter.Create` interleaved with concurrent writers. `Create` records the
length of every segment, lists the map shard by shard into a new file, renames it
into place and then drops the recorded prefix of every segment. A record survives
because its value was listed or because it was logged behind the recorded length.
-/

namespace Oryx.Snap
set_option autoImplicit false
open Oryx.Library Oryx.Hashmap Oryx.Writer Oryx.Core

/-- Where a `Create` call stands. -/
inductive CreatePc where
  | idle
  /-- `PrepareSnapshot` has the offsets of the first segments -/
  | preparing (offsets : List Int)
  /-- `Range` has copied the roots of `shard` shards; `rest` of the last copy is to
  be visited, `tmp` is written -/
  | ranging (offsets : List Int) (shard : Nat) (rest : List (Key × Nat)) (tmp : List GobRecord)
  /-- the file is renamed and the segments below `next` are cleared -/
  | clearing (offsets : List Int) (next : Nat)
  | done
  deriving DecidableEq

/-- An engine whose snapshotter is running. -/
structure Snapshotter (count : Nat) (C : Type) where
  writers : Writers count C
  pc : CreatePc
  snapshot : SnapshotFile

inductive SnapAction (count : Nat) where
  | writer (a : WriterAction count)
  /-- `Create` takes its next step -/
  | create

/-- The cells under the roots of a shard, in the order an iteration visits them. -/
def rootsOf (sm : ShardedMap) (i : Fin shardCount) : List (Key × Nat) :=
  (List.finRange subBucketCount).flatMap fun b => ((sm.shards i).buckets b).toList

/-- `offsets[i]`, zero when there is none. -/
def offsetAt (offsets : List Int) (i : Nat) : Int := offsets[i]?.getD 0

namespace Snapshotter

variable {count : Nat} {C : Type}

def hm (s : Snapshotter count C) : ShardedMap := s.writers.eng.sw.hm

def wal (s : Snapshotter count C) : EngineWal count := s.writers.eng.sw.wal

def setWal (s : Snapshotter count C) (wal : EngineWal count) : Snapshotter count C :=
  { s with writers := { s.writers with eng := { s.writers.eng with sw := { s.writers.eng.sw with wal := wal } } } }

/-- `PrepareSnapshot` on the next segment, under its lock. -/
def prepareStep (s : Snapshotter count C) (offsets : List Int) : Snapshotter count C :=
  match s.wal with
  | .nop => { s with pc := .ranging [] 0 [] [] }
  | .wal w =>
    if h : offsets.length < count then
      let i : Fin count := ⟨offsets.length, h⟩
      let prepared := (w.segments i).prepareSnapshot
      { s.setWal (.wal { w with segments := Function.update w.segments i prepared.2 }) with
        pc := .preparing (offsets ++ [prepared.1]) }
    else { s with pc := .ranging offsets 0 [] [] }

/-- One step of the `Range` and, at its end, the rename. The encoder sets every
field of its pooled object, so that only the pair matters (`encodeLoop_eq`). -/
def rangeStep (s : Snapshotter count C) (offsets : List Int) (shard : Nat) (rest : List (Key × Nat))
    (tmp : List GobRecord) : Snapshotter count C :=
  match rest with
  | (key, wrapper) :: rest =>
    match s.hm.wrappers[wrapper]? with
    | none => { s with pc := .ranging offsets shard rest tmp }
    | some val => { s with pc := .ranging offsets shard rest (tmp ++ [gobEncode (.ofPair (key, val))]) }
  | [] =>
    if h : shard < shardCount then { s with pc := .ranging offsets (shard + 1) (rootsOf s.hm ⟨shard, h⟩) tmp }
    else { s with pc := .clearing offsets 0, snapshot := ⟨tmp, none⟩ }

/-- `clearSegment` on the next segment. -/
def clearStep (s : Snapshotter count C) (offsets : List Int) (next : Nat) : Snapshotter count C :=
  match s.wal with
  | .nop => { s with pc := .done }
  | .wal w =>
    if h : next < count then
      let cleared := (w.segments ⟨next, h⟩).clear (offsetAt offsets next)
      { s.setWal (.wal { w with segments := Function.update w.segments ⟨next, h⟩ cleared }) with
        pc := .clearing offsets (next + 1) }
    else { s with pc := .done }

def create (s : Snapshotter count C) : Snapshotter count C :=
  match s.pc with
  | .idle => { s with pc := .preparing [] }
  | .preparing offsets => s.prepareStep offsets
  | .ranging offsets shard rest tmp => s.rangeStep offsets shard rest tmp
  | .clearing offsets next => s.clearStep offsets next
  | .done => s

variable [NeZero count] [Security] [Proto] [Clocker C]

def step (s : Snapshotter count C) : SnapAction count → Snapshotter count C
  | .writer a => { s with writers := s.writers.step a }
  | .create => s.create

/-- A `Clear` of a segment whose recorded length is zero finds it empty. -/
def ClearSafe (s : Snapshotter count C) : SnapAction count → Prop
  | .writer _ => True
  | .create =>
    match s.pc, s.wal with
    | .clearing offsets next, .wal w =>
      ∀ h : next < count, 0 < offsetAt offsets next ∨ (w.segments ⟨next, h⟩).bytes = []
    | _, _ => True

instance (s : Snapshotter count C) (a : SnapAction count) : Decidable (s.ClearSafe a) :=
  match a with
  | .writer _ => isTrue trivial
  | .create =>
    match pc : s.pc, isWal : s.wal with
    | .clearing offsets next, .wal w =>
      decidable_of_iff (∀ h : next < count, 0 < offsetAt offsets next ∨ (w.segments ⟨next, h⟩).bytes = [])
        (by simp only [ClearSafe, pc, isWal])
    | .clearing _ _, .nop => isTrue (by simp only [ClearSafe, pc, isWal])
    | .idle, _ => isTrue (by simp only [ClearSafe, pc])
    | .preparing _, _ => isTrue (by simp only [ClearSafe, pc])
    | .ranging _ _ _ _, _ => isTrue (by simp only [ClearSafe, pc])
    | .done, _ => isTrue (by simp only [ClearSafe, pc])

/-- The value of a key is in the snapshot file or in what its segment holds. -/
def OnDisk (s : Snapshotter count C) (k : Key) (v : Value) : Prop :=
  gobEncode (.ofPair (k, v)) ∈ s.snapshot.records ∨
    ∃ w log, s.wal = .wal w ∧ (w.segments (Wal.segmentOf k)).bytes = logBytes log ∧
      ∃ r ∈ log, r.key = k ∧ record r = v

/-- A `Clear` step removes from its segment exactly the recorded bytes, and nothing
from the others. -/
def ClearExact (s : Snapshotter count C) : SnapAction count → Prop
  | .writer _ => True
  | .create =>
    match s.pc, s.wal with
    | .clearing offsets next, .wal w =>
      ∀ h : next < count, ∃ w' before after, s.create.wal = .wal w' ∧
        (w.segments ⟨next, h⟩).bytes = logBytes (before ++ after) ∧
        offsetAt offsets next = (logBytes before).length ∧
        (w'.segments ⟨next, h⟩).bytes = logBytes after ∧
        ∀ j, j ≠ ⟨next, h⟩ → w'.segments j = w.segments j
    | _, _ => True

end Snapshotter

end Oryx.Snap
