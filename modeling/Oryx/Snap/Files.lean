import Oryx.Library.Faulty
import Oryx.Snap.Create

/-!
# Creating a snapshot, call by call

`Snapshotter.Create`, `Wal.PrepareSnapshot` and `Wal.Clear` as programs over the
files, one call of the operating system at a time. Any call may fail. A call on a
temporary file that fails can leave anything in it; `rename` and `truncate` happen
or do not; a failed flush has written a part of the buffer.

The files at the paths of the snapshot, its temporary file, the segments and their
temporary files are distinct. A file has its contents and what the machine going
down can leave of it; after a sync that is the contents. Renames and truncations
reach the disk in the order in which they are made; a machine that loses the last of
them leaves what it would have left earlier in the run.
-/

namespace Oryx.Snap
set_option autoImplicit false
open Oryx.Library Oryx.Hashmap

/-- A file: what a reader finds in it, and what else can be found after the machine
went down. -/
structure Stored (α : Type) where
  content : α
  remains : α → Prop

namespace Stored

variable {α : Type}

/-- What can be found in the file after the process or the machine stopped. -/
def Survives (f : Stored α) (x : α) : Prop := x = f.content ∨ f.remains x

def synced (x : α) : Stored α := ⟨x, fun y => y = x⟩

/-- Written and not synced. -/
def written (x : α) : Stored α := ⟨x, fun _ => True⟩

theorem survives_synced {x y : α} : (synced x).Survives y ↔ y = x := or_self_iff

/-- An append that is not synced: a part of it can be lost. -/
def append (f : Stored Bytes) (bytes : Bytes) : Stored Bytes :=
  if bytes = [] then f
  else ⟨f.content ++ bytes, fun x => ∃ y part, f.Survives y ∧ part <+: bytes ∧ x = y ++ part⟩

@[simp] theorem append_nil (f : Stored Bytes) : f.append [] = f := if_pos rfl

@[simp] theorem content_append (f : Stored Bytes) (bytes : Bytes) : (f.append bytes).content = f.content ++ bytes := by
  rw [append]
  split
  · rename_i empty
    rw [empty, List.append_nil]
  · rfl

end Stored

/-! ## Segments -/

/-- A segment: the file at its path, the file its handle refers to when that is no
longer the one at the path, the handle's position, the writer's buffer and the
temporary file of a `clearSegment`. -/
structure SegmentFile where
  file : Stored Bytes
  unlinked : Option (Stored Bytes)
  position : Nat
  buffered : Bytes
  clearTmp : Option (Stored Bytes)

inductive SegmentOp where
  | flush
  | seekEnd
  | seek (offset : Int)
  | truncate
  /-- `seg.wrt.Reset(seg.file)` -/
  | reset
  | openTmp
  | copyTmp
  | syncTmp
  | closeTmp
  | renameTmp
  | removeTmp
  /-- `seg.file.Close()` -/
  | close
  /-- open the path anew -/
  | reopen
  /-- `newFile.Seek(0, io.SeekEnd)` -/
  | seekNew
  | closeNew
  /-- `seg.file = newFile; seg.wrt.Reset(seg.file)` -/
  | adopt

namespace SegmentFile

/-- The file the handle refers to. -/
def opened (s : SegmentFile) : Stored Bytes := s.unlinked.getD s.file

def setOpened (s : SegmentFile) (f : Stored Bytes) : SegmentFile :=
  match s.unlinked with
  | none => { s with file := f }
  | some _ => { s with unlinked := some f }

def setPosition (s : SegmentFile) (position : Nat) : SegmentFile := { s with position := position }

def setBuffered (s : SegmentFile) (bytes : Bytes) : SegmentFile := { s with buffered := bytes }

def setClearTmp (s : SegmentFile) (tmp : Option (Stored Bytes)) : SegmentFile := { s with clearTmp := tmp }

/-- The first `n` bytes of the buffer reach the file, which is open for appending. -/
def drain (s : SegmentFile) (n : Nat) : SegmentFile :=
  if s.buffered = [] then s
  else
    let appended := s.opened.append (s.buffered.take n)
    ((s.setOpened appended).setBuffered (s.buffered.drop n)).setPosition appended.content.length

/-- What a call that succeeds returns and does; `none` when it cannot succeed. -/
def perform (s : SegmentFile) : SegmentOp → Option (Int × SegmentFile)
  | .flush => some (0, s.drain s.buffered.length)
  | .seekEnd => some (s.opened.content.length, s.setPosition s.opened.content.length)
  | .seek offset => if offset < 0 then none else some (offset, s.setPosition offset.toNat)
  | .truncate => some (0, s.setOpened (.synced []))
  | .reset => some (0, s.setBuffered [])
  | .openTmp => some (0, s.setClearTmp (some (.written [])))
  | .copyTmp => s.clearTmp.map fun tmp =>
      let copied := s.opened.content.drop s.position
      let read := s.setPosition (s.position + copied.length)
      (copied.length, read.setClearTmp (some (.written (tmp.content ++ copied))))
  | .syncTmp => s.clearTmp.map fun tmp => (0, s.setClearTmp (some (.synced tmp.content)))
  | .closeTmp => some (0, s)
  | .renameTmp => s.clearTmp.map fun tmp => (0, { s with file := tmp, unlinked := some s.opened, clearTmp := none })
  | .removeTmp => s.clearTmp.map fun _ => (0, s.setClearTmp none)
  | .close => some (0, s)
  | .reopen => some (0, s)
  | .seekNew => some (s.file.content.length, s)
  | .closeNew => some (0, s)
  | .adopt => some (0, { s with unlinked := none, position := s.file.content.length, buffered := [] })

/-- What a call that fails can leave behind. -/
def Spoils (s s' : SegmentFile) : SegmentOp → Prop
  | .flush => ∃ n, s' = s.drain n
  | .openTmp | .copyTmp | .syncTmp | .closeTmp => ∃ tmp position, s' = (s.setClearTmp tmp).setPosition position
  | .seekEnd | .seek _ | .truncate | .renameTmp | .removeTmp | .close | .reopen | .seekNew | .closeNew => s' = s
  | .reset | .adopt => False

/-- What a call can do. -/
def exec (s : SegmentFile) (op : SegmentOp) (reply : Except Error Int) (s' : SegmentFile) : Prop :=
  match reply with
  | .ok n => s.perform op = some (n, s')
  | .error _ => s.Spoils s' op

/-- The segment as the log without faults has it. -/
def view (s : SegmentFile) : WalSegment := ⟨s.file.content, s.buffered⟩

end SegmentFile

/-! ## The disk -/

structure DiskState (count : Nat) where
  /-- the file at the snapshot path -/
  snapshot : Option (Stored SnapshotFile)
  tmp : Option (Stored SnapshotFile)
  segments : Fin count → SegmentFile

inductive DiskOp (count : Nat) where
  | segment (i : Fin count) (op : SegmentOp)
  | createTmp
  | encode (record : GobRecord)
  | syncTmp
  | closeTmp
  | renameTmp
  | removeTmp

namespace DiskState

variable {count : Nat}

def setSegment (d : DiskState count) (i : Fin count) (s : SegmentFile) : DiskState count :=
  { d with segments := Function.update d.segments i s }

def setTmp (d : DiskState count) (tmp : Option (Stored SnapshotFile)) : DiskState count := { d with tmp := tmp }

@[simp] theorem segments_setSegment_self (d : DiskState count) (i : Fin count) (s : SegmentFile) :
    (d.setSegment i s).segments i = s := Function.update_self ..

theorem segments_setSegment_of_ne (d : DiskState count) {i j : Fin count} (apart : j ≠ i) (s : SegmentFile) :
    (d.setSegment i s).segments j = d.segments j := Function.update_of_ne apart ..

/-- What holds of every segment still does when it holds of the new one. -/
theorem forall_setSegment {d : DiskState count} {P : Fin count → SegmentFile → Prop} (all : ∀ j, P j (d.segments j))
    {i : Fin count} {s : SegmentFile} (here : P i s) (j : Fin count) : P j ((d.setSegment i s).segments j) := by
  by_cases same : j = i
  · subst same
    rwa [segments_setSegment_self]
  · rw [segments_setSegment_of_ne d same]
    exact all j

def perform (d : DiskState count) : DiskOp count → Option (Int × DiskState count)
  | .segment i op => ((d.segments i).perform op).map fun out => (out.1, d.setSegment i out.2)
  | .createTmp => some (0, d.setTmp (some (.written ⟨[], none⟩)))
  | .encode record => d.tmp.map fun tmp =>
      (0, d.setTmp (some (.written { tmp.content with records := tmp.content.records ++ [record] })))
  | .syncTmp => d.tmp.map fun tmp => (0, d.setTmp (some (.synced tmp.content)))
  | .closeTmp => some (0, d)
  | .renameTmp => d.tmp.map fun tmp => (0, { d with snapshot := some tmp, tmp := none })
  | .removeTmp => d.tmp.map fun _ => (0, d.setTmp none)

def Spoils (d d' : DiskState count) : DiskOp count → Prop
  | .segment i op => ∃ s', (d.segments i).Spoils s' op ∧ d' = d.setSegment i s'
  | .createTmp | .encode _ | .syncTmp | .closeTmp => ∃ tmp, d' = d.setTmp tmp
  | .renameTmp | .removeTmp => d' = d

def exec (d : DiskState count) (op : DiskOp count) (reply : Except Error Int) (d' : DiskState count) : Prop :=
  match reply with
  | .ok n => d.perform op = some (n, d')
  | .error _ => d.Spoils d' op

theorem exec_segment {d d' : DiskState count} {i : Fin count} {op : SegmentOp} {reply : Except Error Int}
    (step : d.exec (.segment i op) reply d') :
    ∃ s', (d.segments i).exec op reply s' ∧ d' = d.setSegment i s' := by
  cases reply with
  | ok n =>
    obtain ⟨⟨m, s'⟩, done, same⟩ := Option.map_eq_some_iff.mp step
    obtain ⟨rfl, rfl⟩ := Prod.mk.inj same
    exact ⟨s', done, rfl⟩
  | error err => exact step

end DiskState

/-! ## The programs -/

section Programs

variable {count : Nat}

abbrev DiskProg (count : Nat) (α : Type) := Prog (DiskOp count) Int Error α

/-- A call on a segment whose result is not used. -/
def onSegment (i : Fin count) (op : SegmentOp) : DiskProg count Unit := do
  let _ ← Prog.ask (.segment i op)

/-- A call on the snapshot's temporary file. -/
def onTmp (op : DiskOp count) : DiskProg count Unit := do
  let _ ← Prog.ask op

/-- The loop of `PrepareSnapshot` over the segments not yet visited. -/
def prepareLoop : List (Fin count) → List Int → DiskProg count (List Int)
  | [], offsets => pure offsets
  | i :: rest, offsets => do
    onSegment i .flush
    let pos ← Prog.ask (.segment i .seekEnd)
    prepareLoop rest (offsets ++ [pos])

def prepareSnapshot : DiskProg count (List Int) := prepareLoop (List.finRange count) []

/-- A step of the copy: when it fails, the temporary file is closed and removed. -/
def orDiscard (i : Fin count) (op : SegmentOp) : DiskProg count Unit := do
  try onSegment i op
  catch err =>
    Prog.ignore (.segment i .closeTmp)
    Prog.ignore (.segment i .removeTmp)
    throw err

/-- A step behind the close: only the removal is left to do. -/
def orRemove (i : Fin count) (op : SegmentOp) : DiskProg count Unit := do
  try onSegment i op
  catch err =>
    Prog.ignore (.segment i .removeTmp)
    throw err

/-- The part of `clearSegment` that keeps what is behind the offset. -/
def keepTrailing (i : Fin count) (offset : Int) : DiskProg count Unit := do
  onSegment i (.seek offset)
  onSegment i .openTmp
  orDiscard i .copyTmp
  orDiscard i .syncTmp
  orRemove i .closeTmp
  orRemove i .renameTmp
  onSegment i .close
  onSegment i .reopen
  try onSegment i .seekNew
  catch err =>
    Prog.ignore (.segment i .closeNew)
    throw err
  onSegment i .adopt

/-- The part that keeps nothing. -/
def dropAll (i : Fin count) : DiskProg count Unit := do
  onSegment i .truncate
  onSegment i (.seek 0)
  onSegment i .reset

def clearSegment (i : Fin count) (offset : Int) : DiskProg count Unit := do
  onSegment i .flush
  let currSize ← Prog.ask (.segment i .seekEnd)
  if offset ≤ 0 ∨ currSize ≤ offset then dropAll i else keepTrailing i offset

def clearLoop (offsets : List Int) : List (Fin count) → DiskProg count Unit
  | [] => pure ()
  | i :: rest => do
    clearSegment i (offsetAt offsets i)
    clearLoop offsets rest

def clear (offsets : List Int) : DiskProg count Unit := clearLoop offsets (List.finRange count)

/-- The callback of `Range`: the first entry that cannot be encoded ends it. -/
def encodeEntries : List GobRecord → DiskProg count Unit
  | [] => pure ()
  | record :: rest => do
    try onTmp (.encode record)
    catch err => throw (ascii "failed to encode snapshot entry: " ++ err)
    encodeEntries rest

/-- `stateTransferEncoder` on a map that nothing writes to meanwhile. -/
def stateTransferEncoder (choose : Nat → Nat) (pool : Pool) (hm : ShardedMap) : DiskProg count Unit :=
  encodeEntries (encodeLoop choose pool hm.range)

/-- The deferred cleanup. -/
def finish (success : Bool) : DiskProg count Unit := do
  Prog.ignore .closeTmp
  if !success then Prog.ignore .removeTmp

/-- From the encoder to the rename. -/
def writeSnapshot (choose : Nat → Nat) (pool : Pool) (hm : ShardedMap) : DiskProg count Unit := do
  stateTransferEncoder choose pool hm
  onTmp .syncTmp
  onTmp .closeTmp
  onTmp .renameTmp

/-- `Create`. Its flag `success` is set behind the rename. -/
def create (choose : Nat → Nat) (pool : Pool) (hm : ShardedMap) : DiskProg count Unit := do
  let offsets ← prepareSnapshot
  onTmp .createTmp
  try writeSnapshot choose pool hm
  catch err =>
    finish false
    throw err
  try clear offsets
  catch err =>
    finish true
    throw err
  finish true

end Programs

/-! ## When no call fails

The programs then do what the log and the snapshotter without faults do. -/

section Runs

open DiskState

variable {count : Nat}

@[simp] theorem DiskState.setSegment_setSegment (d : DiskState count) (i : Fin count) (s s' : SegmentFile) :
    (d.setSegment i s).setSegment i s' = d.setSegment i s' := by
  simp [setSegment]

variable {i : Fin count} {s s' s'' : SegmentFile} {op : SegmentOp} {n : Int}

theorem run_ask_segment {d : DiskState count} (here : d.segments i = s) (done : s.perform op = some (n, s')) :
    (Prog.ask (.segment i op) : DiskProg count Int).run DiskState.perform d = some (n, d.setSegment i s') := by
  rw [Prog.run_ask, DiskState.perform, here, done]
  rfl

/-- The program takes segment `i` from `s` to `s'` and does nothing else. -/
def Does (i : Fin count) (p : DiskProg count Unit) (s s' : SegmentFile) : Prop :=
  ∀ d : DiskState count, d.segments i = s → p.run DiskState.perform d = some ((), d.setSegment i s')

theorem does_onSegment (done : s.perform op = some (n, s')) : Does i (onSegment i op) s s' := by
  intro d here
  rw [onSegment, Prog.run_bind, run_ask_segment here done]
  rfl

theorem Does.andThen {p q : DiskProg count Unit} (first : Does i p s s') (second : Does i q s' s'') :
    Does i (p >>= fun _ => q) s s'' := by
  intro d here
  rw [Prog.run_bind, first d here, Option.bind_some, second _ (segments_setSegment_self ..), setSegment_setSegment]

/-- The handler of a part that succeeds is never started. -/
theorem Does.orElse {p : DiskProg count Unit} (does : Does i p s s') (handler : Error → DiskProg count Unit) :
    Does i (tryCatch p handler) s s' :=
  fun d here => Prog.run_orElse (does d here)

theorem Does.afterAsk {f : Int → DiskProg count Unit} (done : s.perform op = some (n, s'))
    (rest : Does i (f n) s' s'') : Does i (Prog.ask (.segment i op) >>= f) s s'' := by
  intro d here
  rw [Prog.run_bind, run_ask_segment here done, Option.bind_some, rest _ (segments_setSegment_self ..),
    setSegment_setSegment]

/-- The two calls `PrepareSnapshot` and `clearSegment` start with, when the handle is
the file at the path. -/
theorem SegmentFile.flush_seekEnd (attached : s.unlinked = none) :
    ∃ flushed t, s.perform .flush = some (0, flushed) ∧
      flushed.perform .seekEnd = some ((s.view.flush.file.length : Int), t) ∧ t.view = s.view.flush ∧
      t.unlinked = none := by
  obtain ⟨file, unlinked, position, buffered, tmp⟩ := s
  obtain rfl : unlinked = none := attached
  refine ⟨_, ⟨file.append buffered, none, (file.append buffered).content.length, [], tmp⟩, rfl, ?_, ?_, rfl⟩
  · by_cases empty : buffered = []
    · simp [drain, empty, view, WalSegment.flush, setPosition, opened, perform]
    · simp [drain, empty, view, WalSegment.flush, setOpened, setBuffered, setPosition, opened, perform]
  · simp [view, WalSegment.flush]

/-- The copy leaves what is behind the offset. -/
theorem does_keepTrailing {offset : Int} (attached : s.unlinked = none) (behind : 0 ≤ offset) :
    ∃ s', Does i (keepTrailing i offset) s s' ∧ s'.view = ⟨s.file.content.drop offset.toNat, []⟩ ∧
      s'.unlinked = none := by
  obtain ⟨file, unlinked, position, buffered, tmp⟩ := s
  obtain rfl : unlinked = none := attached
  refine ⟨⟨.synced (file.content.drop offset.toNat), none, (file.content.drop offset.toNat).length, [], none⟩,
    ?_, rfl, rfl⟩
  have sought : (SegmentFile.mk file none position buffered tmp).perform (.seek offset) =
      some (offset, ⟨file, none, offset.toNat, buffered, tmp⟩) := if_neg (Int.not_lt.mpr behind)
  rw [keepTrailing]
  refine Does.andThen (does_onSegment sought) ?_
  refine Does.andThen (does_onSegment rfl) ?_
  refine Does.andThen (Does.orElse (does_onSegment rfl) _) ?_
  refine Does.andThen (Does.orElse (does_onSegment rfl) _) ?_
  refine Does.andThen (Does.orElse (does_onSegment rfl) _) ?_
  refine Does.andThen (Does.orElse (does_onSegment rfl) _) ?_
  refine Does.andThen (does_onSegment rfl) ?_
  refine Does.andThen (does_onSegment rfl) ?_
  refine Does.andThen (Does.orElse (does_onSegment rfl) _) ?_
  exact does_onSegment rfl

theorem does_dropAll (attached : s.unlinked = none) :
    ∃ s', Does i (dropAll i) s s' ∧ s'.view = ⟨[], []⟩ ∧ s'.unlinked = none := by
  obtain ⟨file, unlinked, position, buffered, tmp⟩ := s
  obtain rfl : unlinked = none := attached
  refine ⟨⟨.synced [], none, 0, [], tmp⟩, ?_, rfl, rfl⟩
  exact Does.andThen (does_onSegment rfl) (Does.andThen (does_onSegment rfl) (does_onSegment rfl))

/-- `clearSegment` on one segment, in both its branches. -/
theorem does_clearSegment (offset : Int) (attached : s.unlinked = none) :
    ∃ s', Does i (clearSegment i offset) s s' ∧ s'.view = s.view.clear offset ∧ s'.unlinked = none := by
  obtain ⟨flushed, t, flush, sought, view, linked⟩ := SegmentFile.flush_seekEnd attached
  have reduce {s' : SegmentFile} (rest : Does i
      (if offset ≤ 0 ∨ (s.view.flush.file.length : Int) ≤ offset then dropAll i else keepTrailing i offset) t s') :
      Does i (clearSegment i offset) s s' :=
    Does.andThen (does_onSegment flush) (Does.afterAsk sought rest)
  rw [WalSegment.clear]
  by_cases whole : offset ≤ 0 ∨ (s.view.flush.file.length : Int) ≤ offset
  · rw [if_pos whole] at reduce ⊢
    obtain ⟨s', does, kept⟩ := does_dropAll linked
    exact ⟨s', reduce does, kept⟩
  · rw [if_neg whole] at reduce ⊢
    have behind : 0 ≤ offset := by omega
    obtain ⟨s', does, left, linked⟩ := does_keepTrailing linked behind
    refine ⟨s', reduce does, ?_, linked⟩
    rw [left, ← view]
    rfl

/-- Every handle is the file at its path. -/
def DiskState.Attached (d : DiskState count) : Prop := ∀ i, (d.segments i).unlinked = none

theorem DiskState.Attached.setSegment {d : DiskState count} (attached : d.Attached) (here : s.unlinked = none) :
    (d.setSegment i s).Attached :=
  forall_setSegment (P := fun _ s => s.unlinked = none) attached here

/-- The segments after a loop: the first is done, and the others were left to the rest of the loop. -/
theorem views_of_rest {rest : List (Fin count)} (fresh : i ∉ rest) {d d' : DiskState count}
    {f : Fin count → WalSegment → WalSegment} (here : s.view = f i (d.segments i).view)
    (views : ∀ j, (d'.segments j).view =
      if j ∈ rest then f j ((d.setSegment i s).segments j).view else ((d.setSegment i s).segments j).view)
    (j : Fin count) :
    (d'.segments j).view = if j ∈ i :: rest then f j (d.segments j).view else (d.segments j).view := by
  rw [views j]
  by_cases same : j = i
  · subst same
    rw [if_neg fresh, if_pos List.mem_cons_self, segments_setSegment_self, here]
  · simp only [segments_setSegment_of_ne d same, List.mem_cons, same, false_or]

theorem run_clearLoop (offsets : List Int) {rest : List (Fin count)} (distinct : rest.Nodup) {d : DiskState count}
    (attached : d.Attached) :
    ∃ d', (clearLoop offsets rest).run DiskState.perform d = some ((), d') ∧ d'.snapshot = d.snapshot ∧
      ∀ j, (d'.segments j).view =
        if j ∈ rest then (d.segments j).view.clear (offsetAt offsets j) else (d.segments j).view := by
  induction rest generalizing d with
  | nil => exact ⟨d, rfl, rfl, fun j => rfl⟩
  | cons i rest ih =>
    obtain ⟨fresh, distinct⟩ := List.nodup_cons.mp distinct
    obtain ⟨s', does, view, linked⟩ := does_clearSegment (offsetAt offsets i) (attached i)
    obtain ⟨d', run, snapshot, views⟩ := ih distinct (attached.setSegment linked)
    refine ⟨d', ?_, snapshot, views_of_rest (f := fun j s => s.clear (offsetAt offsets j)) fresh view views⟩
    rw [clearLoop, Prog.run_bind, does d rfl]
    exact run

theorem run_prepareLoop (offsets : List Int) {rest : List (Fin count)} (distinct : rest.Nodup) {d : DiskState count}
    (attached : d.Attached) :
    ∃ d', (prepareLoop rest offsets).run DiskState.perform d =
        some (offsets ++ rest.map fun j => (d.segments j).view.prepareSnapshot.1, d') ∧
      d'.snapshot = d.snapshot ∧ d'.Attached ∧
      ∀ j, (d'.segments j).view =
        if j ∈ rest then (d.segments j).view.prepareSnapshot.2 else (d.segments j).view := by
  induction rest generalizing d offsets with
  | nil => exact ⟨d, by rw [prepareLoop, List.map_nil, List.append_nil]; rfl, rfl, attached, fun j => rfl⟩
  | cons i rest ih =>
    obtain ⟨fresh, distinct⟩ := List.nodup_cons.mp distinct
    obtain ⟨flushed, t, flush, sought, view, linked⟩ := SegmentFile.flush_seekEnd (attached i)
    obtain ⟨d', run, snapshot, attached', views⟩ :=
      ih (offsets ++ [((d.segments i).view.flush.file.length : Int)]) distinct (attached.setSegment (i := i) linked)
    have others : ∀ j ∈ rest, (d.setSegment i t).segments j = d.segments j :=
      fun j member => segments_setSegment_of_ne d (fun same : j = i => fresh (same ▸ member)) t
    refine ⟨d', ?_, snapshot, attached', views_of_rest (f := fun _ s => s.prepareSnapshot.2) fresh view views⟩
    rw [prepareLoop, Prog.run_bind, does_onSegment flush d rfl, Option.bind_some, Prog.run_bind,
      run_ask_segment (segments_setSegment_self ..) sought, Option.bind_some, setSegment_setSegment, run,
      List.append_assoc, List.map_congr_left fun j member => by rw [others j member]]
    rfl

theorem run_encodeEntries (rest : List GobRecord) {d : DiskState count} {f : Stored SnapshotFile}
    {done : List GobRecord} (isTmp : d.tmp = some f) (holds : f.content = ⟨done, none⟩) :
    ∃ f', (encodeEntries rest).run DiskState.perform d = some ((), d.setTmp (some f')) ∧
      f'.content = ⟨done ++ rest, none⟩ := by
  induction rest generalizing d f done with
  | nil => exact ⟨f, by rw [← isTmp]; rfl, by rw [holds, List.append_nil]⟩
  | cons record rest ih =>
    have encoded : (onTmp (.encode record)).run DiskState.perform d =
        some ((), d.setTmp (some (.written ⟨done ++ [record], none⟩))) := by
      simp [onTmp, DiskState.perform, isTmp, holds]
    obtain ⟨f', run, all⟩ := ih (d := d.setTmp (some (.written ⟨done ++ [record], none⟩))) rfl rfl
    refine ⟨f', ?_, by rw [all, List.append_assoc]; rfl⟩
    rw [encodeEntries, Prog.run_bind, Prog.run_orElse encoded]
    exact run

theorem run_writeSnapshot (choose : Nat → Nat) (pool : Pool) (hm : ShardedMap) {d : DiskState count}
    {f : Stored SnapshotFile} (isTmp : d.tmp = some f) (holds : f.content = ⟨[], none⟩) :
    (writeSnapshot choose pool hm).run DiskState.perform d = some ((),
      { d with snapshot := some (.synced ⟨encodeLoop choose pool hm.range, none⟩), tmp := none }) := by
  obtain ⟨f', run, all⟩ := run_encodeEntries (encodeLoop choose pool hm.range) isTmp holds
  rw [writeSnapshot, Prog.run_bind, stateTransferEncoder, run]
  simp [onTmp, DiskState.perform, setTmp, all]

/-- **`Create` without a fault** puts the whole map in the snapshot and clears every
segment up to its recorded length. -/
theorem run_create (choose : Nat → Nat) (pool : Pool) (hm : ShardedMap) {d : DiskState count} (attached : d.Attached) :
    ∃ d', (create choose pool hm).run DiskState.perform d = some ((), d') ∧
      d'.snapshot = some (.synced ⟨encodeLoop choose pool hm.range, none⟩) ∧
      ∀ i, (d'.segments i).view =
        (d.segments i).view.prepareSnapshot.2.clear (d.segments i).view.prepareSnapshot.1 := by
  obtain ⟨d₁, prepared, -, attached, flushed⟩ := run_prepareLoop [] (List.nodup_finRange count) attached
  have created : (onTmp .createTmp).run DiskState.perform d₁ = some ((), d₁.setTmp (some (.written ⟨[], none⟩))) := rfl
  have placed := run_writeSnapshot choose pool hm (d := d₁.setTmp (some (.written ⟨[], none⟩))) rfl rfl
  obtain ⟨d₂, cleared, snapshot, views⟩ := run_clearLoop
    ([] ++ (List.finRange count).map fun j => (d.segments j).view.prepareSnapshot.1) (List.nodup_finRange count)
    (d := { d₁.setTmp _ with snapshot := some (.synced ⟨encodeLoop choose pool hm.range, none⟩), tmp := none }) attached
  refine ⟨d₂, ?_, snapshot, fun i => ?_⟩
  · rw [create, Prog.run_bind, prepareSnapshot, prepared, Option.bind_some, Prog.run_bind, created, Option.bind_some,
      Prog.run_bind, Prog.run_orElse placed, Option.bind_some, Prog.run_bind, clear, Prog.run_orElse cleared]
    rfl
  · have recorded : offsetAt ([] ++ (List.finRange count).map fun j => (d.segments j).view.prepareSnapshot.1) i =
        (d.segments i).view.prepareSnapshot.1 := by
      simp [offsetAt]
    rw [views i, if_pos (List.mem_finRange i), recorded]
    exact congrArg (WalSegment.clear · _) ((flushed i).trans (if_pos (List.mem_finRange i)))

end Runs

end Oryx.Snap
