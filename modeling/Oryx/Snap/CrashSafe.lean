import Oryx.Security.Reference
import Oryx.Snap.Files

/-!
# A snapshot that fails or crashes loses nothing

The files at the snapshot path and at the segment paths stay complete for the map
whatever call of `Create` fails and wherever it stops. Up to the rename they are the
files `Create` started with. From the rename on the snapshot lists the whole map and
is synced, and each segment is as it was or empty: no segment is longer than its
recorded offset, so `Clear` only truncates.
-/

namespace Oryx.Snap
set_option autoImplicit false
open Oryx.Library Oryx.Hashmap Oryx.Writer

/-! ## Complete disks -/

/-- The files at the snapshot path and at the segment paths. -/
structure Files (count : Nat) where
  snapshot : Option SnapshotFile
  segments : Fin count → Bytes

namespace Files

variable {count : Nat}

def setSegment (files : Files count) (i : Fin count) (bytes : Bytes) : Files count :=
  { files with segments := Function.update files.segments i bytes }

@[simp] theorem segments_setSegment_self (files : Files count) (i : Fin count) (bytes : Bytes) :
    (files.setSegment i bytes).segments i = bytes := Function.update_self ..

theorem segments_setSegment_of_ne (files : Files count) {i j : Fin count} (apart : j ≠ i) (bytes : Bytes) :
    (files.setSegment i bytes).segments j = files.segments j := Function.update_of_ne apart ..

variable [Security] [Proto]

/-- The snapshot file has an entry for the key that stands for `v`. -/
def InSnapshot (files : Files count) (k : Key) (v : Value) : Prop :=
  ∃ file ∈ files.snapshot, ∃ r ∈ file.records, (gobDecode r .zero).key = k ∧
    withItemHash (hashFunc k) (gobDecode r .zero).toValue = v

/-- The bytes have a complete frame for the key that stands for `v`. -/
def InFrame (bytes : Bytes) (k : Key) (v : Value) : Prop :=
  ∃ before data after r, bytes = frames before ++ frame data ++ after ∧ (∀ p ∈ before, p.length < 2 ^ 32) ∧
    Decodes data (some r) ∧ r.key = k ∧ record r = v

/-- There is a record for the key on disk that stands for `v`. -/
def OnDisk (files : Files count) (k : Key) (v : Value) : Prop :=
  files.InSnapshot k v ∨ ∃ i, InFrame (files.segments i) k v

/-- Every key's value is on disk, and no record for it wins over the value. -/
def Complete (hm : ShardedMap) (files : Files count) : Prop :=
  ∀ k v, hm.cell hashFunc k = some v →
    files.OnDisk k v ∧ ∀ v', files.OnDisk k v' → lwwWins v v' = false

end Files

namespace DiskState

variable {count : Nat}

/-- The files that can be found when the process or the machine stops. -/
structure Leaves (d : DiskState count) (files : Files count) : Prop where
  snapshot : Option.Rel Stored.Survives d.snapshot files.snapshot
  segments : ∀ i, (d.segments i).file.Survives (files.segments i)

/-- The files as a reader finds them now. -/
def files (d : DiskState count) : Files count := ⟨d.snapshot.map Stored.content, fun i => (d.segments i).file.content⟩

theorem leaves_files (d : DiskState count) : d.Leaves d.files := by
  refine ⟨?_, fun i => Or.inl rfl⟩
  rw [files]
  cases d.snapshot with
  | none => exact .none
  | some f => exact .some (Or.inl rfl)

theorem Leaves.setSegment {d : DiskState count} {files : Files count} (leaves : d.Leaves files) {i : Fin count}
    {bytes : Bytes} (survives : (d.segments i).file.Survives bytes) : d.Leaves (files.setSegment i bytes) := by
  refine ⟨leaves.snapshot, fun j => ?_⟩
  by_cases here : j = i
  · subst here
    rwa [Files.segments_setSegment_self]
  · rw [Files.segments_setSegment_of_ne files here]
    exact leaves.segments j

/-- A synced snapshot is found as it is. -/
theorem Leaves.snapshot_eq {d : DiskState count} {files : Files count} (leaves : d.Leaves files) {file : SnapshotFile}
    (synced : d.snapshot = some (.synced file)) : files.snapshot = some file := by
  obtain ⟨snapshot, segments⟩ := files
  have found : Option.Rel Stored.Survives d.snapshot snapshot := leaves.snapshot
  rw [synced] at found
  cases found with
  | some survives => exact congrArg some (Stored.survives_synced.mp survives)

/-- The disk is complete, whatever stops now. -/
def Complete [Security] [Proto] (hm : ShardedMap) (d : DiskState count) : Prop :=
  ∀ files, d.Leaves files → files.Complete hm

/-- The WAL buffers are flushed. -/
def Flushed (d : DiskState count) : Prop := ∀ i, (d.segments i).buffered = []

end DiskState

/-! ## What `Create` does to the files -/

/-- The calls of `clearSegment` when it truncates. -/
def SegmentOp.Truncates : SegmentOp → Prop
  | .flush | .seekEnd | .seek _ | .truncate | .reset => True
  | .openTmp | .copyTmp | .syncTmp | .closeTmp | .renameTmp | .removeTmp | .close | .reopen | .seekNew | .closeNew
  | .adopt => False

namespace SegmentFile

/-- Only the position and the temporary file may differ from the start. -/
structure Kept (start s : SegmentFile) : Prop where
  file : s.file = start.file
  unlinked : s.unlinked = start.unlinked
  buffered : s.buffered = []

/-- The segment is as at the start or empty, at its path and behind its handle. -/
structure Dropped (start s : SegmentFile) : Prop where
  file : s.file = start.file ∨ s.file = .synced []
  opened : s.opened.content = start.opened.content ∨ s.opened.content = []
  buffered : s.buffered = []

variable {start s s' : SegmentFile}

theorem drain_of_buffered (empty : s.buffered = []) (n : Nat) : s.drain n = s := if_pos empty

theorem opened_setOpened (s : SegmentFile) (f : Stored Bytes) : (s.setOpened f).opened = f := by
  obtain ⟨file, unlinked, position, buffered, tmp⟩ := s
  cases unlinked <;> rfl

theorem Kept.opened (kept : Kept start s) : s.opened = start.opened := by
  rw [SegmentFile.opened, SegmentFile.opened, kept.file, kept.unlinked]

theorem Kept.dropped (kept : Kept start s) : Dropped start s :=
  ⟨Or.inl kept.file, Or.inl (congrArg Stored.content kept.opened), kept.buffered⟩

theorem Kept.setPosition (kept : Kept start s) (n : Nat) : Kept start (s.setPosition n) :=
  ⟨kept.file, kept.unlinked, kept.buffered⟩

theorem Dropped.setPosition (dropped : Dropped start s) (n : Nat) : Dropped start (s.setPosition n) :=
  ⟨dropped.file, dropped.opened, dropped.buffered⟩

theorem Dropped.truncate (dropped : Dropped start s) : Dropped start (s.setOpened (.synced [])) := by
  refine ⟨?_, Or.inr ?_, ?_⟩
  · cases linked : s.unlinked with
    | none => exact Or.inr (by simp only [setOpened, linked])
    | some f => exact (by simpa only [setOpened, linked] using dropped.file)
  · rw [opened_setOpened]
    rfl
  · cases linked : s.unlinked with
    | none => exact (by simpa only [setOpened, linked] using dropped.buffered)
    | some f => exact (by simpa only [setOpened, linked] using dropped.buffered)

theorem exec_flush {reply : Except Error Int} (flushed : s.buffered = []) (step : s.exec .flush reply s') : s' = s := by
  cases reply with
  | ok n =>
    obtain ⟨-, rfl⟩ := Prod.mk.inj (Option.some.inj step)
    exact drain_of_buffered flushed _
  | error err =>
    obtain ⟨n, rfl⟩ := step
    exact drain_of_buffered flushed n

theorem exec_seekEnd {reply : Except Error Int} (step : s.exec .seekEnd reply s') :
    (∃ n, s' = s.setPosition n) ∧ ∀ pos, reply = .ok pos → pos = s.opened.content.length := by
  cases reply with
  | ok n =>
    obtain ⟨rfl, rfl⟩ := Prod.mk.inj (Option.some.inj step)
    exact ⟨⟨_, rfl⟩, fun pos same => (Except.ok.inj same).symm⟩
  | error err => exact ⟨⟨s.position, step⟩, nofun⟩

theorem exec_seek {offset : Int} {reply : Except Error Int} (step : s.exec (.seek offset) reply s') :
    ∃ n, s' = s.setPosition n := by
  cases reply with
  | ok n =>
    simp only [exec, perform, Option.ite_none_left_eq_some, Option.some.injEq, Prod.mk.injEq] at step
    exact ⟨_, step.2.2.symm⟩
  | error err => exact ⟨s.position, step⟩

theorem exec_truncate {reply : Except Error Int} (step : s.exec .truncate reply s') :
    s' = s ∨ s' = s.setOpened (.synced []) := by
  cases reply with
  | ok n => exact Or.inr (Prod.mk.inj (Option.some.inj step)).2.symm
  | error err => exact Or.inl step

theorem exec_reset {reply : Except Error Int} (step : s.exec .reset reply s') : s' = s.setBuffered [] := by
  cases reply with
  | ok n => exact (Prod.mk.inj (Option.some.inj step)).2.symm
  | error err => exact step.elim

/-- Each of them leaves the segment as it was or empty. -/
theorem Dropped.exec {op : SegmentOp} {reply : Except Error Int} (dropped : Dropped start s) (step : s.exec op reply s')
    (truncates : op.Truncates) : Dropped start s' := by
  cases op with
  | flush =>
    rw [exec_flush dropped.buffered step]
    exact dropped
  | seekEnd =>
    obtain ⟨⟨n, rfl⟩, -⟩ := exec_seekEnd step
    exact dropped.setPosition n
  | seek offset =>
    obtain ⟨n, rfl⟩ := exec_seek step
    exact dropped.setPosition n
  | truncate =>
    rcases exec_truncate step with rfl | rfl
    · exact dropped
    · exact dropped.truncate
  | reset =>
    rw [exec_reset step]
    exact ⟨dropped.file, dropped.opened, rfl⟩
  | openTmp | copyTmp | syncTmp | closeTmp | renameTmp | removeTmp | close | reopen | seekNew | closeNew | adopt =>
    exact truncates.elim

end SegmentFile

namespace DiskState

variable {count : Nat} {start d d' : DiskState count} {records : List GobRecord} {i : Fin count}

/-- Up to the rename: the files are those of the start. -/
structure Before (start d : DiskState count) : Prop where
  snapshot : d.snapshot = start.snapshot
  segments : ∀ i, (start.segments i).Kept (d.segments i)

/-- From the rename on: the snapshot lists `records`, and segments were dropped. -/
structure After (start : DiskState count) (records : List GobRecord) (d : DiskState count) : Prop where
  snapshot : d.snapshot = some (.synced ⟨records, none⟩)
  segments : ∀ i, (start.segments i).Dropped (d.segments i)

/-- The states a `Create` that writes `records` goes through. -/
def Midway (start : DiskState count) (records : List GobRecord) (d : DiskState count) : Prop :=
  Before start d ∨ After start records d

theorem Before.setSegment (before : Before start d) {s : SegmentFile} (kept : (start.segments i).Kept s) :
    Before start (d.setSegment i s) :=
  ⟨before.snapshot, forall_setSegment (P := fun j s => (start.segments j).Kept s) before.segments kept⟩

theorem After.setSegment (after : After start records d) {s : SegmentFile} (dropped : (start.segments i).Dropped s) :
    After start records (d.setSegment i s) :=
  ⟨after.snapshot, forall_setSegment (P := fun j s => (start.segments j).Dropped s) after.segments dropped⟩

theorem Midway.setTmp (midway : Midway start records d) (tmp : Option (Stored SnapshotFile)) :
    Midway start records (d.setTmp tmp) :=
  midway.imp (fun before => ⟨before.snapshot, before.segments⟩) (fun after => ⟨after.snapshot, after.segments⟩)

/-- The calls that leave the files at the paths alone. -/
def OnTmp : DiskOp count → Prop
  | .segment _ _ | .renameTmp => False
  | .createTmp | .encode _ | .syncTmp | .closeTmp | .removeTmp => True

theorem exec_onTmp {op : DiskOp count} (aside : OnTmp op) {reply : Except Error Int} (step : d.exec op reply d') :
    ∃ tmp, d' = d.setTmp tmp := by
  cases reply with
  | ok n =>
    cases op with
    | segment | renameTmp => exact aside.elim
    | createTmp | closeTmp =>
      obtain ⟨-, rfl⟩ := Prod.mk.inj (Option.some.inj step)
      exact ⟨_, rfl⟩
    | encode | syncTmp | removeTmp =>
      obtain ⟨tmp, -, same⟩ := Option.map_eq_some_iff.mp step
      exact ⟨_, (Prod.mk.inj same).2.symm⟩
  | error err =>
    cases op with
    | segment | renameTmp => exact aside.elim
    | createTmp | closeTmp | encode | syncTmp => exact step
    | removeTmp => exact ⟨d.tmp, step⟩

end DiskState

/-! ## The programs are safe -/

section Safety

open Prog DiskState

variable {count : Nat} {start d : DiskState count} {records : List GobRecord}

theorem safe_onSegment {Q : DiskState count → Prop} {post : Unit → DiskState count → Prop} {i : Fin count}
    {op : SegmentOp} (here : Q d)
    (steps : ∀ reply s', (d.segments i).exec op reply s' → Q (d.setSegment i s') ∧ post () (d.setSegment i s')) :
    Safe exec Q (onSegment i op) post d := by
  refine Safe.bind (safe_ask here fun reply d' step => ?_)
  obtain ⟨s', done, rfl⟩ := exec_segment step
  obtain ⟨good, reached⟩ := steps reply s' done
  exact ⟨good, fun _ _ => ⟨good, reached⟩⟩

/-- `PrepareSnapshot` changes no file and records their lengths. -/
theorem safe_prepareLoop (rest : List (Fin count)) (offsets : List Int) (before : Before start d) :
    Safe exec (Midway start records) (prepareLoop rest offsets)
      (fun out d => Before start d ∧
        out = offsets ++ rest.map fun i => ((start.segments i).opened.content.length : Int)) d := by
  induction rest generalizing offsets d with
  | nil => exact ⟨Or.inl before, before, (List.append_nil _).symm⟩
  | cons i rest ih =>
    refine Safe.bind (safe_onSegment (Or.inl before) fun reply s' flushed => ?_)
    have kept : (start.segments i).Kept s' := by
      rw [SegmentFile.exec_flush (before.segments i).buffered flushed]
      exact before.segments i
    have before := before.setSegment kept
    refine ⟨Or.inl before, Safe.bind (safe_ask (Or.inl before) fun reply d' sought => ?_)⟩
    obtain ⟨s, done, rfl⟩ := exec_segment sought
    rw [segments_setSegment_self] at done
    obtain ⟨⟨n, rfl⟩, reads⟩ := SegmentFile.exec_seekEnd done
    have before := before.setSegment (kept.setPosition n)
    refine ⟨Or.inl before, fun pos same => ?_⟩
    obtain rfl := reads pos same
    refine (ih _ before).mono fun out d _ => And.imp_right fun same => ?_
    rw [same, List.append_assoc, List.map_cons, kept.opened]
    rfl

/-- A call of the truncating branch. -/
theorem DiskState.After.safe_onSegment (after : After start records d) (i : Fin count) (op : SegmentOp)
    (truncates : op.Truncates) :
    Safe exec (Midway start records) (onSegment i op) (fun _ d => After start records d) d := by
  refine Snap.safe_onSegment (Or.inr after) fun reply s' step => ?_
  have after := after.setSegment ((after.segments i).exec step truncates)
  exact ⟨Or.inr after, after⟩

/-- No segment is longer than its recorded offset, so `clearSegment` truncates it. -/
theorem safe_clearSegment {i : Fin count} (after : After start records d) :
    Safe exec (Midway start records) (clearSegment i (start.segments i).opened.content.length)
      (fun _ d => After start records d) d := by
  refine Safe.bind ((after.safe_onSegment i .flush trivial).mono fun _ d _ after => ?_)
  refine Safe.bind (safe_ask (Or.inr after) fun reply d' sought => ?_)
  obtain ⟨s, done, rfl⟩ := exec_segment sought
  have short : ∀ pos, reply = .ok pos → pos ≤ ((start.segments i).opened.content.length : Int) := by
    intro pos same
    rw [(SegmentFile.exec_seekEnd done).2 pos same]
    rcases (after.segments i).opened with whole | empty
    · rw [whole]
    · rw [empty]
      exact Int.natCast_nonneg _
  have after := after.setSegment ((after.segments i).exec done trivial)
  refine ⟨Or.inr after, fun pos same => ?_⟩
  rw [if_pos (Or.inr (short pos same))]
  refine Safe.bind ((after.safe_onSegment i .truncate trivial).mono fun _ d _ after => ?_)
  refine Safe.bind ((after.safe_onSegment i (.seek 0) trivial).mono fun _ d _ after => ?_)
  exact after.safe_onSegment i .reset trivial

theorem safe_clearLoop (rest : List (Fin count)) {offsets : List Int}
    (recorded : ∀ i : Fin count, offsetAt offsets i = (start.segments i).opened.content.length)
    (after : After start records d) :
    Safe exec (Midway start records) (clearLoop offsets rest) (fun _ d => After start records d) d := by
  induction rest generalizing d with
  | nil => exact ⟨Or.inr after, after⟩
  | cons i rest ih =>
    rw [clearLoop, recorded i]
    exact Safe.bind ((safe_clearSegment after).mono fun _ d _ after => ih after)

/-- A call on the temporary file. -/
theorem safe_onTmp {post : Unit → DiskState count → Prop} {op : DiskOp count} (aside : OnTmp op)
    (midway : Midway start records d) (reached : ∀ n d', d.perform op = some (n, d') → post () d') :
    Safe exec (Midway start records) (onTmp op) post d := by
  refine Safe.bind (safe_ask midway fun reply d' step => ?_)
  have good : Midway start records d' := by
    obtain ⟨tmp, rfl⟩ := exec_onTmp aside step
    exact midway.setTmp tmp
  refine ⟨good, fun n same => ?_⟩
  subst same
  exact ⟨good, reached n d' step⟩

theorem safe_ignore_onTmp (op : DiskOp count) (aside : OnTmp op) (midway : Midway start records d) :
    Safe exec (Midway start records) (ignore op) (fun _ d => Midway start records d) d := by
  refine safe_ignore midway fun reply d' step => ?_
  obtain ⟨tmp, rfl⟩ := exec_onTmp aside step
  exact ⟨midway.setTmp tmp, midway.setTmp tmp⟩

theorem safe_finish (success : Bool) (midway : Midway start records d) :
    Safe exec (Midway start records) (finish success) (fun _ d => Midway start records d) d := by
  refine Safe.bind ((safe_ignore_onTmp .closeTmp trivial midway).mono fun _ d _ midway => ?_)
  cases success with
  | false => exact safe_ignore_onTmp .removeTmp trivial midway
  | true => exact ⟨midway, midway⟩

/-- The temporary file, not yet in place, holds the entries encoded so far. -/
structure Writing (start : DiskState count) (done : List GobRecord) (d : DiskState count) : Prop where
  before : Before start d
  tmp : ∃ f : Stored SnapshotFile, d.tmp = some f ∧ f.content = ⟨done, none⟩

theorem safe_encodeEntries (rest done : List GobRecord) (writing : Writing start done d) :
    Safe exec (Midway start records) (encodeEntries rest) (fun _ d => Writing start (done ++ rest) d) d := by
  induction rest generalizing done d with
  | nil => exact ⟨Or.inl writing.before, (List.append_nil done).symm ▸ writing⟩
  | cons record rest ih =>
    refine Safe.bind (Safe.orElse ?_ fun err d midway => midway)
    refine safe_onTmp trivial (Or.inl writing.before) fun n d' encoded => ?_
    obtain ⟨f, isTmp, holds⟩ := writing.tmp
    simp only [DiskState.perform, isTmp, holds, Option.map_some, Option.some.injEq, Prod.mk.injEq] at encoded
    obtain ⟨-, rfl⟩ := encoded
    have next : Writing start (done ++ [record]) (d.setTmp (some (.written ⟨done ++ [record], none⟩))) :=
      ⟨⟨writing.before.snapshot, writing.before.segments⟩, _, rfl, rfl⟩
    exact (ih _ next).mono fun _ d _ all => by rwa [List.append_assoc] at all

/-- The temporary file is in place once it holds everything and is synced. -/
theorem safe_writeSnapshot {choose : Nat → Nat} {pool : Pool} {hm : ShardedMap}
    (all : encodeLoop choose pool hm.range = records) (writing : Writing start [] d) :
    Safe exec (Midway start records) (writeSnapshot choose pool hm) (fun _ d => After start records d) d := by
  rw [writeSnapshot, stateTransferEncoder, all]
  refine Safe.bind ((safe_encodeEntries records [] writing).mono fun _ d _ writing => ?_)
  refine Safe.bind (safe_onTmp trivial (Or.inl writing.before) fun n d' synced => ?_)
  obtain ⟨f, isTmp, holds⟩ := writing.tmp
  simp only [DiskState.perform, isTmp, holds, Option.map_some, Option.some.injEq, Prod.mk.injEq] at synced
  obtain ⟨-, rfl⟩ := synced
  have before : Before start (d.setTmp (some (.synced ⟨records, none⟩))) :=
    ⟨writing.before.snapshot, writing.before.segments⟩
  refine Safe.bind (safe_onTmp trivial (Or.inl before) fun n d' closed => ?_)
  obtain ⟨-, rfl⟩ := Prod.mk.inj (Option.some.inj closed)
  refine Safe.bind (safe_ask (Or.inl before) fun reply d' renamed => ?_)
  cases reply with
  | ok n =>
    obtain ⟨-, rfl⟩ := Prod.mk.inj (Option.some.inj renamed)
    have after : After start records { d with snapshot := some (.synced ⟨records, none⟩), tmp := none } :=
      ⟨rfl, fun i => (before.segments i).dropped⟩
    exact ⟨Or.inr after, fun _ _ => ⟨Or.inr after, after⟩⟩
  | error err =>
    obtain rfl : d' = _ := renamed
    refine ⟨Or.inl before, fun a never => ?_⟩
    cases never

/-- **Every state `Create` visits** has the files of the start, or the new snapshot
and what is left of the segments. -/
theorem safe_create {choose : Nat → Nat} {pool : Pool} {hm : ShardedMap}
    (all : encodeLoop choose pool hm.range = records) (flushed : start.Flushed) :
    Safe exec (Midway start records) (create choose pool hm) (fun _ _ => True) start := by
  have before : Before start start := ⟨rfl, fun i => ⟨rfl, rfl, flushed i⟩⟩
  refine Safe.bind ((safe_prepareLoop _ [] before).mono fun offsets d _ prepared => ?_)
  obtain ⟨before, rfl⟩ := prepared
  have recorded (i : Fin count) : offsetAt ([] ++ (List.finRange count).map
      fun i => ((start.segments i).opened.content.length : Int)) i = (start.segments i).opened.content.length := by
    simp [offsetAt]
  refine Safe.bind (safe_onTmp trivial (Or.inl before) fun n d' created => ?_)
  obtain ⟨-, rfl⟩ := Prod.mk.inj (Option.some.inj created)
  have writing : Writing start [] (d.setTmp (some (.written ⟨[], none⟩))) :=
    ⟨⟨before.snapshot, before.segments⟩, _, rfl, rfl⟩
  refine Safe.bind (Safe.orElse ((safe_writeSnapshot all writing).mono fun _ d _ after => ?_) fun err d midway =>
    Safe.bind ((safe_finish false midway).mono fun _ d _ midway => midway))
  refine Safe.bind (Safe.orElse ((safe_clearLoop _ recorded after).mono fun _ d _ after => ?_) fun err d midway =>
    Safe.bind ((safe_finish true midway).mono fun _ d _ midway => midway))
  exact (safe_finish true (Or.inr after)).mono fun _ _ _ _ => trivial

end Safety

/-! ## Completeness -/

section Completeness

open DiskState

variable {count : Nat} [Security] {hm : ShardedMap} {start d : DiskState count}

/-- An entry the encoder writes stands for its pair. -/
theorem entry_gobEncode (inv : hm.Inv hashFunc) {k : Key} {v : Value} (held : hm.cell hashFunc k = some v) :
    (gobDecode (gobEncode (.ofPair (k, v))) .zero).key = k ∧
      withItemHash (hashFunc k) (gobDecode (gobEncode (.ofPair (k, v))) .zero).toValue = v := by
  rw [(gobDecode_eq_iff released_zero).mpr (keeps_zero _)]
  refine ⟨rfl, ?_⟩
  have hash := inv.itemHash held
  obtain ⟨node, data, time, tomb, item⟩ := v
  exact congrArg (Value.mk node data time tomb) hash.symm

/-- A snapshot of the whole map has exactly the map's values. -/
theorem inSnapshot_range (inv : hm.Inv hashFunc) {files : Files count}
    (whole : files.snapshot = some ⟨hm.range.map fun p => gobEncode (.ofPair p), none⟩) {k : Key} {v : Value} :
    files.InSnapshot k v ↔ hm.cell hashFunc k = some v := by
  constructor
  · rintro ⟨file, isFile, r, member, key, stands⟩
    obtain rfl := Option.some.inj (whole.symm.trans isFile)
    obtain ⟨⟨k', v'⟩, listed, rfl⟩ := List.mem_map.mp member
    have held := inv.mem_range.mp listed
    obtain ⟨key', stands'⟩ := entry_gobEncode inv held
    obtain rfl := key'.symm.trans key
    rw [held, ← stands, stands']
  · intro held
    exact ⟨_, whole, _, List.mem_map.mpr ⟨(k, v), inv.mem_range.mpr held, rfl⟩, entry_gobEncode inv held⟩

variable [Proto]

theorem not_inFrame_nil {k : Key} {v : Value} : ¬ Files.InFrame [] k v := by
  rintro ⟨before, data, after, r, shape, -⟩
  have length := congrArg List.length shape
  rw [List.length_append, List.length_append, length_frame, List.length_nil] at length
  omega

/-- The frames of a log are its requests. -/
theorem inFrame_logBytes {log : List Request} (faithful : ∀ r ∈ log, Faithful r) {k : Key} {v : Value} :
    Files.InFrame (logBytes log) k v ↔ ∃ r ∈ log, r.key = k ∧ record r = v := by
  constructor
  · rintro ⟨before, data, after, r, shape, small, decodes, key, stands⟩
    have smallLog : ∀ p ∈ log.map payload, p.length < 2 ^ 32 := by
      intro p member
      obtain ⟨r', logged, rfl⟩ := List.mem_map.mp member
      exact (faithful r' logged).small
    obtain ⟨r', logged, rfl⟩ := List.mem_map.mp (mem_of_frames_eq smallLog small decodes.small shape)
    have reads := (faithful r' logged).unmarshal_eq
    rw [decodes.unmarshal_eq] at reads
    obtain rfl := Option.some.inj (Except.ok.inj reads)
    exact ⟨r, logged, key, stands⟩
  · rintro ⟨r, member, key, stands⟩
    obtain ⟨earlier, later, rfl⟩ := List.append_of_mem member
    refine ⟨earlier.map payload, payload r, logBytes later, r, ?_, fun p inside => ?_, (faithful r member).decodes, key,
      stands⟩
    · rw [logBytes_append, List.append_assoc]
      rfl
    · obtain ⟨r', logged, rfl⟩ := List.mem_map.mp inside
      exact (faithful r' (List.mem_append_left _ logged)).small

/-- A log of everything the map was made from is complete, with no snapshot. -/
theorem complete_of_logs {reqs : List Request} {logs : Fin count → List Request}
    (faithful : ∀ i, ∀ r ∈ logs i, Faithful r) (all : ∀ r, r ∈ reqs ↔ ∃ i, r ∈ logs i) (new : d.snapshot = none)
    (whole : ∀ i, (d.segments i).file = .synced (logBytes (logs i))) : d.Complete (mergeAll newShardedMap reqs) := by
  rintro ⟨snapshot, segments⟩ ⟨found, survives⟩ k v held
  have none : snapshot = none := by
    have found : Option.Rel Stored.Survives d.snapshot snapshot := found
    rw [new] at found
    cases found
    rfl
  have bytes (i : Fin count) : segments i = logBytes (logs i) := by
    have survives : (d.segments i).file.Survives (segments i) := survives i
    rwa [whole i, Stored.survives_synced] at survives
  have onDisk {v : Value} : Files.OnDisk ⟨snapshot, segments⟩ k v ↔ v ∈ offers reqs k := by
    simp only [Files.OnDisk, Files.InSnapshot, none, bytes, inFrame_logBytes (faithful _), mem_offers, all]
    simp only [Option.mem_def, reduceCtorEq, false_and, exists_false, false_or]
    grind
  have top := top_mergeAll reqs k
  rw [held] at top
  refine ⟨onDisk.mpr top.1, fun v' other => ?_⟩
  have below := top.2 v' (onDisk.mp other)
  exact Bool.eq_false_iff.mpr fun wins => absurd (lwwWins_iff.mp wins) (not_lt.mpr below)

/-- A snapshot of the whole map next to segments that are empty or were part of a
complete disk. -/
theorem Files.complete_of_whole (inv : hm.Inv hashFunc) {files : Files count}
    (whole : files.snapshot = some ⟨hm.range.map fun p => gobEncode (.ofPair p), none⟩)
    (segments : ∀ i, files.segments i = [] ∨ ∃ files' : Files count, files'.Complete hm ∧
      files'.segments i = files.segments i) : files.Complete hm := by
  intro k v held
  refine ⟨Or.inl ((inSnapshot_range inv whole).mpr held), ?_⟩
  rintro v' (listed | ⟨i, frame⟩)
  · obtain rfl := Option.some.inj (held.symm.trans ((inSnapshot_range inv whole).mp listed))
    exact lwwWins_self v
  · rcases segments i with empty | ⟨files', complete, same⟩
    · rw [empty] at frame
      exact absurd frame not_inFrame_nil
    · exact (complete k v held).2 v' (Or.inr ⟨i, same ▸ frame⟩)

namespace DiskState

omit [Security] [Proto] in
theorem Before.files_eq (before : Before start d) : d.files = start.files := by
  rw [files, files, before.snapshot, funext fun i => congrArg Stored.content (before.segments i).file]

omit [Security] [Proto] in
theorem Before.leaves (before : Before start d) {files : Files count} (leaves : d.Leaves files) :
    start.Leaves files := by
  refine ⟨before.snapshot ▸ leaves.snapshot, fun i => ?_⟩
  rw [← (before.segments i).file]
  exact leaves.segments i

variable (after : After start (hm.range.map fun p => gobEncode (.ofPair p)) d)

include after

theorem After.files_complete (inv : hm.Inv hashFunc) (complete : start.files.Complete hm) : d.files.Complete hm := by
  refine Files.complete_of_whole inv ?_ fun i => ?_
  · rw [files, after.snapshot]
    rfl
  · rcases (after.segments i).file with same | empty
    · exact Or.inr ⟨start.files, complete, congrArg Stored.content same.symm⟩
    · exact Or.inl (congrArg Stored.content empty)

/-- What is found in a segment could have been found in it at the start, next to the
contents of the other files. -/
theorem After.complete (inv : hm.Inv hashFunc) (complete : start.Complete hm) : d.Complete hm := by
  intro files leaves
  refine Files.complete_of_whole inv (leaves.snapshot_eq after.snapshot) fun i => ?_
  have survives := leaves.segments i
  rcases (after.segments i).file with same | empty
  · have found := start.leaves_files.setSegment (same ▸ survives)
    exact Or.inr ⟨_, complete _ found, Files.segments_setSegment_self ..⟩
  · rw [empty, Stored.survives_synced] at survives
    exact Or.inl survives

end DiskState

/-- **Crash and failure safety**: wherever `Create` stops, and whichever of its calls
fail, the files at the snapshot path and the segment paths are complete for the map when
they were before: as a reader finds them, and as they are found after the machine went
down. -/
theorem create_crash_safe (inv : hm.Inv hashFunc) (flushed : start.Flushed) (choose : Nat → Nat) (pool : Pool)
    (visits : Prog.Visits exec (create choose pool hm) start d) :
    (start.files.Complete hm → d.files.Complete hm) ∧ (start.Complete hm → d.Complete hm) := by
  rcases (safe_create (encodeLoop_eq choose pool hm.range) flushed).visits visits with before | after
  · refine ⟨fun complete => ?_, fun complete files leaves => complete files (before.leaves leaves)⟩
    rwa [before.files_eq]
  · exact ⟨after.files_complete inv, after.complete inv⟩

end Completeness

/-! Two records of one key in one segment and a record of another key in the other. -/

section Logged

open Reference Protobuf DiskState

def segmentLogs : Fin 2 → List Request
  | 0 => [.set ⟨[97], [1], 1, [110]⟩, .delete ⟨[97], 2, [110]⟩]
  | 1 => [.set ⟨[98], [3], 3, [110]⟩]

def loggedMap : ShardedMap := mergeAll newShardedMap (segmentLogs 0 ++ segmentLogs 1)

def loggedDisk : DiskState 2 where
  snapshot := none
  tmp := none
  segments i := ⟨.synced (logBytes (segmentLogs i)), none, 0, [], none⟩

/-- The whole run is one case: it ends with the map in the snapshot only. -/
theorem create_crash_safe_logged :
    loggedMap.Inv hashFunc ∧ loggedDisk.Flushed ∧ loggedDisk.Complete loggedMap ∧
      ∃ d, Prog.Visits exec (create (fun _ => 0) [] loggedMap) loggedDisk d ∧ d.snapshot ≠ none ∧
        (∀ i, (d.segments i).file.content = []) ∧ d.Complete loggedMap := by
  have inv : loggedMap.Inv hashFunc := inv_mergeAll (ShardedMap.inv_new hashFunc) _
  have flushed : loggedDisk.Flushed := fun _ => rfl
  have faithful : ∀ i, ∀ r ∈ segmentLogs i, Faithful r := by decide +kernel
  have complete : loggedDisk.Complete loggedMap :=
    complete_of_logs faithful (fun r => by rw [List.mem_append, Fin.exists_fin_two]) rfl fun _ => rfl
  obtain ⟨d, run, snapshot, views⟩ := run_create (fun _ => 0) [] loggedMap (d := loggedDisk) fun _ => rfl
  have visits : Prog.Visits exec (create (fun _ => 0) [] loggedMap) loggedDisk d :=
    Prog.visits_of_run (fun _ _ _ _ done => done) run
  refine ⟨inv, flushed, complete, d, visits, ?_, fun i => ?_, (create_crash_safe inv flushed _ _ visits).2 complete⟩
  · rw [snapshot]
    nofun
  · exact congrArg WalSegment.file ((views i).trans (WalSegment.clear_prepareSnapshot _))

end Logged

end Oryx.Snap
