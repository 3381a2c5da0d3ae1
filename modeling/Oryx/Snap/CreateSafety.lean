import Oryx.Snap.Ranging

/-!
# No acknowledged write is lost by a snapshot

The invariant of `Create` under concurrent writers. Each segment's log splits at
the recorded offset into what the snapshot is going to cover and what was `kept`
behind it; a key the `Range` has passed is in the new file, or its current record
was logged behind the offset, or is still waiting for its `Publish`.
-/

namespace Oryx.Snap
set_option autoImplicit false
open Oryx.Library Oryx.Hashmap Oryx.Writer Oryx.Core

/-- What `Create` knows about a segment. -/
inductive Mark where
  | unprepared
  | recorded (offset : Int)
  | cleared

def Mark.ofOffset (offset : Option Int) : Mark := offset.elim .unprepared .recorded

namespace CreatePc

def mark (i : Nat) : CreatePc → Mark
  | .idle => .unprepared
  | .preparing offsets => .ofOffset offsets[i]?
  | .ranging offsets _ _ _ => .ofOffset offsets[i]?
  | .clearing offsets next => if i < next then .cleared else .ofOffset offsets[i]?
  | .done => .cleared

/-- The keys `Range` has passed. -/
def Visited [Security] (k : Key) : CreatePc → Prop
  | .idle => False
  | .preparing _ => False
  | .ranging _ shard rest _ => (shardIndex (hashFunc k)).val < shard ∧ k ∉ rest.map Prod.fst
  | .clearing _ _ => True
  | .done => True

/-- The cells of the current copy that are still to be visited. -/
def unvisited : CreatePc → List (Key × Nat)
  | .ranging _ _ rest _ => rest
  | _ => []

/-- How many offsets there are: one per segment once all are recorded. -/
def Sized (count : Nat) : CreatePc → Prop
  | .preparing offsets => offsets.length ≤ count
  | .ranging offsets _ _ _ => offsets.length = count
  | .clearing offsets _ => offsets.length = count
  | _ => True

end CreatePc

/-- How a segment's log splits at its mark. -/
def Mark.Splits [Proto] (log kept : List Request) : Mark → Prop
  | .unprepared => True
  | .recorded offset => ∃ before, log = before ++ kept ∧ offset = (logBytes before).length
  | .cleared => log = kept

theorem Mark.Splits.append [Proto] {log kept : List Request} {mark : Mark} (splits : mark.Splits log kept)
    (more : List Request) : mark.Splits (log ++ more) (kept ++ more) := by
  cases mark with
  | unprepared => trivial
  | recorded offset =>
    obtain ⟨before, rfl, length⟩ := splits
    exact ⟨before, List.append_assoc _ _ _, length⟩
  | cleared =>
    have same : log = kept := splits
    exact congrArg (· ++ more) same

namespace Snapshotter

section Safety

variable {count : Nat} {C : Type}

@[simp] theorem wal_setWal (s : Snapshotter count C) (wal : EngineWal count) : (s.setWal wal).wal = wal := rfl

@[simp] theorem hm_setWal (s : Snapshotter count C) (wal : EngineWal count) : (s.setWal wal).hm = s.hm := rfl

/-- The records of the snapshot in the making, and of the finished one. -/
def taken (s : Snapshotter count C) : List GobRecord :=
  match s.pc with
  | .ranging _ _ _ tmp => tmp
  | _ => s.snapshot.records

variable [NeZero count] [Security] [Proto]

/-- A record that no step of `Create` can lose any more. -/
def Covered (kept : Fin count → List Request) (s : Snapshotter count C) (k : Key) (v : Value) : Prop :=
  gobEncode (.ofPair (k, v)) ∈ s.taken ∨
    ∃ r, (r ∈ kept (Wal.segmentOf k) ∨ r ∈ s.writers.pending) ∧ r.key = k ∧ record r = v

/-- **The invariant of `Create`**: `logs` is what the segments hold, `kept` the part
behind the recorded offsets. -/
structure Sound (logs kept : Fin count → List Request) (s : Snapshotter count C) : Prop where
  inv : s.hm.Inv hashFunc
  holds : ∃ w, s.wal = .wal w ∧ w.Holds logs
  faithful : ∀ r ∈ s.writers.pending, Faithful r
  splits : ∀ i : Fin count, (s.pc.mark i).Splits (logs i) (kept i)
  sized : s.pc.Sized count
  roots : ∀ p ∈ s.pc.unvisited, s.hm.dir hashFunc p.1 = some p.2
  covered : ∀ k v, s.pc.Visited k → s.hm.cell hashFunc k = some v → s.Covered kept k v

/-! ### Steps of the writers -/

section WriterSteps

variable [Clocker C] {logs kept : Fin count → List Request} {s : Snapshotter count C}

theorem Sound.store (sound : s.Sound logs kept) {r : Request} (faithful : Faithful r) :
    (s.step (.writer (.store r))).Sound logs kept := by
  refine ⟨inv_merge sound.inv r, sound.holds, ?_, sound.splits, sound.sized, ?_, ?_⟩
  · intro r' waiting
    rcases Writers.mem_pending_store.mp waiting with old | ⟨-, rfl⟩
    · exact sound.faithful r' old
    · exact faithful
  · exact fun p member => sound.inv.dir_storeLWW (sound.roots p member) r.toValue
  · intro k v visited held
    rcases cell_merge_cases sound.inv held with ⟨accepted, rfl, rfl⟩ | old
    · exact Or.inr ⟨r, Or.inr (Writers.mem_pending_store.mpr (Or.inr ⟨accepted, rfl⟩)), rfl, rfl⟩
    · refine (sound.covered k v visited old).imp_right ?_
      rintro ⟨r', written, key, same⟩
      exact ⟨r', written.imp_right fun waiting => Writers.mem_pending_store.mpr (Or.inl waiting), key, same⟩

omit [Proto] [Clocker C] in
/-- A request that was logged or waiting is so after one of them is logged. -/
theorem written_publish {i : Nat} {r : Request} (found : s.writers.pending[i]? = some r) {r' : Request}
    (written : r' ∈ logs (Wal.segmentOf r'.key) ∨ r' ∈ s.writers.pending) :
    r' ∈ Wal.logged logs r (Wal.segmentOf r'.key) ∨ r' ∈ s.writers.pending.eraseIdx i := by
  rcases written with old | waiting
  · exact Or.inl (Wal.mem_logged.mpr (Or.inl old))
  · have split : r' = r ∨ r' ∈ s.writers.pending.eraseIdx i := by
      obtain ⟨bound, rfl⟩ := List.getElem?_eq_some_iff.mp found
      rwa [← (List.getElem_cons_eraseIdx_perm bound).mem_iff, List.mem_cons] at waiting
    rcases split with rfl | rest
    · exact Or.inl (Wal.mem_logged.mpr (Or.inr ⟨rfl, rfl⟩))
    · exact Or.inr rest

theorem step_publish {i : Nat} {r : Request} (found : s.writers.pending[i]? = some r) :
    s.writers.step (.publish i) =
      s.writers.withSw (s.writers.eng.sw.publish (verb r) r).2 (s.writers.pending.eraseIdx i) := by
  simp [Writers.step, found]

theorem step_publish_none {i : Nat} (missing : s.writers.pending[i]? = none) : s.step (.writer (.publish i)) = s := by
  simp [step, Writers.step, missing]

theorem Sound.publish_logged (sound : s.Sound logs kept) {i : Nat} {r : Request}
    (found : s.writers.pending[i]? = some r) :
    (s.step (.writer (.publish i))).Sound (Wal.logged logs r) (Wal.logged kept r) := by
  obtain ⟨w, isWal, holds⟩ := sound.holds
  have isWal' : s.writers.eng.sw.wal = .wal w := isWal
  rw [step, step_publish found]
  refine ⟨sound.inv, ⟨_, ?_, holds.publish (sound.faithful r (List.mem_of_getElem? found))⟩, ?_, ?_, sound.sized,
    sound.roots, ?_⟩
  · simp only [wal, Writers.withSw, StorageWriter.publish, isWal']
    rfl
  · exact fun r' waiting => sound.faithful r' (List.mem_of_mem_eraseIdx waiting)
  · intro j
    by_cases here : j = Wal.segmentOf r.key
    · subst here
      simpa only [Wal.logged, Function.update_self] using (sound.splits (Wal.segmentOf r.key)).append [r]
    · simpa only [Wal.logged, Function.update_of_ne here] using sound.splits j
  · intro k v visited held
    refine (sound.covered k v visited held).imp_right ?_
    rintro ⟨r', written, rfl, same⟩
    exact ⟨r', written_publish found written, rfl, same⟩

theorem Sound.publish (sound : s.Sound logs kept) (i : Nat) :
    ∃ logs' kept', (s.step (.writer (.publish i))).Sound logs' kept' := by
  cases found : s.writers.pending[i]? with
  | none => exact ⟨logs, kept, by rwa [step_publish_none found]⟩
  | some r => exact ⟨_, _, sound.publish_logged found⟩

theorem Sound.sync (sound : s.Sound logs kept) (i : Fin count) : (s.step (.writer (.sync i))).Sound logs kept := by
  obtain ⟨w, isWal, holds⟩ := sound.holds
  have isWal' : s.writers.eng.sw.wal = .wal w := isWal
  refine ⟨sound.inv, ⟨w.sync i, ?_, holds.sync i⟩, sound.faithful, sound.splits, sound.sized, sound.roots, sound.covered⟩
  simp only [step, wal, Writers.step, Writers.withSw, isWal', EngineWal.sync]

end WriterSteps

/-! ### Steps of `Create` -/

section CreateSteps

variable {logs kept : Fin count → List Request} {s : Snapshotter count C}

omit [NeZero count] [Security] [Proto] in
theorem mark_ofOffset_append (offsets : List Int) (offset : Int) (i : Nat) :
    Mark.ofOffset (offsets ++ [offset])[i]? =
      if i = offsets.length then .recorded offset else Mark.ofOffset offsets[i]? := by
  by_cases here : i = offsets.length
  · simp [here, Mark.ofOffset]
  · rw [if_neg here, List.getElem?_append]
    split
    · rfl
    · rename_i past
      have out : offsets[i]? = none := List.getElem?_eq_none (Nat.not_lt.mp past)
      have out' : ([offset] : List Int)[i - offsets.length]? = none := List.getElem?_eq_none (by
        simp only [List.length_singleton]
        omega)
      rw [out, out']

/-- Recording a segment's length: everything it holds lies before the mark. -/
theorem Sound.prepare (sound : s.Sound logs kept) {offsets : List Int} (pc : s.pc = .preparing offsets) :
    ∃ kept', (s.prepareStep offsets).Sound logs kept' := by
  obtain ⟨w, isWal, holds⟩ := sound.holds
  have sized : offsets.length ≤ count := by simpa only [pc, CreatePc.Sized] using sound.sized
  by_cases more : offsets.length < count
  · let i : Fin count := ⟨offsets.length, more⟩
    refine ⟨Function.update kept i [], ?_⟩
    simp only [prepareStep, isWal, more, dif_pos]
    refine ⟨sound.inv, ⟨_, rfl, ?_⟩, sound.faithful, ?_, ?_, by simp [CreatePc.unvisited], ?_⟩
    · exact holds.sync i
    · intro j
      simp only [CreatePc.mark, mark_ofOffset_append]
      by_cases here : j = i
      · subst here
        rw [if_pos rfl]
        refine ⟨logs i, by simp, ?_⟩
        rw [WalSegment.prepareSnapshot, WalSegment.file_flush, holds.bytes]
      · have other : j.val ≠ offsets.length := fun same => here (Fin.ext same)
        rw [if_neg other, Function.update_of_ne here]
        simpa only [pc, CreatePc.mark] using sound.splits j
    · show (offsets ++ [_]).length ≤ count
      rw [List.length_append]
      exact more
    · exact fun k v visited => visited.elim
  · refine ⟨kept, ?_⟩
    simp only [prepareStep, isWal, more, dif_neg, not_false_eq_true]
    refine ⟨sound.inv, ⟨w, isWal, holds⟩, sound.faithful, ?_, ?_, by simp [CreatePc.unvisited], ?_⟩
    · simpa only [pc, CreatePc.mark] using sound.splits
    · exact le_antisymm sized (Nat.not_lt.mp more)
    · rintro k v ⟨none, -⟩
      exact absurd none (Nat.not_lt_zero _)

/-- The rest of the state does not move during a `Range` step. -/
theorem Sound.ranging (sound : s.Sound logs kept) {offsets : List Int} {shard : Nat} {rest : List (Key × Nat)}
    {tmp : List GobRecord} (pc : s.pc = .ranging offsets shard rest tmp) {shard' : Nat} {rest' : List (Key × Nat)}
    {tmp' : List GobRecord} (roots : ∀ p ∈ rest', s.hm.dir hashFunc p.1 = some p.2)
    (covered : ∀ k v, (shardIndex (hashFunc k)).val < shard' ∧ k ∉ rest'.map Prod.fst →
      s.hm.cell hashFunc k = some v → { s with pc := .ranging offsets shard' rest' tmp' }.Covered kept k v) :
    ({ s with pc := .ranging offsets shard' rest' tmp' } : Snapshotter count C).Sound logs kept := by
  refine ⟨sound.inv, sound.holds, sound.faithful, ?_, ?_, roots, covered⟩
  · simpa only [pc, CreatePc.mark] using sound.splits
  · simpa only [pc, CreatePc.Sized] using sound.sized

omit [Proto] in
/-- What was covered stays so while the new file grows. -/
theorem Covered.grow {offsets : List Int} {shard shard' : Nat} {rest rest' : List (Key × Nat)}
    {tmp tmp' : List GobRecord} (pc : s.pc = .ranging offsets shard rest tmp) (grows : ∀ record ∈ tmp, record ∈ tmp')
    {k : Key} {v : Value} (covered : s.Covered kept k v) :
    ({ s with pc := .ranging offsets shard' rest' tmp' } : Snapshotter count C).Covered kept k v := by
  refine covered.imp_left fun listed => ?_
  rw [taken, pc] at listed
  exact grows _ listed

theorem Sound.range (sound : s.Sound logs kept) {offsets : List Int} {shard : Nat} {rest : List (Key × Nat)}
    {tmp : List GobRecord} (pc : s.pc = .ranging offsets shard rest tmp) :
    (s.rangeStep offsets shard rest tmp).Sound logs kept := by
  have before {k : Key} {v : Value} (passed : (shardIndex (hashFunc k)).val < shard) (out : k ∉ rest.map Prod.fst)
      (held : s.hm.cell hashFunc k = some v) : s.Covered kept k v :=
    sound.covered k v (by rw [pc]; exact ⟨passed, out⟩) held
  have roots : ∀ p ∈ rest, s.hm.dir hashFunc p.1 = some p.2 := by
    simpa only [pc, CreatePc.unvisited] using sound.roots
  cases rest with
  | cons p rest =>
    -- one cell is read: what it holds now goes into the file
    obtain ⟨key, wrapper⟩ := p
    obtain ⟨here, later⟩ := List.forall_mem_cons.mp roots
    obtain ⟨val, inCell, held⟩ := sound.inv.cell_of_dir here
    simp only [rangeStep, inCell]
    refine sound.ranging pc later ?_
    rintro k v ⟨passed, out⟩ now
    by_cases this : k = key
    · subst this
      obtain rfl := Option.some.inj (held.symm.trans now)
      exact Or.inl (List.mem_append_right _ (List.mem_singleton_self _))
    · refine Covered.grow pc (fun record listed => List.mem_append_left _ listed) (before passed ?_ now)
      simp only [List.map_cons, List.mem_cons, not_or]
      exact ⟨this, out⟩
  | nil =>
    simp only [rangeStep]
    split
    · -- the roots of the next shard are copied: a key that is not under them has no record
      rename_i more
      refine sound.ranging pc (fun p member => ((mem_rootsOf sound.inv).mp member).1) ?_
      rintro k v ⟨passed, out⟩ now
      refine Covered.grow pc (fun record listed => listed) (before ?_ (by simp) now)
      refine lt_of_le_of_ne (Nat.lt_succ_iff.mp passed) fun same => out ?_
      obtain ⟨ref, found, -⟩ := Option.bind_eq_some_iff.mp now
      exact List.mem_map.mpr ⟨(k, ref), (mem_rootsOf sound.inv).mpr ⟨found, Fin.ext same⟩, rfl⟩
    · -- every shard is listed: the file takes its place
      rename_i all
      refine ⟨sound.inv, sound.holds, sound.faithful, ?_, ?_, by simp [CreatePc.unvisited], ?_⟩
      · simpa only [pc, CreatePc.mark, Nat.not_lt_zero, if_false] using sound.splits
      · simpa only [pc, CreatePc.Sized] using sound.sized
      · intro k v _ now
        refine (before (lt_of_lt_of_le (shardIndex (hashFunc k)).isLt (Nat.not_lt.mp all)) (by simp) now).imp_left ?_
        intro listed
        rw [taken, pc] at listed
        exact listed

/-- The split of a segment at its offset, and what `clear` then makes of it. -/
theorem Sound.clear_splits (sound : s.Sound logs kept) {offsets : List Int} {next : Nat}
    (pc : s.pc = .clearing offsets next) (more : next < count) {w : Wal count} (isWal : s.wal = .wal w)
    (safe : 0 < offsetAt offsets next ∨ (w.segments ⟨next, more⟩).bytes = []) :
    ∃ before, logs ⟨next, more⟩ = before ++ kept ⟨next, more⟩ ∧ offsetAt offsets next = (logBytes before).length ∧
      ((w.segments ⟨next, more⟩).clear (offsetAt offsets next)).bytes = logBytes (kept ⟨next, more⟩) := by
  obtain ⟨w', isWal', holds⟩ := sound.holds
  obtain rfl : w = w' := EngineWal.wal.inj (isWal.symm.trans isWal')
  have sized : offsets.length = count := by simpa only [pc, CreatePc.Sized] using sound.sized
  have bound : next < offsets.length := sized ▸ more
  have splits := sound.splits ⟨next, more⟩
  simp only [pc, CreatePc.mark, Nat.lt_irrefl, if_false, List.getElem?_eq_getElem bound] at splits
  obtain ⟨before, log, offset⟩ := splits
  have at_ : offsetAt offsets next = (logBytes before).length := by
    rw [offsetAt, List.getElem?_eq_getElem bound]
    exact offset
  have bytes := holds.bytes ⟨next, more⟩
  rw [log, logBytes_append] at bytes
  refine ⟨before, log, at_, ?_⟩
  rw [WalSegment.bytes_clear]
  rcases safe with pos | empty
  · rw [if_neg (not_le.mpr pos), bytes, at_, Int.toNat_natCast, List.drop_left]
  · rw [empty] at bytes
    obtain ⟨-, none⟩ := List.append_eq_nil_iff.mp bytes.symm
    rw [none, empty, List.drop_nil, ite_self]

theorem Sound.clear (sound : s.Sound logs kept) {offsets : List Int} {next : Nat} (pc : s.pc = .clearing offsets next)
    (safe : ∀ w, s.wal = .wal w → ∀ h : next < count,
      0 < offsetAt offsets next ∨ (w.segments ⟨next, h⟩).bytes = []) :
    ∃ logs', (s.clearStep offsets next).Sound logs' kept := by
  obtain ⟨w, isWal, holds⟩ := sound.holds
  have covered (k : Key) (v : Value) (held : s.hm.cell hashFunc k = some v) : s.Covered kept k v :=
    sound.covered k v (by rw [pc]; trivial) held
  simp only [Covered, taken, pc] at covered
  by_cases more : next < count
  · obtain ⟨before, log, -, bytes⟩ := sound.clear_splits pc more isWal (safe w isWal more)
    refine ⟨Function.update logs ⟨next, more⟩ (kept ⟨next, more⟩), ?_⟩
    simp only [clearStep, isWal, more, dif_pos]
    refine ⟨sound.inv, ⟨_, rfl, holds.truncate log bytes⟩, sound.faithful, ?_, ?_, by simp [CreatePc.unvisited],
      fun k v _ held => covered k v held⟩
    · intro j
      have splits := sound.splits j
      simp only [pc, CreatePc.mark] at splits ⊢
      by_cases here : j = ⟨next, more⟩
      · subst here
        rw [if_pos (Nat.lt_succ_self next), Function.update_self]
        rfl
      · have other : j.val ≠ next := fun same => here (Fin.ext same)
        have same : (j.val < next + 1) = (j.val < next) := by
          apply propext
          omega
        rw [Function.update_of_ne here]
        simpa only [same] using splits
    · simpa only [pc, CreatePc.Sized] using sound.sized
  · refine ⟨logs, ?_⟩
    simp only [clearStep, isWal, more, dif_neg, not_false_eq_true]
    refine ⟨sound.inv, ⟨w, isWal, holds⟩, sound.faithful, ?_, trivial, by simp [CreatePc.unvisited],
      fun k v _ held => covered k v held⟩
    intro j
    have splits := sound.splits j
    rw [pc, CreatePc.mark, if_pos (lt_of_lt_of_le j.isLt (Nat.not_lt.mp more))] at splits
    exact splits

end CreateSteps

/-! ### Runs -/

section Runs

variable [Clocker C] {logs kept : Fin count → List Request} {s : Snapshotter count C}

omit [Clocker C] in
/-- Nothing is asked of a `Create` that has recorded nothing yet. -/
theorem Sound.at_rest (sound : s.Sound logs kept) {pc : CreatePc} (rest : pc = .idle ∨ pc = .preparing []) :
    ({ s with pc := pc } : Snapshotter count C).Sound logs kept := by
  refine ⟨sound.inv, sound.holds, sound.faithful, fun i => ?_, ?_, ?_, ?_⟩
  · rcases rest with rfl | rfl <;> simp [CreatePc.mark, Mark.ofOffset, Mark.Splits]
  · rcases rest with rfl | rfl
    · trivial
    · exact Nat.zero_le count
  · rcases rest with rfl | rfl <;> simp [CreatePc.unvisited]
  · rcases rest with rfl | rfl <;> exact fun k v visited => visited.elim

omit [Clocker C] in
theorem Sound.create (sound : s.Sound logs kept) (safe : s.ClearSafe .create) :
    ∃ logs' kept', s.create.Sound logs' kept' := by
  cases pc : s.pc with
  | idle =>
    refine ⟨logs, kept, ?_⟩
    rw [Snapshotter.create, pc]
    exact sound.at_rest (Or.inr rfl)
  | preparing offsets =>
    obtain ⟨kept', next⟩ := sound.prepare pc
    exact ⟨logs, kept', by rwa [Snapshotter.create, pc]⟩
  | ranging offsets shard rest tmp => exact ⟨logs, kept, by rw [Snapshotter.create, pc]; exact sound.range pc⟩
  | clearing offsets next =>
    obtain ⟨logs', after⟩ := sound.clear pc fun w isWal => by
      simpa only [ClearSafe, pc, isWal] using safe
    exact ⟨logs', kept, by rwa [Snapshotter.create, pc]⟩
  | done => exact ⟨logs, kept, by rwa [Snapshotter.create, pc]⟩

theorem Sound.step (sound : s.Sound logs kept) {a : SnapAction count} (safe : s.ClearSafe a)
    (faithful : ∀ r, a = .writer (.store r) → Faithful r) : ∃ logs' kept', (s.step a).Sound logs' kept' := by
  cases a with
  | create => exact sound.create safe
  | writer a =>
    cases a with
    | store r => exact ⟨logs, kept, sound.store (faithful r rfl)⟩
    | publish i => exact sound.publish i
    | sync i => exact ⟨logs, kept, sound.sync i⟩

omit [Clocker C] in
theorem Sound.clearExact (sound : s.Sound logs kept) {a : SnapAction count} (safe : s.ClearSafe a) :
    s.ClearExact a := by
  cases a with
  | writer a => trivial
  | create =>
    simp only [ClearSafe, ClearExact] at safe ⊢
    split
    · rename_i offsets next w pc isWal
      simp only [pc, isWal] at safe
      intro more
      obtain ⟨before, log, offset, bytes⟩ := sound.clear_splits pc more isWal (safe more)
      obtain ⟨w', isWal', holds⟩ := sound.holds
      obtain rfl : w = w' := EngineWal.wal.inj (isWal.symm.trans isWal')
      let cleared := (w.segments ⟨next, more⟩).clear (offsetAt offsets next)
      refine ⟨{ w with segments := Function.update w.segments ⟨next, more⟩ cleared }, before, kept ⟨next, more⟩, ?_,
        by rw [holds.bytes, log], offset, ?_, fun j other => ?_⟩
      · rw [Snapshotter.create, pc]
        simp only [clearStep, isWal, more, dif_pos]
        rfl
      · simpa only [Function.update_self] using bytes
      · simp only [Function.update_of_ne other]
    · trivial

omit [Clocker C] in
/-- Once `Create` is done and no writer is waiting, everything is on disk. -/
theorem Sound.onDisk (sound : s.Sound logs kept) (done : s.pc = .done) (returned : s.writers.pending = [])
    {k : Key} {v : Value} (held : s.hm.cell hashFunc k = some v) : s.OnDisk k v := by
  rcases sound.covered k v (by rw [done]; trivial) held with listed | ⟨r, written, key, same⟩
  · rw [taken, done] at listed
    exact Or.inl listed
  · obtain ⟨w, isWal, holds⟩ := sound.holds
    have whole : logs (Wal.segmentOf k) = kept (Wal.segmentOf k) := by
      have splits := sound.splits (Wal.segmentOf k)
      rw [done] at splits
      exact splits
    refine Or.inr ⟨w, kept (Wal.segmentOf k), isWal, by rw [holds.bytes, whole], r, ?_, key, same⟩
    rcases written with logged | waiting
    · exact logged
    · rw [returned] at waiting
      cases waiting

/-- **Snapshots under load**: in every run in which no `Clear` meets a zero offset
on a segment that is not empty, each `Clear` removes exactly the recorded bytes,
and once `Create` and all writers have returned every record is in the snapshot
file or in its segment. What was on disk before plays no part. -/
theorem create_keeps_writes (inv : s.hm.Inv hashFunc) {w : Wal count} (isWal : s.wal = .wal w) (holds : w.Holds logs)
    (idle : s.pc = .idle) (waiting : ∀ r ∈ s.writers.pending, Faithful r) {actions : List (SnapAction count)}
    (faithful : ∀ r, .writer (.store r) ∈ actions → Faithful r)
    (safe : Along Snapshotter.step ClearSafe s actions) :
    Along Snapshotter.step ClearExact s actions ∧
      ((runFrom Snapshotter.step s actions).pc = .done → (runFrom Snapshotter.step s actions).writers.pending = [] →
        ∀ k v, (runFrom Snapshotter.step s actions).hm.loadCell k (hashFunc k) = some v →
          (runFrom Snapshotter.step s actions).OnDisk k v) := by
  have start : ∃ logs kept, s.Sound logs kept := by
    refine ⟨logs, fun _ => [], inv, ⟨w, isWal, holds⟩, waiting, fun i => ?_, ?_, ?_, fun k v visited => ?_⟩
    · rw [idle]
      trivial
    · rw [idle]
      trivial
    · simp [idle, CreatePc.unvisited]
    · rw [idle] at visited
      exact visited.elim
  have along := safe.and_mem (Q := fun a => ∀ r, a = .writer (.store r) → Faithful r)
    fun a member r same => faithful r (same ▸ member)
  constructor
  · exact along.imp (I := fun t => ∃ logs kept, t.Sound logs kept)
      (fun t a ⟨_, _, sound⟩ here => sound.step here.1 here.2)
      (fun t a ⟨_, _, sound⟩ here => sound.clearExact here.1) start
  · intro done returned k v held
    obtain ⟨logs, kept, sound⟩ := along.invariant (I := fun _ t => ∃ logs kept, t.Sound logs kept) start
      fun _ t a ⟨_, _, sound⟩ here => sound.step here.1 here.2
    rw [sound.inv.loadCell_eq] at held
    exact sound.onDisk done returned held

end Runs

end Safety

open Reference Protobuf

/-- A new engine whose snapshotter has not been called. -/
def fresh : Snapshotter 1 MockStorageClock :=
  ⟨Writers.start ⟨"oryx.snp", 4096, [110], false, false⟩ (MockStorageClock.mk 0) .plain, .idle, ⟨[], none⟩⟩

/-- A write before `Create`, one after every shard was listed. -/
def underLoad : List (SnapAction 1) :=
  [.writer (.store (.set ⟨[97], [1], 1, [110]⟩)), .writer (.publish 0)] ++ List.replicate 132 .create ++
    [.writer (.store (.set ⟨[98], [2], 2, [110]⟩)), .writer (.publish 0)] ++ List.replicate 3 .create

/-- The same run without the first write: the segment is empty when its length is recorded. -/
def onEmptyLog : List (SnapAction 1) :=
  List.replicate 131 .create ++ [.writer (.store (.set ⟨[98], [2], 2, [110]⟩)), .writer (.publish 0)] ++
    List.replicate 3 .create

theorem create_keeps_writes_underLoad :
    (runFrom step fresh underLoad).OnDisk [98] (record (.set ⟨[98], [2], 2, [110]⟩)) := by
  have inv : fresh.hm.Inv hashFunc := (Writers.tracked_start (by decide) (MockStorageClock.mk 0) .plain).inv
  have holds : (newWal (fun _ => []) 4096 1).Holds fun _ => [] := ⟨fun _ => rfl, by simp, by simp⟩
  have faithful : ∀ r, SnapAction.writer (.store r) ∈ underLoad → Faithful r := by
    intro r member
    simp only [underLoad, List.mem_append, List.mem_cons, List.mem_replicate, SnapAction.writer.injEq,
      WriterAction.store.injEq, reduceCtorEq, and_false, or_false, List.not_mem_nil] at member
    rcases member with rfl | rfl <;> decide +kernel
  obtain ⟨done, returned, held⟩ : (runFrom step fresh underLoad).pc = .done ∧
      (runFrom step fresh underLoad).writers.pending = [] ∧
      (runFrom step fresh underLoad).hm.loadCell [98] (hashFunc [98]) = some (record (.set ⟨[98], [2], 2, [110]⟩)) := by
    decide +kernel
  exact (create_keeps_writes inv rfl holds rfl (by simp [fresh, Writers.start]) faithful (by decide +kernel)).2
    done returned _ _ held

/-- The write is acknowledged and in memory, but neither in the file nor in the log. -/
theorem create_loses_write :
    (runFrom step fresh onEmptyLog).pc = .done ∧ (runFrom step fresh onEmptyLog).writers.pending = [] ∧
      (runFrom step fresh onEmptyLog).hm.loadCell [98] (hashFunc [98]) = some (record (.set ⟨[98], [2], 2, [110]⟩)) ∧
      ¬ (runFrom step fresh onEmptyLog).OnDisk [98] (record (.set ⟨[98], [2], 2, [110]⟩)) := by
  obtain ⟨done, returned, held, unlisted, emptied⟩ : (runFrom step fresh onEmptyLog).pc = .done ∧
      (runFrom step fresh onEmptyLog).writers.pending = [] ∧
      (runFrom step fresh onEmptyLog).hm.loadCell [98] (hashFunc [98]) =
        some (record (.set ⟨[98], [2], 2, [110]⟩)) ∧
      (runFrom step fresh onEmptyLog).snapshot.records = [] ∧
      (runFrom step fresh onEmptyLog).wal.bytes 0 = [] := by
    decide +kernel
  refine ⟨done, returned, held, ?_⟩
  rintro (listed | ⟨w, log, isWal, bytes, r, member, -⟩)
  · rw [unlisted] at listed
    cases listed
  · rw [isWal] at emptied
    have none : logBytes log = [] := by
      rw [← bytes, Subsingleton.elim (Wal.segmentOf [98]) (0 : Fin 1)]
      exact emptied
    have short := length_le_logBytes log
    rw [none, List.length_nil, Nat.le_zero, List.length_eq_zero_iff] at short
    rw [short] at member
    cases member

end Snapshotter

end Oryx.Snap
