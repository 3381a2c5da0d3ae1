import Oryx.Hashmap.PlainMap
import Oryx.Snap.Create

/-!
# `Range` under load

One `Range` whose callback never stops it, interleaved with any writers. It copies the roots of a
shard under the shard's lock and then visits the copied trees without it: each entry's cell is
loaded when its turn comes. An update of a known key goes into the cell that the copy refers to; a
key that is deleted keeps its last record in that cell, and one that is inserted again gets a
cell the copy does not see. So a cell of the copy only ever holds records its key had after the
copy (`Traced`).
-/

namespace Oryx.Snap
set_option autoImplicit false
open Oryx.Library Oryx.Hashmap

/-- A map under a `Range` that has copied the roots of `shard` shards, has `rest` of the last copy
to visit, and has called back with `reported`. -/
structure Ranging where
  hm : ShardedMap
  shard : Nat
  rest : List (Key × Nat)
  reported : List (Key × Value)

inductive RangeAction where
  /-- another goroutine makes a call -/
  | write (op : Hashmap.Op)
  /-- `Range` takes its next step -/
  | range

namespace Ranging

def start (hm : ShardedMap) : Ranging := ⟨hm, 0, [], []⟩

/-- One step of `Range`: an entry of the copy, or the copy of the next shard's roots. -/
def next (s : Ranging) : Ranging :=
  match s.rest with
  | (key, wrapper) :: rest =>
    match s.hm.wrappers[wrapper]? with
    | none => { s with rest := rest }
    | some val => { s with rest := rest, reported := s.reported ++ [(key, val)] }
  | [] =>
    if h : s.shard < shardCount then { s with shard := s.shard + 1, rest := rootsOf s.hm ⟨s.shard, h⟩ }
    else s

/-- `Range` has returned. -/
def Ended (s : Ranging) : Prop := s.shard = shardCount ∧ s.rest = []

def step [Security] (s : Ranging) : RangeAction → Ranging
  | .write op => { s with hm := s.hm.apply op }
  | .range => s.next

end Ranging

/-- The `Range` of the snapshotter is this one, with every entry encoded as it is reported. -/
theorem Snapshotter.rangeStep_eq {count : Nat} {C : Type} (s : Snapshotter count C) (offsets : List Int) (shard : Nat)
    (rest : List (Key × Nat)) (reported : List (Key × Value)) (more : rest ≠ [] ∨ shard < shardCount) :
    let encode := List.map fun p => gobEncode (.ofPair p)
    let next := (Ranging.mk s.hm shard rest reported).next
    s.rangeStep offsets shard rest (encode reported) =
      { s with pc := .ranging offsets next.shard next.rest (encode next.reported) } := by
  cases rest with
  | nil =>
    have inside : shard < shardCount := more.resolve_left fun filled => filled rfl
    simp [rangeStep, Ranging.next, inside]
  | cons p rest => cases held : s.hm.wrappers[p.2]? <;> simp [rangeStep, Ranging.next, held]

section Cells

variable [Security] {h : Key → HashKey} {sm sm' : ShardedMap} {r : Nat}

/-! ## What a write does to a cell -/

/-- A write to `key` leaves a cell to the keys that had it, and changes its record only when it
is the cell of `key`. -/
structure KeepsCell (h : Key → HashKey) (key : Key) (r : Nat) (sm sm' : ShardedMap) : Prop where
  owners : ∀ k, sm'.dir h k = some r → sm.dir h k = some r
  content : sm'.wrappers[r]? = sm.wrappers[r]? ∨ sm'.dir h key = some r

omit [Security] in
theorem keepsCell_put (bound : r < sm.wrappers.length) (key : Key) (val : Value) :
    KeepsCell h key r sm (sm.put key (h key) val) := by
  cases found : sm.dir h key with
  | none =>
    rw [ShardedMap.put_of_absent found]
    refine ⟨fun k owns => ?_, Or.inl (List.getElem?_append_left bound)⟩
    rw [ShardedMap.dir_insert] at owns
    split at owns
    · have fresh : sm.wrappers.length = r := Option.some.inj owns
      omega
    · exact owns
  | some r' =>
    rw [ShardedMap.put_of_dir found]
    refine ⟨fun k owns => by rwa [ShardedMap.dir_swap] at owns, ?_⟩
    by_cases same : r' = r
    · rw [ShardedMap.dir_swap, found, same]
      exact Or.inr rfl
    · exact Or.inl (List.getElem?_set_ne same)

omit [Security] in
theorem keepsCell_delete (key : Key) : KeepsCell h key r sm (sm.delete key (h key)) := by
  refine ⟨fun k owns => ?_, Or.inl (by rw [ShardedMap.wrappers_delete])⟩
  cases found : sm.dir h key with
  | none =>
    have absent : ((sm.shards (shardIndex (h key))).buckets (subIndex (h key)))[key]? = none := found
    have same : sm.delete key (h key) = sm := by simp only [ShardedMap.delete, absent]
    rwa [same] at owns
  | some r' =>
    rw [ShardedMap.dir_delete found] at owns
    split at owns
    · cases owns
    · exact owns

theorem keepsCell_apply (inv : sm.Inv h) {op : Hashmap.Op} (consistent : op.hash = h op.key)
    (bound : r < sm.wrappers.length) : KeepsCell h op.key r sm (sm.apply op) := by
  cases op with
  | store key hash val =>
    obtain rfl : hash = h key := consistent
    exact keepsCell_put bound key _
  | storeLWW key hash val =>
    obtain rfl : hash = h key := consistent
    rw [ShardedMap.apply, inv.storeLWW_eq]
    split
    · exact keepsCell_put bound key _
    · exact ⟨fun _ owns => owns, Or.inl rfl⟩
  | delete key hash =>
    obtain rfl : hash = h key := consistent
    exact keepsCell_delete key

/-! ## The copied roots -/

theorem mem_rootsOf (inv : sm.Inv h) {i : Fin shardCount} {p : Key × Nat} :
    p ∈ rootsOf sm i ↔ sm.dir h p.1 = some p.2 ∧ shardIndex (h p.1) = i := by
  obtain ⟨k, ref⟩ := p
  simp only [rootsOf, List.mem_flatMap, List.mem_finRange, true_and, Std.TreeMap.mem_toList_iff_getElem?_eq_some]
  constructor
  · rintro ⟨b, found⟩
    exact ⟨inv.dir_of_tree found, (inv.placed found).1⟩
  · rintro ⟨found, rfl⟩
    exact ⟨_, found⟩

theorem nodup_rootsOf (inv : sm.Inv h) (i : Fin shardCount) : ((rootsOf sm i).map Prod.fst).Nodup := by
  rw [rootsOf, List.map_flatMap]
  refine List.nodup_flatMap.mpr ⟨fun b _ => nodup_keys_toList _, ?_⟩
  have inBucket {b : Fin subBucketCount} {k : Key}
      (member : k ∈ ((sm.shards i).buckets b).toList.map Prod.fst) : subIndex (h k) = b := by
    obtain ⟨⟨k, r⟩, pair, rfl⟩ := List.mem_map.mp member
    exact (inv.placed (Std.TreeMap.mem_toList_iff_getElem?_eq_some.mp pair)).2
  refine (List.nodup_finRange _).imp fun {b c} different k hb hc => different ?_
  exact (inBucket hb).symm.trans (inBucket hc)

end Cells

/-! ## The run -/

namespace Ranging

section Run

variable [Security]

/-- The map and its `Range` after some actions. -/
def moment (hm : ShardedMap) (actions : List RangeAction) : Ranging := runFrom step (start hm) actions

theorem moment_snoc (hm : ShardedMap) (past : List RangeAction) (a : RangeAction) :
    moment hm (past ++ [a]) = (moment hm past).step a := runFrom_snoc ..

/-- `v` was the record of `k` at a moment of the run, with the roots of its shard copied. -/
def Seen (h : Key → HashKey) (hm : ShardedMap) (past : List RangeAction) (k : Key) (v : Value) : Prop :=
  ∃ p, p <+: past ∧ (shardIndex (h k)).val < (moment hm p).shard ∧ (moment hm p).hm.cell h k = some v

/-- The entry of the copy has a cell that is no other key's, and the cell holds a record its key
had after the copy. -/
structure Traced (h : Key → HashKey) (hm : ShardedMap) (past : List RangeAction) (entry : Key × Nat) : Prop where
  own : ∀ k, (moment hm past).hm.dir h k = some entry.2 → k = entry.1
  holds : ∃ v, (moment hm past).hm.wrappers[entry.2]? = some v ∧ Seen h hm past entry.1 v

/-- A step of `Range` has reported the entry, with a record of its key seen by then. -/
def Listed (h : Key → HashKey) (hm : ShardedMap) (past : List RangeAction) (entry : Key × Value) : Prop :=
  ∃ q, q ++ [.range] <+: past ∧ (moment hm (q ++ [.range])).reported = (moment hm q).reported ++ [entry] ∧
    Seen h hm q entry.1 entry.2

/-- The key has had a record at every moment of the run. -/
def Present (h : Key → HashKey) (hm : ShardedMap) (past : List RangeAction) (k : Key) : Prop :=
  ∀ p, p <+: past → (moment hm p).hm.cell h k ≠ none

/-- The keys reported and still to be reported. -/
def keys (s : Ranging) : List Key := s.reported.map Prod.fst ++ s.rest.map Prod.fst

structure Follows (h : Key → HashKey) (hm : ShardedMap) (past : List RangeAction) : Prop where
  inv : (moment hm past).hm.Inv h
  apart : (moment hm past).keys.Nodup
  copied : ∀ k ∈ (moment hm past).keys, (shardIndex (h k)).val < (moment hm past).shard
  cells : ∀ entry ∈ (moment hm past).rest, Traced h hm past entry
  listed : ∀ entry ∈ (moment hm past).reported, Listed h hm past entry
  complete : ∀ k, Present h hm past k → (shardIndex (h k)).val < (moment hm past).shard → k ∈ (moment hm past).keys

variable {h : Key → HashKey} {hm : ShardedMap} {past longer : List RangeAction} {k : Key} {v : Value}

theorem Seen.mono (seen : Seen h hm past k v) (grown : past <+: longer) : Seen h hm longer k v := by
  obtain ⟨p, within, copied, held⟩ := seen
  exact ⟨p, within.trans grown, copied, held⟩

theorem Listed.mono {entry : Key × Value} (listed : Listed h hm past entry) (grown : past <+: longer) :
    Listed h hm longer entry := by
  obtain ⟨q, within, reports, seen⟩ := listed
  exact ⟨q, within.trans grown, reports, seen⟩

theorem Present.of_prefix (present : Present h hm longer k) (grown : past <+: longer) : Present h hm past k :=
  fun p within => present p (within.trans grown)

theorem follows_start (inv : hm.Inv h) : Follows h hm [] where
  inv := inv
  apart := List.nodup_nil
  copied := nofun
  cells := nofun
  listed := nofun
  complete _ _ none := absurd none (Nat.not_lt_zero _)

/-- A step that leaves the shard, and the keys of the copy and of the report together, as they are. -/
theorem Follows.grow (follows : Follows h hm past) (grown : past <+: longer)
    (keys : (moment hm longer).keys = (moment hm past).keys)
    (shard : (moment hm longer).shard = (moment hm past).shard) (inv : (moment hm longer).hm.Inv h)
    (cells : ∀ entry ∈ (moment hm longer).rest, Traced h hm longer entry)
    (listed : ∀ entry ∈ (moment hm longer).reported, Listed h hm longer entry) : Follows h hm longer where
  inv := inv
  apart := by
    rw [keys]
    exact follows.apart
  copied := by
    rw [keys, shard]
    exact follows.copied
  cells := cells
  listed := listed
  complete k present := by
    rw [keys, shard]
    exact follows.complete k (present.of_prefix grown)

/-- **A write** of another goroutine. -/
theorem Follows.write (follows : Follows h hm past) {op : Hashmap.Op} (consistent : op.hash = h op.key) :
    Follows h hm (past ++ [.write op]) := by
  have grown : past <+: past ++ [.write op] := List.prefix_append ..
  have now : moment hm (past ++ [.write op]) =
      { moment hm past with hm := (moment hm past).hm.apply op } := moment_snoc ..
  refine follows.grow grown ?keys ?shard ?inv ?cells ?listed
  case keys =>
    rw [now]
    rfl
  case shard => rw [now]
  case inv =>
    rw [now]
    exact follows.inv.apply consistent
  case cells =>
    rw [now]
    intro entry member
    obtain ⟨own, v, held, seen⟩ := follows.cells entry member
    have bound : entry.2 < (moment hm past).hm.wrappers.length := (List.getElem?_eq_some_iff.mp held).1
    have keeps := keepsCell_apply follows.inv consistent bound
    refine ⟨fun k owns => own k (keeps.owners k (by rwa [now] at owns)), ?_⟩
    rw [now]
    rcases keeps.content with same | mine
    · exact ⟨v, same.trans held, seen.mono grown⟩
    · -- the write went into this cell, so it is the entry's key that was written
      have key : op.key = entry.1 := own op.key (keeps.owners op.key mine)
      obtain ⟨v', inCell, current⟩ := (follows.inv.apply consistent).cell_of_dir mine
      refine ⟨v', inCell, _, List.prefix_rfl, ?_, ?_⟩
      · rw [now]
        exact follows.copied _ (List.mem_append_right _ (List.mem_map_of_mem member))
      · rw [now, ← key]
        exact current
  case listed =>
    rw [now]
    exact fun entry member => (follows.listed entry member).mono grown

omit [Security] in
/-- The map does not move in a step of `Range`. -/
theorem hm_next (s : Ranging) : s.next.hm = s.hm := by
  unfold next
  split
  · split <;> rfl
  · split <;> rfl

theorem Traced.range {entry : Key × Nat} (traced : Traced h hm past entry) :
    Traced h hm (past ++ [.range]) entry := by
  have same : (moment hm (past ++ [.range])).hm = (moment hm past).hm := by
    rw [moment_snoc]
    exact hm_next _
  obtain ⟨own, v, held, seen⟩ := traced
  refine ⟨?_, v, ?_, seen.mono (List.prefix_append ..)⟩
  · rw [same]
    exact own
  · rw [same]
    exact held

/-- **An entry** of the copy is visited. -/
theorem Follows.visit (follows : Follows h hm past) {entry : Key × Nat} {rest : List (Key × Nat)}
    (left : (moment hm past).rest = entry :: rest) : Follows h hm (past ++ [.range]) := by
  have grown : past <+: past ++ [.range] := List.prefix_append ..
  obtain ⟨own, v, held, seen⟩ := follows.cells entry (by rw [left]; exact List.mem_cons_self)
  have now : moment hm (past ++ [.range]) =
      { moment hm past with rest := rest, reported := (moment hm past).reported ++ [(entry.1, v)] } := by
    rw [moment_snoc]
    simp only [step, next, left, held]
  have keys : (moment hm (past ++ [.range])).keys = (moment hm past).keys := by
    simp [now, Ranging.keys, left]
  refine follows.grow grown keys ?shard ?inv ?cells ?listed
  case shard => rw [now]
  case inv =>
    rw [now]
    exact follows.inv
  case cells =>
    intro other member
    rw [now] at member
    exact (follows.cells other (by rw [left]; exact List.mem_cons_of_mem _ member)).range
  case listed =>
    intro other member
    rw [now] at member
    rcases List.mem_append.mp member with old | new
    · exact (follows.listed other old).mono grown
    · rw [List.mem_singleton.mp new]
      exact ⟨past, List.prefix_rfl, by rw [now], seen⟩

/-- **The roots of the next shard** are copied. -/
theorem Follows.copy (follows : Follows h hm past) (left : (moment hm past).rest = [])
    (more : (moment hm past).shard < shardCount) : Follows h hm (past ++ [.range]) := by
  have grown : past <+: past ++ [.range] := List.prefix_append ..
  have inv := follows.inv
  have now : moment hm (past ++ [.range]) =
      { moment hm past with
        shard := (moment hm past).shard + 1
        rest := rootsOf (moment hm past).hm ⟨(moment hm past).shard, more⟩ } := by
    rw [moment_snoc]
    simp only [step, next, left, dif_pos more]
  have reported : (moment hm past).keys = (moment hm past).reported.map Prod.fst := by
    simp [Ranging.keys, left]
  have keys : (moment hm (past ++ [.range])).keys =
      (moment hm past).keys ++ (rootsOf (moment hm past).hm ⟨(moment hm past).shard, more⟩).map Prod.fst := by
    rw [reported, now]
    rfl
  have placed {k : Key}
      (member : k ∈ (rootsOf (moment hm past).hm ⟨(moment hm past).shard, more⟩).map Prod.fst) :
      (shardIndex (h k)).val = (moment hm past).shard := by
    obtain ⟨entry, copied, rfl⟩ := List.mem_map.mp member
    rw [((mem_rootsOf inv).mp copied).2]
  constructor
  case inv =>
    rw [now]
    exact inv
  case apart =>
    rw [keys]
    refine List.nodup_append.mpr ⟨follows.apart, nodup_rootsOf inv _, ?_⟩
    rintro k old _ new rfl
    have before := follows.copied k old
    have here := placed new
    omega
  case copied =>
    intro k member
    rw [keys] at member
    rw [now]
    rcases List.mem_append.mp member with old | new
    · exact Nat.lt_succ_of_lt (follows.copied k old)
    · exact Nat.lt_succ_of_le (placed new).le
  case cells =>
    intro entry member
    rw [now] at member
    have found := ((mem_rootsOf inv).mp member).1
    obtain ⟨v, inCell, current⟩ := inv.cell_of_dir found
    refine ⟨?_, ?_⟩
    · rw [now]
      exact fun k owns => inv.apart owns found
    · rw [now]
      refine ⟨v, inCell, _, List.prefix_rfl, ?_, ?_⟩
      · rw [now]
        exact Nat.lt_succ_of_le (placed (List.mem_map_of_mem member)).le
      · rw [now]
        exact current
  case listed =>
    rw [now]
    exact fun entry member => (follows.listed entry member).mono grown
  case complete =>
    intro k present copied
    rw [now] at copied
    rw [keys, List.mem_append]
    rcases Nat.lt_succ_iff_lt_or_eq.mp copied with old | here
    · exact Or.inl (follows.complete k (present.of_prefix grown) old)
    · -- the key has a record now, so it is in the tree that is copied
      cases found : (moment hm past).hm.dir h k with
      | none => exact absurd ((ShardedMap.cell_eq_none inv).mpr found) (present past grown)
      | some r => exact Or.inr (List.mem_map.mpr ⟨(k, r), (mem_rootsOf inv).mpr ⟨found, Fin.ext here⟩, rfl⟩)

/-- A step of `Range`. -/
theorem Follows.range (follows : Follows h hm past) : Follows h hm (past ++ [.range]) := by
  cases left : (moment hm past).rest with
  | cons entry rest => exact follows.visit left
  | nil =>
    by_cases more : (moment hm past).shard < shardCount
    · exact follows.copy left more
    · -- it has returned already
      have grown : past <+: past ++ [.range] := List.prefix_append ..
      have now : moment hm (past ++ [.range]) = moment hm past := by
        rw [moment_snoc]
        simp only [step, next, left, dif_neg more]
      refine follows.grow grown (by rw [now]) (by rw [now]) ?_ ?_ ?_
      · rw [now]
        exact follows.inv
      · rw [now]
        exact fun entry member => (follows.cells entry member).range
      · rw [now]
        exact fun entry member => (follows.listed entry member).mono grown

/-- **The whole run.** -/
theorem follows_moment (inv : hm.Inv h) (actions : List RangeAction)
    (consistent : ∀ op, .write op ∈ actions → op.hash = h op.key) : Follows h hm actions := by
  induction actions using List.reverseRecOn with
  | nil => exact follows_start inv
  | append_singleton past a ih =>
    have before := ih fun op member => consistent op (List.mem_append_left _ member)
    cases a with
    | write op => exact before.write (consistent op (List.mem_append_right _ (List.mem_singleton_self _)))
    | range => exact before.range

/-- A key that only `StoreLWW` writes to keeps its record or gets one that beats it. -/
theorem recent_of_lww (inv : hm.Inv h) {actions : List RangeAction}
    (consistent : ∀ op, .write op ∈ actions → op.hash = h op.key)
    (only : ∀ op, .write op ∈ actions → op.key = k → ∃ hash val, op = .storeLWW k hash val) {v₀ : Value}
    (first : hm.cell h k = some v₀) :
    ∃ v, (moment hm actions).hm.cell h k = some v ∧ (v = v₀ ∨ lwwWins v₀ v = true) := by
  induction actions using List.reverseRecOn with
  | nil => exact ⟨v₀, first, Or.inl rfl⟩
  | append_singleton past a ih =>
    have earlier : ∀ op, .write op ∈ past → .write op ∈ past ++ [a] := fun op member => List.mem_append_left _ member
    have follows := follows_moment inv past fun op member => consistent op (earlier op member)
    obtain ⟨v, held, recent⟩ := ih (fun op member => consistent op (earlier op member))
      fun op member => only op (earlier op member)
    rw [moment_snoc]
    cases a with
    | range =>
      refine ⟨v, ?_, recent⟩
      rw [step, hm_next]
      exact held
    | write op =>
      have here : RangeAction.write op ∈ past ++ [.write op] := List.mem_append_right _ (List.mem_singleton_self _)
      rw [step, follows.inv.cell_apply (consistent op here)]
      by_cases mine : op.key = k
      · obtain ⟨hash, val, rfl⟩ := only op here mine
        rw [Hashmap.Op.onPlain, held]
        split
        · rename_i wins
          refine ⟨_, Function.update_self .., Or.inr ?_⟩
          rcases recent with rfl | beats
          · exact wins
          · exact lwwWins_iff.mpr ((lwwWins_iff.mp beats).trans (lwwWins_iff.mp wins))
        · exact ⟨v, held, recent⟩
      · refine ⟨v, ?_, recent⟩
        rw [Hashmap.Op.onPlain_of_ne _ (Ne.symm mine)]
        exact held

/-- **`Range` is weakly consistent**, whatever writes go on around it on a map with any history.
No key is reported twice. A reported record was its key's at a moment between the copy of the
roots of its shard and the callback. A key that has a record throughout is reported exactly once
by the time `Range` returns, and when only `StoreLWW` writes to it, with a record that is the one
it had at the start or beats it. -/
theorem range_weakly_consistent (before : List Hashmap.Op) (prior : ∀ op ∈ before, op.hash = h op.key)
    (actions : List RangeAction) (consistent : ∀ op, .write op ∈ actions → op.hash = h op.key) :
    let hm := ShardedMap.run before
    let reported := (moment hm actions).reported
    (reported.map Prod.fst).Nodup ∧
    (∀ k v, (k, v) ∈ reported → ∃ p q, p <+: q ∧ q ++ [.range] <+: actions ∧
      (shardIndex (h k)).val < (moment hm p).shard ∧ (moment hm p).hm.loadCell k (h k) = some v ∧
      (moment hm (q ++ [.range])).reported = (moment hm q).reported ++ [(k, v)]) ∧
    ((moment hm actions).Ended →
      ∀ k, (∀ p, p <+: actions → (moment hm p).hm.loadCell k (h k) ≠ none) →
        (reported.map Prod.fst).count k = 1 ∧
        ((∀ op, .write op ∈ actions → op.key = k → ∃ hash val, op = .storeLWW k hash val) →
          ∀ v₀ v, hm.loadCell k (h k) = some v₀ → (k, v) ∈ reported → v = v₀ ∨ lwwWins v₀ v = true)) := by
  intro hm reported
  have inv : hm.Inv h := ShardedMap.inv_run prior
  have consistentIn {p : List RangeAction} (within : p <+: actions) (op : Hashmap.Op) (member : .write op ∈ p) :
      op.hash = h op.key := consistent op (within.subset member)
  have loads {p : List RangeAction} (within : p <+: actions) (k : Key) :
      (moment hm p).hm.loadCell k (h k) = (moment hm p).hm.cell h k :=
    (follows_moment inv p (consistentIn within)).inv.loadCell_eq k
  have follows := follows_moment inv actions consistent
  have once : (reported.map Prod.fst).Nodup := follows.apart.sublist (List.sublist_append_left ..)
  refine ⟨once, fun k v member => ?_, fun ended k throughout => ⟨?_, fun only v₀ v first member => ?_⟩⟩
  · obtain ⟨q, within, reports, p, earlier, copied, held⟩ := follows.listed (k, v) member
    have inside : p <+: actions := earlier.trans ((List.prefix_append ..).trans within)
    exact ⟨p, q, earlier, within, copied, (loads inside k).trans held, reports⟩
  · have present : Present h hm actions k := by
      intro p within
      rw [← loads within]
      exact throughout p within
    have copied : (shardIndex (h k)).val < (moment hm actions).shard := by
      rw [ended.1]
      exact (shardIndex (h k)).isLt
    have all : (moment hm actions).keys = reported.map Prod.fst := by
      rw [keys, ended.2, List.map_nil, List.append_nil]
    have member := follows.complete k present copied
    rw [all] at member
    exact List.count_eq_one_of_mem once member
  · obtain ⟨q, within, _, p, earlier, _, held⟩ := follows.listed (k, v) member
    have inside : p <+: actions := earlier.trans ((List.prefix_append ..).trans within)
    have start : hm.cell h k = some v₀ := by
      rw [← inv.loadCell_eq]
      exact first
    obtain ⟨v', held', recent⟩ := recent_of_lww inv (consistentIn inside)
      (fun op member => only op (inside.subset member)) start
    obtain rfl : v = v' := Option.some.inj (held.symm.trans held')
    exact recent

end Run

end Ranging

open Reference

def oneKey : List Hashmap.Op := [.storeLWW [1] 5 ⟨[97], [10], 7, false, 0⟩]

/-- `Range` walks all shards; behind the copy of the sixth the key is written anew. -/
def rangedOver : List RangeAction :=
  List.replicate 6 .range ++ [.write (.storeLWW [1] 5 ⟨[97], [11], 8, false, 0⟩)] ++ List.replicate 123 .range

theorem range_weakly_consistent_rangedOver :
    (Ranging.moment (ShardedMap.run oneKey) rangedOver).Ended ∧
      ((Ranging.moment (ShardedMap.run oneKey) rangedOver).reported.map Prod.fst).Nodup := by
  have consistent : ∀ op, .write op ∈ rangedOver → op.hash = 5 := by
    intro op member
    simp only [rangedOver, List.mem_append, List.mem_replicate, List.mem_singleton, RangeAction.write.injEq,
      reduceCtorEq, and_false, or_false, false_or] at member
    rw [member]
    rfl
  have weak := Ranging.range_weakly_consistent (h := fun _ => 5) oneKey (by decide) rangedOver consistent
  exact ⟨by unfold Ranging.Ended; decide +kernel, weak.1⟩

end Oryx.Snap
