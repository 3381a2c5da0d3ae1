import Oryx.Wal.Log
import Oryx.Hashmap.Digests

/-!
# The storage writer

`core/writer/storagewriter.go`: a request first goes to the in-memory map under
the last-write-wins rule and is logged only when the map accepted it. The two
halves are separate steps here, since other writers may run between them.
-/

namespace Oryx.Writer
set_option autoImplicit false
open Oryx.Library Oryx.Hashmap

/-- `clock.Clocker`. -/
class Clocker (C : Type) where
  now : C → Int64 × C
  update : C → Int64 → C

structure StorageWriter (W C : Type) where
  hm : ShardedMap
  wal : W
  clock : C

def newStorageWriter {W C : Type} (hm : ShardedMap) (wal : W) (clock : C) : StorageWriter W C :=
  ⟨hm, wal, clock⟩

/-- The record a map keeps for a request: its value with the item hash. -/
def record [Security] (r : Request) : Value := withItemHash (hashFunc r.key) r.toValue

theorem record_timestamp [Security] (r : Request) : (record r).timestamp = r.timestamp := r.toValue_timestamp

/-- What the error of a failed `Publish` calls the request. -/
def verb : Request → String
  | .set _ => "set"
  | .delete _ => "delete"

/-- The map's half of a request: whether it was accepted, and the map. -/
def merge [Security] (hm : ShardedMap) (r : Request) : ShardedMap × Bool :=
  hm.storeLWW r.key (hashFunc r.key) r.toValue

/-- The map after the requests one by one. -/
def mergeAll [Security] (hm : ShardedMap) (reqs : List Request) : ShardedMap :=
  reqs.foldl (fun hm r => (merge hm r).1) hm

@[simp] theorem mergeAll_nil [Security] (hm : ShardedMap) : mergeAll hm [] = hm := rfl

@[simp] theorem mergeAll_cons [Security] (hm : ShardedMap) (r : Request) (rest : List Request) :
    mergeAll hm (r :: rest) = mergeAll (merge hm r).1 rest := rfl

namespace StorageWriter

variable {W C : Type} [Security] [Waler W] [Clocker C]

/-- The steps up to `StoreLWW`. -/
def store (sw : StorageWriter W C) (r : Request) : Bool × StorageWriter W C :=
  ((merge sw.hm r).2, { sw with hm := (merge sw.hm r).1, clock := Clocker.update sw.clock r.timestamp })

/-- The step that logs an accepted request; `what` names it in the error. -/
def publish (sw : StorageWriter W C) (what : String) (r : Request) : Option Error × StorageWriter W C :=
  let published := Waler.publish sw.wal r.key (hashFunc r.key) r
  (published.1.map fun err => ascii ("failed to persist " ++ what ++ " to WAL: ") ++ err, { sw with wal := published.2 })

/-- Store, then log unless the request was stale. -/
def persist (sw : StorageWriter W C) (what : String) (r : Request) : Option Error × StorageWriter W C :=
  if (sw.store r).1 then (sw.store r).2.publish what r else (none, (sw.store r).2)

def applySet (sw : StorageWriter W C) (req : SetRequest) : Option Error × StorageWriter W C :=
  sw.persist "set" (.set req)

def applyDelete (sw : StorageWriter W C) (req : DeleteRequest) : Option Error × StorageWriter W C :=
  sw.persist "delete" (.delete req)

def apply (sw : StorageWriter W C) : Request → Option Error × StorageWriter W C
  | .set req => sw.applySet req
  | .delete req => sw.applyDelete req

theorem apply_eq (sw : StorageWriter W C) (r : Request) : sw.apply r = sw.persist (verb r) r := by
  cases r <;> rfl

/-- One call after another. -/
def run (sw : StorageWriter W C) (reqs : List Request) : StorageWriter W C :=
  reqs.foldl (fun sw r => (sw.apply r).2) sw

theorem run_append (sw : StorageWriter W C) (reqs reqs' : List Request) :
    sw.run (reqs ++ reqs') = (sw.run reqs).run reqs' := List.foldl_append

theorem hm_persist (sw : StorageWriter W C) (what : String) (r : Request) :
    (sw.persist what r).2.hm = (merge sw.hm r).1 := by
  rw [persist]
  split <;> rfl

theorem hm_apply (sw : StorageWriter W C) (r : Request) : (sw.apply r).2.hm = (merge sw.hm r).1 := by
  rw [apply_eq, hm_persist]

/-- The clock sees the timestamp of every request, stored or not. -/
theorem clock_apply (sw : StorageWriter W C) (r : Request) :
    (sw.apply r).2.clock = Clocker.update sw.clock r.timestamp := by
  rw [apply_eq, persist]
  split <;> rfl

/-- The map sees the requests only: neither the log nor the clock feeds back. -/
theorem hm_run (sw : StorageWriter W C) (reqs : List Request) :
    (sw.run reqs).hm = mergeAll sw.hm reqs := by
  induction reqs generalizing sw with
  | nil => rfl
  | cons r rest ih => rw [run, List.foldl_cons, ← run, ih, hm_apply, mergeAll_cons]

end StorageWriter

/-! ## A map under a stream of requests -/

section Merge

variable [Security] {hm : ShardedMap}

/-- What the requests offer to the register of `k`. -/
def offers (reqs : List Request) (k : Key) : List Value := (reqs.filter fun r => r.key = k).map record

theorem mem_offers {reqs : List Request} {k : Key} {v : Value} :
    v ∈ offers reqs k ↔ ∃ r ∈ reqs, r.key = k ∧ record r = v := by
  simp [offers, and_assoc]

/-- The keys a request does not name keep their record; the named one is offered the new. -/
theorem cell_merge (inv : hm.Inv hashFunc) (r : Request) :
    (merge hm r).1.cell hashFunc =
      Function.update (hm.cell hashFunc) r.key (LastWriter.adopt rank (hm.cell hashFunc r.key) (record r)) :=
  inv.cell_storeLWW r.key r.toValue

theorem merge_accepted (inv : hm.Inv hashFunc) (r : Request) :
    (merge hm r).2 = ShardedMap.accepts (hm.cell hashFunc r.key) (record r) := by
  rw [merge, inv.storeLWW_eq, ← record]
  cases ShardedMap.accepts (hm.cell hashFunc r.key) (record r) <;> rfl

/-- Where a record comes from: the request, if it was accepted, or the map before it. -/
theorem cell_merge_cases (inv : hm.Inv hashFunc) {r : Request} {k : Key} {v : Value}
    (held : (merge hm r).1.cell hashFunc k = some v) :
    (merge hm r).2 = true ∧ k = r.key ∧ v = record r ∨ hm.cell hashFunc k = some v := by
  rw [cell_merge inv] at held
  by_cases here : k = r.key
  · subst here
    rw [Function.update_self] at held
    rw [merge_accepted inv]
    cases old : hm.cell hashFunc r.key with
    | none =>
      rw [old] at held
      exact Or.inl ⟨rfl, rfl, (Option.some.inj held).symm⟩
    | some existing =>
      rw [old, LastWriter.adopt] at held
      by_cases wins : rank existing < rank (record r)
      · rw [if_pos wins] at held
        exact Or.inl ⟨lwwWins_iff.mpr wins, rfl, (Option.some.inj held).symm⟩
      · rw [if_neg wins] at held
        exact Or.inr held
  · rw [Function.update_of_ne here] at held
    exact Or.inr held

/-- A stale request leaves the map as it is. -/
theorem merge_stale (inv : hm.Inv hashFunc) {r : Request} (stale : (merge hm r).2 = false) : (merge hm r).1 = hm := by
  rw [merge, inv.storeLWW_eq] at stale ⊢
  split at stale
  · cases stale
  · rename_i refused
    rw [if_neg refused]

/-- The record a stale request loses to. -/
theorem exists_above_stale (inv : hm.Inv hashFunc) {r : Request} (stale : (merge hm r).2 = false) :
    ∃ v, hm.cell hashFunc r.key = some v ∧ rank (record r) ≤ rank v := by
  rw [merge_accepted inv] at stale
  cases held : hm.cell hashFunc r.key with
  | none =>
    rw [held] at stale
    cases stale
  | some v =>
    rw [held] at stale
    refine ⟨v, rfl, not_lt.mp fun less => ?_⟩
    rw [ShardedMap.accepts, lwwWins_iff.mpr less] at stale
    cases stale

/-- An accepted request is the new record of its key. -/
theorem cell_merge_accepted (inv : hm.Inv hashFunc) {r : Request} (accepted : (merge hm r).2 = true) :
    (merge hm r).1.cell hashFunc r.key = some (record r) := by
  rw [cell_merge inv, Function.update_self]
  rw [merge_accepted inv] at accepted
  cases old : hm.cell hashFunc r.key with
  | none => rfl
  | some existing =>
    rw [old] at accepted
    rw [LastWriter.adopt, if_pos (lwwWins_iff.mp accepted)]

/-- A request later than the record of its key is accepted. -/
theorem accepted_of_newer (inv : hm.Inv hashFunc) {r : Request}
    (newer : ∀ v, hm.cell hashFunc r.key = some v → v.timestamp < r.timestamp) : (merge hm r).2 = true := by
  rw [merge_accepted inv]
  cases held : hm.cell hashFunc r.key with
  | none => rfl
  | some v =>
    refine lwwWins_iff.mpr (rank_lt_of_timestamp_lt ?_)
    rw [record_timestamp]
    exact newer v held

/-- A request earlier than the record of its key is stale. -/
theorem stale_of_older (inv : hm.Inv hashFunc) {r : Request} {v : Value} (held : hm.cell hashFunc r.key = some v)
    (older : r.timestamp < v.timestamp) : (merge hm r).2 = false := by
  rw [merge_accepted inv, held, ShardedMap.accepts, ← Bool.not_eq_true, lwwWins_iff]
  refine not_lt_of_gt (rank_lt_of_timestamp_lt ?_)
  rwa [record_timestamp]

/-- A request later than the record of its key becomes the record. -/
theorem cell_merge_newer (inv : hm.Inv hashFunc) {r : Request}
    (newer : ∀ v, hm.cell hashFunc r.key = some v → v.timestamp < r.timestamp) :
    (merge hm r).1.cell hashFunc = Function.update (hm.cell hashFunc) r.key (some (record r)) := by
  have stored := cell_merge_accepted inv (accepted_of_newer inv newer)
  rw [cell_merge inv] at stored ⊢
  rw [Function.update_self] at stored
  rw [stored]

/-- A record stays or makes way for one strictly above it. -/
theorem merge_moves_up (inv : hm.Inv hashFunc) (r : Request) {k : Key} {old : Value}
    (held : hm.cell hashFunc k = some old) :
    ∃ new, (merge hm r).1.cell hashFunc k = some new ∧ (new = old ∨ rank old < rank new) := by
  rw [cell_merge inv]
  by_cases here : k = r.key
  · subst here
    rw [Function.update_self, held, LastWriter.adopt]
    split
    · rename_i less
      exact ⟨_, rfl, Or.inr less⟩
    · exact ⟨old, rfl, Or.inl rfl⟩
  · rw [Function.update_of_ne here]
    exact ⟨old, held, Or.inl rfl⟩

/-- The timestamp under a key never goes down. -/
theorem exists_later_merge (inv : hm.Inv hashFunc) (r : Request) {k : Key} {v : Value}
    (held : hm.cell hashFunc k = some v) :
    ∃ v', (merge hm r).1.cell hashFunc k = some v' ∧ v.timestamp ≤ v'.timestamp := by
  obtain ⟨v', held', rfl | above⟩ := merge_moves_up inv r held
  · exact ⟨v', held', le_rfl⟩
  · exact ⟨v', held', timestamp_le_of_rank_le above.le⟩

/-- An accepted request changes the record of its key. -/
theorem cell_ne_of_accepted (inv : hm.Inv hashFunc) {r : Request} (accepted : (merge hm r).2 = true) :
    hm.cell hashFunc r.key ≠ some (record r) := by
  intro held
  rw [merge_accepted inv, held, ShardedMap.accepts, lwwWins_iff] at accepted
  exact lt_irrefl _ accepted

theorem inv_merge (inv : hm.Inv hashFunc) (r : Request) : (merge hm r).1.Inv hashFunc :=
  inv.storeLWW r.key r.toValue

theorem inv_mergeAll (inv : hm.Inv hashFunc) (reqs : List Request) : (mergeAll hm reqs).Inv hashFunc := by
  induction reqs generalizing hm with
  | nil => exact inv
  | cons r rest ih => exact ih (inv_merge inv r)

/-- Under every key the map is a last-writer register of the requests for it. -/
theorem cell_mergeAll (inv : hm.Inv hashFunc) (reqs : List Request) (k : Key) :
    (mergeAll hm reqs).cell hashFunc k = (offers reqs k).foldl (LastWriter.adopt rank) (hm.cell hashFunc k) := by
  induction reqs generalizing hm with
  | nil => rfl
  | cons r rest ih =>
    rw [mergeAll_cons, ih (inv_merge inv r), cell_merge inv]
    by_cases here : r.key = k
    · subst here
      simp [offers]
    · have elsewhere : k ≠ r.key := Ne.symm here
      simp [offers, here, elsewhere]

/-- From an empty map, the record of a key is a top of the requests for it. -/
theorem top_mergeAll (reqs : List Request) (k : Key) :
    LastWriter.Top rank (offers reqs k) ((mergeAll newShardedMap reqs).cell hashFunc k) := by
  rw [cell_mergeAll (ShardedMap.inv_new hashFunc), ShardedMap.cell_new]
  exact LastWriter.foldl_top rank _

end Merge

end Oryx.Writer
