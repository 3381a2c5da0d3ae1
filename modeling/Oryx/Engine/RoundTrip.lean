import Oryx.Wal.Protobuf
import Oryx.Writer.Convergence
import Oryx.Engine.Engine

/-!
# The snapshot round trip

A map written by the snapshot encoder and read back by `recover` into a new
engine. The decoder's pooled objects keep the timestamp and the tombstone mark of
the entry they last held, and a zero timestamp or a live value is not on the
wire, so whether an entry survives depends on the entries listed before it.
-/

namespace Oryx.Core
set_option autoImplicit false
open Oryx.Library Oryx.Hashmap Oryx.Snap Oryx.Writer

theorem toValue_ofPair (p : Key × Value) : (SnapshotEntry.ofPair p).toValue = p.2.blank := rfl

section RoundTrip

variable [Security]

theorem blank_withItemHash (hash : HashKey) (v : Value) : (withItemHash hash v).blank = v.blank := rfl

/-- The entries of a map, in whatever order they are listed, make up the map again. -/
theorem load_loadEntries {hm : ShardedMap} (inv : hm.Inv hashFunc) {pairs : List (Key × Value)}
    (listed : pairs.Perm hm.range) (k : Key) :
    (loadEntries newShardedMap (pairs.map .ofPair)).load k (hashFunc k) = hm.load k (hashFunc k) := by
  have new := ShardedMap.inv_new hashFunc
  have keys : (pairs.map SnapshotEntry.ofPair).map SnapshotEntry.key = pairs.map Prod.fst := by
    simp [SnapshotEntry.ofPair]
  have distinct : ((pairs.map SnapshotEntry.ofPair).map SnapshotEntry.key).Nodup := by
    rw [keys]
    exact (listed.map Prod.fst).nodup_iff.mpr inv.nodup_range
  rw [(loadEntries_inv new _).load_eq, inv.load_eq]
  cases held : hm.cell hashFunc k with
  | none =>
    rw [cell_loadEntries_absent new, ShardedMap.cell_new]
    intro e member same
    obtain ⟨⟨k', v⟩, pair, rfl⟩ := List.mem_map.mp member
    obtain rfl : k' = k := same
    have found := inv.mem_range.mp (listed.mem_iff.mp pair)
    rw [held] at found
    cases found
  | some v =>
    have member : SnapshotEntry.ofPair (k, v) ∈ pairs.map SnapshotEntry.ofPair :=
      List.mem_map_of_mem (listed.mem_iff.mpr (inv.mem_range.mpr held))
    have stored := cell_loadEntries new distinct member
    rw [show (SnapshotEntry.ofPair (k, v)).key = k from rfl] at stored
    rw [stored, Option.map_some, blank_withItemHash, toValue_ofPair]
    rfl

/-- Entries that give the same records under the same keys are the same entries. -/
theorem loadEntries_inj {entries entries' : List SnapshotEntry}
    (keys : entries'.map SnapshotEntry.key = entries.map SnapshotEntry.key)
    (distinct : (entries.map SnapshotEntry.key).Nodup)
    (same : ∀ k, (loadEntries newShardedMap entries').load k (hashFunc k) =
      (loadEntries newShardedMap entries).load k (hashFunc k)) : entries' = entries := by
  have new := ShardedMap.inv_new hashFunc
  have length : entries'.length = entries.length := by simpa using congrArg List.length keys
  refine List.ext_getElem length fun j here' here => ?_
  have key : entries'[j].key = entries[j].key := by
    have at_ := congrArg (fun l => l[j]?) keys
    simpa [here, here'] using at_
  have load := same entries[j].key
  rw [(loadEntries_inv new _).load_eq, (loadEntries_inv new _).load_eq,
    cell_loadEntries new distinct (List.getElem_mem here), ← key,
    cell_loadEntries new (by rwa [keys]) (List.getElem_mem here')] at load
  have record : (entries'[j].toValue).blank = (entries[j].toValue).blank := Option.some.inj load
  revert key record
  generalize entries'[j] = e
  generalize entries[j] = e'
  intro key record
  simp only [SnapshotEntry.toValue, Value.blank, Value.mk.injEq] at record
  cases e
  cases e'
  simp_all

variable {count : Nat} [Proto]

/-- With nothing in the log, `recover` stores what it decodes. -/
theorem recover_snapshot (choices : Choices) (records : List GobRecord) (bufferSize : UInt32) :
    (recover choices ⟨records, none⟩ (.wal (newWal (fun _ => []) bufferSize count)) newShardedMap).2 =
      loadEntries newShardedMap (decodeLoop choices.pool [] records) := by
  have nothing : choices.order (∅ : Results).toList = [] := (choices.isPerm _).eq_nil
  simp only [recover, EngineWal.replay, Wal.replay_newWal]
  rw [nothing]
  rfl

variable {W C : Type} [Waler W] [Clocker C]

/-- **Snapshot round trip**: whichever objects the pool hands out, every record
comes back exactly when the listing has no tombstone before a live record and no
non-zero timestamp before a zero one. -/
theorem snapshot_round_trip_iff (wal : W) (clock : C) (reqs : List Request) {pairs : List (Key × Value)}
    (listed : pairs.Perm ((newStorageWriter newShardedMap wal clock).run reqs).hm.range)
    (encoderChoice : Nat → Nat) (encoderPool : Pool) (bufferSize : UInt32) :
    (∀ choices k,
      (recover choices ⟨encodeLoop encoderChoice encoderPool pairs, none⟩
        (.wal (newWal (fun _ => []) bufferSize count)) newShardedMap).2.load k (hashFunc k) =
      ((newStorageWriter newShardedMap wal clock).run reqs).hm.load k (hashFunc k)) ↔
    pairs.Pairwise fun p q => Keeps (.ofPair p) (.ofPair q) := by
  have merged := StorageWriter.hm_run (newStorageWriter newShardedMap wal clock) reqs
  have inv : ((newStorageWriter newShardedMap wal clock).run reqs).hm.Inv hashFunc := by
    rw [merged]
    exact inv_mergeAll (ShardedMap.inv_new hashFunc) reqs
  have records : encodeLoop encoderChoice encoderPool pairs = (pairs.map SnapshotEntry.ofPair).map gobEncode := by
    rw [encodeLoop_eq, List.map_map]
    rfl
  have unused : ∀ p ∈ ([] : Pool), Released p := by simp
  have exact_ : (∀ choose, decodeLoop choose [] ((pairs.map SnapshotEntry.ofPair).map gobEncode) =
      pairs.map SnapshotEntry.ofPair) ↔ _ := decodeLoop_eq_iff unused
  rw [List.pairwise_map] at exact_
  simp only [recover_snapshot, records]
  constructor
  · intro same
    refine (exact_.mp fun choose => ?_).2
    refine loadEntries_inj (map_key_decodeLoop choose _ unused) ?_ fun k => ?_
    · have keys : (pairs.map SnapshotEntry.ofPair).map SnapshotEntry.key = pairs.map Prod.fst := by
        simp [SnapshotEntry.ofPair]
      rw [keys]
      exact (listed.map Prod.fst).nodup_iff.mpr inv.nodup_range
    · rw [load_loadEntries inv listed]
      exact same { Choices.plain with pool := choose } k
  · intro ordered choices k
    rw [exact_.mpr ⟨by simp, ordered⟩ choices.pool, load_loadEntries inv listed]

end RoundTrip

open Reference Protobuf in
/-- A live record listed before a tombstone comes back, and so does the tombstone. -/
theorem snapshot_round_trip_iff_ordered :
    (recover { Choices.plain with pool := fun _ => 0 }
      ⟨encodeLoop id [] ((newStorageWriter newShardedMap NopWal.mk (MockStorageClock.mk 0)).run
        [.set ⟨[98], [1], 1, []⟩, .delete ⟨[97], 2, [110]⟩]).hm.range, none⟩
      (.wal (newWal (fun _ => []) 0 1)) newShardedMap).2.load [97] (hashFunc [97]) = some ⟨[110], [], 2, true, 0⟩ :=
  ((snapshot_round_trip_iff NopWal.mk (MockStorageClock.mk 0) [.set ⟨[98], [1], 1, []⟩, .delete ⟨[97], 2, [110]⟩]
    (.refl _) id [] 0).mpr (by decide +kernel) _ _).trans (by decide +kernel)

open Reference Protobuf in
/-- `Range` lists the tombstone of `b` before the value of `a`; decoded into the
object that held the tombstone, `a` comes back deleted. -/
theorem snapshot_turns_value_into_tombstone :
    let hm := ((newStorageWriter newShardedMap NopWal.mk (MockStorageClock.mk 0)).run
      [.delete ⟨[98], 1, []⟩, .set ⟨[97], [1], 2, []⟩]).hm
    hm.load [97] (hashFunc [97]) = some ⟨[], [1], 2, false, 0⟩ ∧
      (recover { Choices.plain with pool := fun _ => 0 } ⟨encodeLoop id [] hm.range, none⟩
        (.wal (newWal (fun _ => []) 0 1)) newShardedMap).2.load [97] (hashFunc [97]) =
      some ⟨[], [1], 2, true, 0⟩ := by
  decide +kernel

end Oryx.Core
