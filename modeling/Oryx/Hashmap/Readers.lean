import Oryx.Hashmap.Digests
import Oryx.Library.Assign

/-!
# The digest readers

What `FillShardDigests`, `FillDigests` and `RangeShard` leave in the maps and hand to
the callbacks they are given, entry by entry.
-/

namespace Oryx.Hashmap
set_option autoImplicit false
open Oryx.Library

namespace ShardedMap

/-- Every shard has an id of its own. -/
theorem shardID_injective : Function.Injective shardID := by
  have back : ∀ i : Fin shardCount, (shardID i).toInt.toNat = i.val := by decide +kernel
  intro i j same
  rw [Fin.ext_iff, ← back i, ← back j, same]

theorem nodup_map_shardID {ids : List (Fin shardCount)} (nodup : ids.Nodup) : (ids.map shardID).Nodup :=
  nodup.map shardID_injective

/-- `FillShardDigests` enters the digest of every shard. -/
theorem fillShardDigests_shardID (sm : ShardedMap) (dst : ShardID → Option Digest) (i : Fin shardCount) :
    sm.fillShardDigests dst (shardID i) = some (sm.digestOf i) :=
  foldl_update_of_mem (fun i _ => some (sm.digestOf i)) (nodup_map_shardID (List.nodup_finRange _))
    (List.mem_finRange i) dst

/-- What the map holds under other ids stays there. -/
theorem fillShardDigests_of_ne (sm : ShardedMap) (dst : ShardID → Option Digest) {id : ShardID}
    (other : ∀ i, shardID i ≠ id) : sm.fillShardDigests dst id = dst id :=
  foldl_update_of_ne (fun i _ => some (sm.digestOf i)) (fun i _ => other i) dst

/-- The sub-bucket digests of one shard, as `FillDigests` lists them. -/
def subDigestsOf (sm : ShardedMap) (i : Fin shardCount) : List Digest :=
  (List.finRange subBucketCount).map (sm.subDigestOf i)

/-- A slice that is no longer than a shard is overwritten from end to end. -/
theorem fillBuf_eq (sm : ShardedMap) (i : Fin shardCount) {buf : List Digest}
    (fits : buf.length ≤ subBucketCount) : sm.fillBuf i buf = sm.subDigestsOf i := by
  have full : (if buf.length < subBucketCount then List.replicate subBucketCount 0 else buf).length =
      subBucketCount := by
    split
    · exact List.length_replicate
    · omega
  rw [fillBuf, subDigestsOf, ← foldl_set_finRange (sm.subDigestOf i) full]

/-- The map `FillDigests` leaves in a Go map that is not nil. -/
def filledDigests (sm : ShardedMap) (dst : ShardID → Option (List Digest)) : ShardID → Option (List Digest) :=
  (sm.fillDigests (some dst)).getD fun _ => none

/-- `FillDigests` enters the slice of every shard, whatever slice was there before. -/
theorem filledDigests_shardID (sm : ShardedMap) {dst : ShardID → Option (List Digest)} {i : Fin shardCount}
    (fits : ((dst (shardID i)).getD []).length ≤ subBucketCount) :
    sm.filledDigests dst (shardID i) = some (sm.subDigestsOf i) := by
  rw [← sm.fillBuf_eq i fits]
  exact foldl_update_of_mem (fun i buf => some (sm.fillBuf i (buf.getD [])))
    (nodup_map_shardID (List.nodup_finRange _)) (List.mem_finRange i) dst

theorem filledDigests_of_ne (sm : ShardedMap) (dst : ShardID → Option (List Digest)) {id : ShardID}
    (other : ∀ i, shardID i ≠ id) : sm.filledDigests dst id = dst id :=
  foldl_update_of_ne (fun i buf => some (sm.fillBuf i (buf.getD []))) (fun i _ => other i) dst

/-- The id of a shard leads back to the shard. -/
theorem find_shardID (i : Fin shardCount) :
    (List.finRange shardCount).find? (fun j => shardID j = shardID i) = some i := by
  cases found : (List.finRange shardCount).find? (fun j => shardID j = shardID i) with
  | none => simpa using List.find?_eq_none.mp found i (List.mem_finRange i)
  | some j =>
    have same : shardID j = shardID i := by simpa using List.find?_some found
    rw [shardID_injective same]

/-- No shard is turned away for its id. -/
theorem shardID_inside : ∀ i : Fin shardCount, ¬(shardID i < 0 ∨ 128 ≤ shardID i) := by
  decide +kernel

/-- `RangeShard` walks the sub-buckets whose bit is set. -/
theorem rangeShard_shardID (sm : ShardedMap) (i : Fin shardCount) (mask : UInt64) :
    sm.rangeShard (shardID i) mask = (List.finRange subBucketCount).flatMap fun b =>
      if mask &&& ((1 : UInt64) <<< UInt64.ofNat b.val) ≠ 0 then sm.bucketPairs i b else [] := by
  rw [rangeShard, if_neg (shardID_inside i), find_shardID]
  rfl

/-- The records handed to the callback are those of the marked sub-buckets. -/
theorem mem_rangeShard {sm : ShardedMap} {i : Fin shardCount} {mask : UInt64} {p : Key × Value} :
    p ∈ sm.rangeShard (shardID i) mask ↔
      ∃ b : Fin subBucketCount, mask &&& ((1 : UInt64) <<< UInt64.ofNat b.val) ≠ 0 ∧ p ∈ sm.bucketPairs i b := by
  rw [rangeShard_shardID, List.mem_flatMap]
  constructor
  · rintro ⟨b, _, member⟩
    split at member
    · exact ⟨b, by assumption, member⟩
    · cases member
  · rintro ⟨b, bit, member⟩
    refine ⟨b, List.mem_finRange b, ?_⟩
    rw [if_pos bit]
    exact member

/-- They come in the order in which `Range` reports them. -/
theorem rangeShard_sublist (sm : ShardedMap) (i : Fin shardCount) (mask : UInt64) :
    (sm.rangeShard (shardID i) mask).Sublist (sm.shardPairs i) := by
  rw [rangeShard_shardID, shardPairs]
  refine List.Sublist.flatMap_right _ fun b _ => ?_
  split
  · exact List.Sublist.refl _
  · exact List.nil_sublist _

end ShardedMap

end Oryx.Hashmap
