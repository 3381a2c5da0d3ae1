import Oryx.Hashmap.Digests
import Oryx.Library.Mixing

/-!
# Counts in the digests

A digest is published with the number of its keys folded in by `mixCount`. That function
loses nothing of the counter, so two buckets, or two shards, whose item hashes XOR to the same
value are told apart by their counts. The counters are 32 bits wide: counts that agree in the
lower 32 bits are one count here.
-/

namespace Oryx.Hashmap
set_option autoImplicit false
open Oryx.Library

/-- The three lines of `mixCount` are two rounds and half a round of a mixer. -/
theorem toBitVec_mixCount (count : UInt32) :
    (mixCount count).toBitVec =
      xorShift 31 (mixRound 27 0x94d049bb133111eb#64
        (mixRound 30 0xbf58476d1ce4e5b9#64 (count.toUInt64 + 1).toBitVec)) := rfl

theorem mixCount_injective : Function.Injective mixCount := by
  have inverse : 0xbf58476d1ce4e5b9#64 * 0x96de1b173f119089#64 = 1#64 := by decide
  have inverse' : 0x94d049bb133111eb#64 * 0x319642b2d24d8ec3#64 = 1#64 := by decide
  intro count count' same
  have words := congrArg UInt64.toBitVec same
  rw [toBitVec_mixCount, toBitVec_mixCount] at words
  have second := xorShift_injective (by decide) words
  have first := mixRound_injective (by decide) inverse' second
  have start := mixRound_injective (by decide) inverse first
  -- the sum with 1 does not overflow, but a sum can be undone in any case
  exact UInt32.toUInt64_inj.mp ((UInt64.add_left_inj 1).mp (UInt64.toBitVec_inj.mp start))

/-- Under one raw digest the published ones differ as the counters do. -/
theorem xor_mixCount_inj {raw : Digest} {n m : Nat} :
    raw ^^^ mixCount (UInt32.ofNat n) = raw ^^^ mixCount (UInt32.ofNat m) ↔ n ≡ m [MOD 2 ^ 32] := by
  rw [UInt64.xor_right_inj, mixCount_injective.eq_iff, UInt32.ofNat_eq_iff_mod_eq_toNat, UInt32.toNat_ofNat']
  rfl

namespace ShardedMap

variable [Security] {h : Key → HashKey} {sm : ShardedMap}

theorem Inv.subDigestOf_bucketPairs (inv : sm.Inv h) (i : Fin shardCount) (b : Fin subBucketCount) :
    sm.subDigestOf i b =
      xorSum ((sm.bucketPairs i b).map fun p => p.2.itemHash) ^^^
        mixCount (UInt32.ofNat (sm.bucketPairs i b).length) := by
  rw [subDigestOf, inv.digested.subDigest, inv.digested.subCount]

theorem Inv.digestOf_shardPairs (inv : sm.Inv h) (i : Fin shardCount) :
    sm.digestOf i =
      xorSum ((sm.shardPairs i).map fun p => p.2.itemHash) ^^^
        mixCount (UInt32.ofNat (sm.shardPairs i).length) := by
  rw [digestOf, inv.digested.shardDigest, inv.digested.shardCount]

/-- **Counts are told apart**: `mixCount` is injective, so after any two runs two buckets (or two
shards) whose item hashes XOR to the same value publish the same digest exactly when their numbers
of keys agree modulo 2³². One whose item hashes cancel reads as a new, empty one exactly when its
number of keys is a multiple of 2³². -/
theorem counts_told_apart (h : Key → HashKey) {ops ops' : List Op} (consistent : ∀ op ∈ ops, op.hash = h op.key)
    (consistent' : ∀ op ∈ ops', op.hash = h op.key) :
    Function.Injective mixCount ∧
      (∀ i b i' b',
        xorSum (((run ops).bucketPairs i b).map fun p => p.2.itemHash) =
            xorSum (((run ops').bucketPairs i' b').map fun p => p.2.itemHash) →
          ((run ops).subDigestOf i b = (run ops').subDigestOf i' b' ↔
            ((run ops).bucketPairs i b).length ≡ ((run ops').bucketPairs i' b').length [MOD 2 ^ 32])) ∧
      (∀ i i',
        xorSum (((run ops).shardPairs i).map fun p => p.2.itemHash) =
            xorSum (((run ops').shardPairs i').map fun p => p.2.itemHash) →
          ((run ops).digestOf i = (run ops').digestOf i' ↔
            ((run ops).shardPairs i).length ≡ ((run ops').shardPairs i').length [MOD 2 ^ 32])) ∧
      (∀ i b, xorSum (((run ops).bucketPairs i b).map fun p => p.2.itemHash) = 0 →
        ((run ops).subDigestOf i b = newShardedMap.subDigestOf i b ↔
          2 ^ 32 ∣ ((run ops).bucketPairs i b).length)) ∧
      ∀ i, xorSum (((run ops).shardPairs i).map fun p => p.2.itemHash) = 0 →
        ((run ops).digestOf i = newShardedMap.digestOf i ↔ 2 ^ 32 ∣ ((run ops).shardPairs i).length) := by
  have inv := inv_run consistent
  have inv' := inv_run consistent'
  refine ⟨mixCount_injective, fun i b i' b' same => ?_, fun i i' same => ?_, fun i b zero => ?_, fun i zero => ?_⟩
  · rw [inv.subDigestOf_bucketPairs, inv'.subDigestOf_bucketPairs, same]
    exact xor_mixCount_inj
  · rw [inv.digestOf_shardPairs, inv'.digestOf_shardPairs, same]
    exact xor_mixCount_inj
  · have empty : newShardedMap.subDigestOf i b = 0 ^^^ mixCount (UInt32.ofNat 0) := rfl
    rw [inv.subDigestOf_bucketPairs, zero, empty, xor_mixCount_inj]
    exact Nat.modEq_zero_iff_dvd
  · have empty : newShardedMap.digestOf i = 0 ^^^ mixCount (UInt32.ofNat 0) := rfl
    rw [inv.digestOf_shardPairs, zero, empty, xor_mixCount_inj]
    exact Nat.modEq_zero_iff_dvd

end ShardedMap

open Reference ShardedMap

/-- Two records that differ in their keys only, under one hash. -/
def cancelling : List Op := [.store [97] 0 ⟨[110], [1], 5, false, 0⟩, .store [98] 0 ⟨[110], [1], 5, false, 0⟩]

/-- Their item hashes cancel, and the bucket does not read as empty. -/
theorem counts_told_apart_cancelling :
    xorSum (((run cancelling).bucketPairs (shardIndex 0) (subIndex 0)).map fun p => p.2.itemHash) = 0 ∧
      (run cancelling).subDigestOf (shardIndex 0) (subIndex 0) ≠
        newShardedMap.subDigestOf (shardIndex 0) (subIndex 0) := by
  have cancels : xorSum (((run cancelling).bucketPairs (shardIndex 0) (subIndex 0)).map fun p => p.2.itemHash) = 0 := by
    decide +kernel
  have two : ((run cancelling).bucketPairs (shardIndex 0) (subIndex 0)).length = 2 := by decide +kernel
  have consistent : ∀ op ∈ cancelling, op.hash = (fun _ => 0) op.key := by decide
  have told := counts_told_apart (fun _ => 0) consistent consistent
  refine ⟨cancels, fun same => ?_⟩
  have multiple := (told.2.2.2.1 _ _ cancels).mp same
  rw [two] at multiple
  omega

end Oryx.Hashmap
