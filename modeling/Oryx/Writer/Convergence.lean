import Oryx.Writer.StorageWriter

/-!
# Replica convergence

Replicas that have been given the same set of requests, in whatever order and
however often, hold the same records and publish the same digests. The conflict
rule ends in a hash of the value, so this rests on that hash telling apart the
requests that tie on the first two keys.
-/

namespace Oryx.Writer
set_option autoImplicit false
open Oryx.Library Oryx.Hashmap

section Converge

variable [Security]

/-- The item hash separates requests for one key that tie in timestamp and node id. -/
def TiesApart (reqs : List Request) : Prop :=
  ∀ r ∈ reqs, ∀ r' ∈ reqs, r.key = r'.key → r.toValue.timestamp = r'.toValue.timestamp →
    r.toValue.nodeID = r'.toValue.nodeID → r ≠ r' →
      getItemHash (hashFunc r.key) r.toValue ≠ getItemHash (hashFunc r'.key) r'.toValue

instance (reqs : List Request) : Decidable (TiesApart reqs) :=
  inferInstanceAs (Decidable (∀ r ∈ reqs, _))

/-- Different offers to one register have different ranks. -/
theorem TiesApart.rank_inj {reqs : List Request} (apart : TiesApart reqs) {k : Key} {v w : Value}
    (hv : v ∈ offers reqs k) (hw : w ∈ offers reqs k) (same : rank v = rank w) : v = w := by
  obtain ⟨r, member, rfl, rfl⟩ := mem_offers.mp hv
  obtain ⟨r', member', key, rfl⟩ := mem_offers.mp hw
  obtain ⟨time, node, hash⟩ := rank_eq_iff.mp same
  by_contra different
  refine apart r member r' member' key.symm time node (fun e => different (e ▸ rfl)) hash

theorem cell_mergeAll_eq {reqs reqs' : List Request} (same : ∀ r, r ∈ reqs ↔ r ∈ reqs') (apart : TiesApart reqs)
    (k : Key) : (mergeAll newShardedMap reqs).cell hashFunc k = (mergeAll newShardedMap reqs').cell hashFunc k := by
  refine (top_mergeAll reqs k).unique (top_mergeAll reqs' k) (fun v => ?_)
    fun v hv w hw equal => apart.rank_inj hv hw equal
  simp only [mem_offers, same]

variable {W C W' C' : Type} [Waler W] [Clocker C] [Waler W'] [Clocker C']

/-- **Replica convergence**: the same set of requests leads to the same records,
each the maximum of the requests for its key, and to the same digests. Whether the
logs accept what is published plays no part. -/
theorem replicas_converge (wal : W) (clock : C) (wal' : W') (clock' : C') {reqs reqs' : List Request}
    (same : ∀ r, r ∈ reqs ↔ r ∈ reqs') (apart : TiesApart reqs) :
    let hm := ((newStorageWriter newShardedMap wal clock).run reqs).hm
    let hm' := ((newStorageWriter newShardedMap wal' clock').run reqs').hm
    (∀ k, hm.load k (hashFunc k) = hm'.load k (hashFunc k)) ∧
      (∀ k, LastWriter.Top rank (offers reqs k) (hm.loadCell k (hashFunc k))) ∧
      ShardedMap.SameDigests hm hm' := by
  intro hm hm'
  have merged : hm = mergeAll newShardedMap reqs := StorageWriter.hm_run _ reqs
  have merged' : hm' = mergeAll newShardedMap reqs' := StorageWriter.hm_run _ reqs'
  have inv := inv_mergeAll (ShardedMap.inv_new hashFunc) reqs
  have inv' := inv_mergeAll (ShardedMap.inv_new hashFunc) reqs'
  have cells := cell_mergeAll_eq same apart
  rw [merged, merged']
  refine ⟨fun k => ?_, fun k => ?_, inv.sameDigests inv' (funext cells)⟩
  · rw [inv.load_eq, inv'.load_eq, cells]
  · rw [inv.loadCell_eq]
    exact top_mergeAll reqs k

end Converge

/-- The clock of the writer's own tests: it remembers the last update. -/
structure MockStorageClock where
  updateTs : Int64

instance : Clocker MockStorageClock where
  now c := (0, c)
  update _ ts := ⟨ts⟩

open Reference in
/-- Two writes that tie on the timestamp and the node, one of them delivered twice,
with a delete under another key. -/
theorem replicas_converge_reordered :
    ShardedMap.SameDigests
      ((newStorageWriter newShardedMap NopWal.mk (MockStorageClock.mk 0)).run
        [.set ⟨[97], [1], 5, [110]⟩, .set ⟨[97], [2], 5, [110]⟩, .delete ⟨[98], 7, []⟩]).hm
      ((newStorageWriter newShardedMap NopWal.mk (MockStorageClock.mk 0)).run
        [.delete ⟨[98], 7, []⟩, .set ⟨[97], [2], 5, [110]⟩, .set ⟨[97], [1], 5, [110]⟩,
          .set ⟨[97], [2], 5, [110]⟩]).hm := by
  refine (replicas_converge NopWal.mk (MockStorageClock.mk 0) NopWal.mk (MockStorageClock.mk 0)
    (fun r => ?_) (by decide)).2.2
  simp only [List.mem_cons, List.not_mem_nil, or_false]
  tauto

end Oryx.Writer
