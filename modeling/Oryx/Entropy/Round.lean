import Oryx.Entropy.Response
import Oryx.Library.Runs
import Oryx.Writer.Convergence

/-!
# Anti-entropy rounds

A round joins the requester's map with the peer's on the keys the requester is
responsible for, and two rounds in opposite directions make the maps equal when both
nodes own everything. What the digests cannot tell apart is not sent: the results
rest on equal digests standing for equal contents (`DigestsFaithful`), for the two maps
that each round compares. A record that ties with the one already held is refused: two
rounds also rest on item hashes that tell such records apart (`ItemsApart`).
-/

namespace Oryx.Entropy
set_option autoImplicit false

open Oryx.Library Oryx.Hashmap Oryx.Mesh Oryx.Writer
open Oryx.Hashmap.ShardedMap (shardID)

/-- Equal digests occur only where the pairs they cover are equal, at every level. -/
structure DigestsFaithful (hm hm' : ShardedMap) : Prop where
  root : hm.rootDigest = hm'.rootDigest → ∀ i b, (hm.bucketPairs i b).Perm (hm'.bucketPairs i b)
  shard : ∀ i, hm.digestOf i = hm'.digestOf i → ∀ b, (hm.bucketPairs i b).Perm (hm'.bucketPairs i b)
  bucket : ∀ i b, hm.subDigestOf i b = hm'.subDigestOf i b → (hm.bucketPairs i b).Perm (hm'.bucketPairs i b)

theorem DigestsFaithful.perm {hm hm' : ShardedMap} (faithful : DigestsFaithful hm hm') {i : Fin shardCount}
    {b : Fin subBucketCount} (same : ¬Differs hm hm' i b) : (hm.bucketPairs i b).Perm (hm'.bucketPairs i b) := by
  by_contra different
  exact same ⟨fun root => different (faithful.root root i b), fun shard => different (faithful.shard i shard b),
    fun bucket => different (faithful.bucket i b bucket)⟩

section Join

variable [Security] {W C W' C' : Type} {a : Syncer W C} {s : Syncer W' C'}

/-- Every record of the map is recorded again by the request it is sent as. -/
structure Resendable (hm : ShardedMap) : Prop where
  inv : hm.Inv hashFunc
  record_requestOf : ∀ k v, hm.cell hashFunc k = some v → record (requestOf (k, v)) = v

theorem requestOf_record (r : Request) : requestOf (r.key, record r) = r := by
  cases r <;> rfl

/-- Maps written by requests only are resendable: a tombstone has no data to lose. -/
theorem resendable_mergeAll (reqs : List Request) : Resendable (mergeAll newShardedMap reqs) where
  inv := inv_mergeAll (ShardedMap.inv_new hashFunc) reqs
  record_requestOf k v held := by
    have top := top_mergeAll reqs k
    rw [held] at top
    obtain ⟨r, _, rfl, rfl⟩ := mem_offers.mp top.1
    rw [requestOf_record]

theorem mergeAll_append (hm : ShardedMap) (reqs reqs' : List Request) :
    mergeAll hm (reqs ++ reqs') = mergeAll (mergeAll hm reqs) reqs' := List.foldl_append

variable {lease peerLease : Lease} {buckets : BucketMap}

/-- What the response offers to a key is the peer's record of it. -/
theorem mem_offers_serverPull (resendable : Resendable s.hm) {k : Key} {v : Value} :
    v ∈ offers (serverPull s buckets peerLease (a.preparePullRequest lease)).requests k ↔
      s.isRequesterResponsible k a.nodeID = true ∧ s.hm.cell hashFunc k = some v ∧
        Differs a.hm s.hm (shardIndex (hashFunc k)) (subIndex (hashFunc k)) := by
  rw [mem_offers]
  constructor
  · rintro ⟨r, sent, rfl, rfl⟩
    obtain ⟨i, b, differs, ⟨k, v⟩, member, owned, rfl⟩ := mem_requests_serverPull.mp sent
    obtain ⟨held, rfl, rfl⟩ := resendable.inv.mem_entriesOf.mp member
    rw [key_requestOf, resendable.record_requestOf k v held]
    exact ⟨owned, held, differs⟩
  · rintro ⟨owned, held, differs⟩
    have member := resendable.inv.mem_entriesOf.mpr ⟨held, rfl, rfl⟩
    exact ⟨requestOf (k, v), mem_requests_serverPull.mpr ⟨_, _, differs, (k, v), member, owned, rfl⟩,
      key_requestOf (k, v), resendable.record_requestOf k v held⟩

/-- Where the digests agree the two maps hold the same record. -/
theorem DigestsFaithful.cell_eq (faithful : DigestsFaithful a.hm s.hm) (inv : a.hm.Inv hashFunc)
    (inv' : s.hm.Inv hashFunc) {k : Key} {v : Value} (held : s.hm.cell hashFunc k = some v)
    (same : ¬Differs a.hm s.hm (shardIndex (hashFunc k)) (subIndex (hashFunc k))) :
    a.hm.cell hashFunc k = some v :=
  (inv.mem_entriesOf.mp ((faithful.perm same).mem_iff.mpr (inv'.mem_entriesOf.mpr ⟨held, rfl, rfl⟩))).1

/-- The map after the response: joined with the peer's on the keys the requester is responsible for. -/
theorem cell_mergeAll_serverPull (inv : a.hm.Inv hashFunc) (resendable : Resendable s.hm)
    (faithful : DigestsFaithful a.hm s.hm) (k : Key) :
    (mergeAll a.hm (serverPull s buckets peerLease (a.preparePullRequest lease)).requests).cell hashFunc k =
      if s.isRequesterResponsible k a.nodeID then
        LastWriter.join rank (a.hm.cell hashFunc k) (s.hm.cell hashFunc k)
      else a.hm.cell hashFunc k := by
  rw [cell_mergeAll inv]
  have offered : ∀ v, v ∈ offers (serverPull s buckets peerLease (a.preparePullRequest lease)).requests k ↔ _ :=
    fun v => mem_offers_serverPull resendable
  generalize offers _ k = l at offered ⊢
  cases owned : s.isRequesterResponsible k a.nodeID with
  | false =>
    have empty : l = [] := List.eq_nil_iff_forall_not_mem.mpr fun v member => by simp [offered, owned] at member
    rw [empty]
    rfl
  | true =>
    rw [if_pos rfl]
    cases held : s.hm.cell hashFunc k with
    | none =>
      have empty : l = [] := List.eq_nil_iff_forall_not_mem.mpr fun v member => by simp [offered, held] at member
      rw [empty]
      rfl
    | some v =>
      have only : ∀ x ∈ l, x = v := fun x member => by
        have record := ((offered x).mp member).2.1
        rw [held] at record
        exact (Option.some.inj record).symm
      by_cases sent : l = []
      · have same : ¬Differs a.hm s.hm (shardIndex (hashFunc k)) (subIndex (hashFunc k)) := fun differs => by
          have member := (offered v).mpr ⟨owned, held, differs⟩
          simp [sent] at member
        rw [sent, faithful.cell_eq inv resendable.inv held same, LastWriter.join, LastWriter.adopt_self]
        rfl
      · exact LastWriter.foldl_adopt_of_eq only sent _

end Join

/-! ## Rounds -/

section Rounds

variable [Security] {W C W' C' : Type} [Waler W] [Clocker C]

/-- The writer's map was built by `ApplySet` and `ApplyDelete` calls alone. -/
def Syncer.Written (s : Syncer W C) : Prop :=
  ∃ (wal : W) (clock : C) (reqs : List Request),
    s.writer = (newStorageWriter newShardedMap wal clock).run reqs

theorem Syncer.Written.hm_eq {s : Syncer W C} (written : s.Written) :
    ∃ reqs, s.hm = mergeAll newShardedMap reqs := by
  obtain ⟨wal, clock, reqs, writer⟩ := written
  exact ⟨reqs, by rw [Syncer.hm, writer, StorageWriter.hm_run]; rfl⟩

theorem Syncer.Written.resendable {s : Syncer W C} (written : s.Written) : Resendable s.hm := by
  obtain ⟨reqs, hm⟩ := written.hm_eq
  exact hm ▸ resendable_mergeAll reqs

/-- What `b` answers to `a`'s request in this round. -/
def Round.response (round : Round) (a : Syncer W C) (b : Syncer W' C') : PullResponse :=
  serverPull b round.peerBuckets round.peerLease (a.preparePullRequest round.lease)

/-- Every call of the run succeeds: the log takes what the writer publishes. -/
def Published (sw : StorageWriter W C) (reqs : List Request) : Prop :=
  Along (fun sw r => (sw.apply r).2) (fun sw r => (sw.apply r).1 = none) sw reqs

/-- In this round `a` pulls from `b`: the peer it picks is `b`, the call is answered,
and `a`'s log takes what `Push` publishes. -/
structure Round.Pulls (round : Round) (a : Syncer W C) (b : Syncer W' C') : Prop where
  answered : ∃ target api,
    (excludeSelf round.members round.self)[round.choice % (excludeSelf round.members round.self).length]? =
        some target ∧
      round.client target = .ok api ∧ api (a.preparePullRequest round.lease) = .ok (round.response a b)
  published : Published a.writer (round.response a b).requests

/-- A round of a pair of nodes; `server.Pull` only reads the peer. -/
def exchange (round : Round) (pair : Syncer W C × Syncer W' C') : Syncer W C × Syncer W' C' :=
  (pair.1.performSync round, pair.2)

theorem applyAll_of_published {reqs : List Request} {sw : StorageWriter W C}
    (published : Published sw reqs) : applyAll sw reqs = (none, sw.run reqs) := by
  induction reqs generalizing sw with
  | nil => rfl
  | cons r rest ih =>
    obtain ⟨first, later⟩ := published
    rw [applyAll, first]
    exact ih later

omit [Security] [Waler W] [Clocker C] in
/-- The requests that a round brings to the node, none if a call fails. -/
def Syncer.pulled (s : Syncer W C) (round : Round) : List Request :=
  let peers := excludeSelf round.members round.self
  match peers[round.choice % peers.length]? with
  | none => []
  | some target =>
    match round.client target with
    | .error _ => []
    | .ok api =>
      match api (s.preparePullRequest round.lease) with
      | .error _ => []
      | .ok resp => resp.requests

/-- **A round** is a `Push` of what it brings. -/
theorem performSync_eq_applyAll (s : Syncer W C) (round : Round) :
    s.performSync round = { s with writer := (applyAll s.writer (s.pulled round)).2 } := by
  rw [Syncer.performSync, Syncer.pulled]
  rcases (excludeSelf round.members round.self)[round.choice % (excludeSelf round.members round.self).length]? with
    _ | target
  · rfl
  rcases connected : round.client target with _ | api
  · simp only [connected]
    rfl
  rcases answer : api (s.preparePullRequest round.lease) with _ | resp
  · simp only [connected, answer]
    rfl
  simp only [connected, answer]
  split
  · rfl
  · rename_i silent
    have none : resp.requests = [] := by
      simp only [not_or, Nat.not_lt, Nat.le_zero, List.length_eq_zero_iff] at silent
      simp [PullResponse.requests, silent]
    rw [none]
    rfl

/-- The requester of a round applies the response and is otherwise as it was. -/
theorem performSync_eq {a : Syncer W C} {b : Syncer W' C'} {round : Round} (pulls : round.Pulls a b) :
    a.performSync round = { a with writer := a.writer.run (round.response a b).requests } := by
  obtain ⟨⟨target, api, picked, connected, answer⟩, published⟩ := pulls
  have brings : a.pulled round = (round.response a b).requests := by
    simp only [Syncer.pulled, picked, connected, answer]
  rw [performSync_eq_applyAll, brings, applyAll_of_published published]

theorem hm_performSync {a : Syncer W C} {b : Syncer W' C'} {round : Round} (pulls : round.Pulls a b) :
    (a.performSync round).hm = mergeAll a.hm (round.response a b).requests := by
  rw [performSync_eq pulls]
  exact StorageWriter.hm_run a.writer _

theorem isRequesterResponsible_performSync {a : Syncer W C} {b : Syncer W' C'} {round : Round}
    (pulls : round.Pulls a b) (k : Key) (id : NodeID) :
    (a.performSync round).isRequesterResponsible k id = a.isRequesterResponsible k id := by
  rw [performSync_eq pulls]
  rfl

theorem Syncer.Written.performSync {a : Syncer W C} {b : Syncer W' C'} {round : Round} (written : a.Written)
    (pulls : round.Pulls a b) : (a.performSync round).Written := by
  obtain ⟨wal, clock, reqs, writer⟩ := written
  refine ⟨wal, clock, reqs ++ (round.response a b).requests, ?_⟩
  rw [performSync_eq pulls, StorageWriter.run_append, ← writer]

variable [Waler W'] [Clocker C']

/-- The requester's records after a round. -/
theorem cell_performSync {a : Syncer W C} {b : Syncer W' C'} {round : Round} (written : a.Written)
    (peer : b.Written) (pulls : round.Pulls a b) (faithful : DigestsFaithful a.hm b.hm) (k : Key) :
    (a.performSync round).hm.cell hashFunc k =
      if b.isRequesterResponsible k a.nodeID then
        LastWriter.join rank (a.hm.cell hashFunc k) (b.hm.cell hashFunc k)
      else a.hm.cell hashFunc k := by
  rw [hm_performSync pulls]
  exact cell_mergeAll_serverPull written.resendable.inv peer.resendable faithful k

/-- To a requester that owns everything, a round is as if it had been given the peer's requests. -/
theorem cell_performSync_owner {a : Syncer W C} {b : Syncer W' C'} {round : Round} (written : a.Written)
    (peer : b.Written) (pulls : round.Pulls a b) (faithful : DigestsFaithful a.hm b.hm)
    (owns : ∀ k, b.isRequesterResponsible k a.nodeID = true) {reqs reqs' : List Request}
    (same : a.hm.cell hashFunc = (mergeAll newShardedMap reqs).cell hashFunc)
    (same' : b.hm.cell hashFunc = (mergeAll newShardedMap reqs').cell hashFunc) :
    (a.performSync round).hm.cell hashFunc = (mergeAll newShardedMap (reqs ++ reqs')).cell hashFunc := by
  have inv := inv_mergeAll (ShardedMap.inv_new hashFunc) reqs
  funext k
  rw [cell_performSync written peer pulls faithful, if_pos (owns k), same, same', mergeAll_append,
    cell_mergeAll inv, cell_mergeAll (ShardedMap.inv_new hashFunc) reqs', ShardedMap.cell_new, LastWriter.join_foldl]

/-- The item hash separates records of one key that tie in timestamp and node id. -/
def ItemsApart (hm hm' : ShardedMap) : Prop :=
  ∀ k v v', hm.loadCell k (hashFunc k) = some v → hm'.loadCell k (hashFunc k) = some v' →
    v.timestamp = v'.timestamp → v.nodeID = v'.nodeID → v ≠ v' → v.itemHash ≠ v'.itemHash

omit [Waler W] [Clocker C] [Waler W'] [Clocker C'] in
theorem ItemsApart.eq_of_rank {hm hm' : ShardedMap} (apart : ItemsApart hm hm') (inv : hm.Inv hashFunc)
    (inv' : hm'.Inv hashFunc) {k : Key} {v v' : Value} (held : hm.cell hashFunc k = some v)
    (held' : hm'.cell hashFunc k = some v') (same : rank v = rank v') : v = v' := by
  obtain ⟨time, node, hash⟩ := rank_eq_iff.mp same
  by_contra different
  refine apart k v v' ?_ ?_ time node different hash
  · rw [inv.loadCell_eq]
    exact held
  · rw [inv'.loadCell_eq]
    exact held'

/-- **Anti-entropy**: a round joins the requester's map with the peer's on the keys the
peer's ring assigns to it and changes nothing else; where both own every key and item hashes
tell tied records apart, a round each way makes the maps and their digests equal. -/
theorem exchange_joins {a : Syncer W C} {b : Syncer W' C'} {round : Round} (written : a.Written)
    (peer : b.Written) (pulls : round.Pulls a b) (faithful : DigestsFaithful a.hm b.hm) :
    let a' := a.performSync round
    (∀ k, b.isRequesterResponsible k a.nodeID = true →
        a'.hm.loadCell k (hashFunc k) =
          LastWriter.join rank (a.hm.loadCell k (hashFunc k)) (b.hm.loadCell k (hashFunc k))) ∧
      (∀ k, b.isRequesterResponsible k a.nodeID = false →
        a'.hm.loadCell k (hashFunc k) = a.hm.loadCell k (hashFunc k)) ∧
      exchange round (a, b) = (a', b) ∧
      ∀ back : Round, back.Pulls b a' → (∀ k, b.isRequesterResponsible k a.nodeID = true) →
        (∀ k, a.isRequesterResponsible k b.nodeID = true) → DigestsFaithful b.hm a'.hm → ItemsApart a.hm b.hm →
        let b' := b.performSync back
        (∀ k, a'.hm.loadCell k (hashFunc k) = b'.hm.loadCell k (hashFunc k)) ∧
          ShardedMap.SameDigests a'.hm b'.hm := by
  have cells := cell_performSync written peer pulls faithful
  have written' := written.performSync pulls
  have inv := written.resendable.inv
  have inv' := written'.resendable.inv
  have peerInv := peer.resendable.inv
  refine ⟨fun k owned => ?_, fun k other => ?_, rfl, fun back pullsBack owns ownsBack faithfulBack apart => ?_⟩
  · have joined := cells k
    rw [if_pos owned] at joined
    rw [inv'.loadCell_eq, inv.loadCell_eq, peerInv.loadCell_eq, joined]
  · have kept := cells k
    rw [other] at kept
    rw [inv'.loadCell_eq, inv.loadCell_eq, kept]
    rfl
  · have cellsBack := cell_performSync peer written' pullsBack faithfulBack
    have peerInv' := (peer.performSync pullsBack).resendable.inv
    have responsible : ∀ k, (a.performSync round).isRequesterResponsible k b.nodeID = true := fun k => by
      rw [isRequesterResponsible_performSync pulls, ownsBack k]
    have same : (a.performSync round).hm.cell hashFunc = (b.performSync back).hm.cell hashFunc := by
      funext k
      rw [cellsBack k, cells k, if_pos (owns k), if_pos (responsible k), LastWriter.join_join]
      exact fun v v' held held' tied => apart.eq_of_rank inv peerInv held held' tied
    refine ⟨fun k => ?_, inv'.sameDigests peerInv' same⟩
    rw [inv'.loadCell_eq, peerInv'.loadCell_eq]
    exact congrFun same k

/-- A round each way between nodes that own every key, with faithful digests for the two maps
that the first round compares. -/
structure RoundsEachWay (a : Syncer W C) (b : Syncer W' C') (round back : Round) : Prop where
  written : a.Written
  peer : b.Written
  owns : ∀ k, b.isRequesterResponsible k a.nodeID = true
  ownsBack : ∀ k, a.isRequesterResponsible k b.nodeID = true
  pulls : round.Pulls a b
  pullsBack : back.Pulls b (a.performSync round)
  faithful : DigestsFaithful a.hm b.hm

/-! ## What a round leaves alone -/

/-- A record of the peer that ranks no higher than the requester's own changes nothing, sent or not. -/
theorem cell_performSync_refused {a : Syncer W C} {b : Syncer W' C'} {round : Round} (written : a.Written)
    (peer : b.Written) (pulls : round.Pulls a b) {k : Key} {v w : Value} (held : a.hm.cell hashFunc k = some v)
    (theirs : b.hm.cell hashFunc k = some w) (lower : rank w ≤ rank v) :
    (a.performSync round).hm.cell hashFunc k = some v := by
  rw [hm_performSync pulls, cell_mergeAll written.resendable.inv, held]
  refine LastWriter.foldl_adopt_refused fun x offered => ?_
  have sent := (mem_offers_serverPull peer.resendable).mp offered
  rw [theirs] at sent
  rw [← Option.some.inj sent.2.1]
  exact lower

/-- Equal root digests end a round before anything is sent. -/
theorem cell_performSync_silent {a : Syncer W C} {b : Syncer W' C'} {round : Round} (written : a.Written)
    (peer : b.Written) (pulls : round.Pulls a b) (root : a.hm.rootDigest = b.hm.rootDigest) (k : Key) :
    (a.performSync round).hm.cell hashFunc k = a.hm.cell hashFunc k := by
  have none_sent : offers (round.response a b).requests k = [] := by
    refine List.eq_nil_iff_forall_not_mem.mpr fun v offered => ?_
    exact ((mem_offers_serverPull peer.resendable).mp offered).2.2.root root
  rw [hm_performSync pulls, cell_mergeAll written.resendable.inv, none_sent]
  rfl

end Rounds

/-! ## A round each way -/

instance (hm hm' : ShardedMap) (i : Fin shardCount) (b : Fin subBucketCount) : Decidable (Differs hm hm' i b) :=
  decidable_of_iff
    (hm.rootDigest ≠ hm'.rootDigest ∧ hm.digestOf i ≠ hm'.digestOf i ∧ hm.subDigestOf i b ≠ hm'.subDigestOf i b)
    ⟨fun differs => ⟨differs.1, differs.2.1, differs.2.2⟩, fun differs => ⟨differs.root, differs.shard, differs.bucket⟩⟩

section Evaluate

variable [Security]

theorem bucketPairs_mergeAll {reqs : List Request} {i : Fin shardCount} {b : Fin subBucketCount}
    (elsewhere : ∀ r ∈ reqs, ¬(shardIndex (hashFunc r.key) = i ∧ subIndex (hashFunc r.key) = b)) :
    (mergeAll newShardedMap reqs).bucketPairs i b = [] := by
  refine List.eq_nil_iff_forall_not_mem.mpr ?_
  rintro ⟨k, v⟩ member
  obtain ⟨held, place⟩ := (inv_mergeAll (ShardedMap.inv_new hashFunc) reqs).mem_entriesOf.mp member
  have top := top_mergeAll reqs k
  rw [held] at top
  obtain ⟨r, sent, rfl, rfl⟩ := mem_offers.mp top.1
  exact elsewhere r sent place

/-- Only the sub-buckets of the keys that were written need to be looked at. -/
theorem DigestsFaithful.of_keys {reqs reqs' : List Request}
    (places : ∀ r ∈ reqs ++ reqs',
      ((mergeAll newShardedMap reqs).bucketPairs (shardIndex (hashFunc r.key)) (subIndex (hashFunc r.key))).Perm
          ((mergeAll newShardedMap reqs').bucketPairs (shardIndex (hashFunc r.key)) (subIndex (hashFunc r.key))) ∨
        Differs (mergeAll newShardedMap reqs) (mergeAll newShardedMap reqs') (shardIndex (hashFunc r.key))
          (subIndex (hashFunc r.key))) :
    DigestsFaithful (mergeAll newShardedMap reqs) (mergeAll newShardedMap reqs') := by
  have all : ∀ i b, ((mergeAll newShardedMap reqs).bucketPairs i b).Perm
      ((mergeAll newShardedMap reqs').bucketPairs i b) ∨
        Differs (mergeAll newShardedMap reqs) (mergeAll newShardedMap reqs') i b := by
    intro i b
    by_cases placed : ∃ r ∈ reqs ++ reqs', shardIndex (hashFunc r.key) = i ∧ subIndex (hashFunc r.key) = b
    · obtain ⟨r, member, rfl, rfl⟩ := placed
      exact places r member
    · have elsewhere : ∀ r ∈ reqs ++ reqs', ¬(shardIndex (hashFunc r.key) = i ∧ subIndex (hashFunc r.key) = b) :=
        fun r member place => placed ⟨r, member, place⟩
      rw [bucketPairs_mergeAll fun r member => elsewhere r (List.mem_append_left _ member),
        bucketPairs_mergeAll fun r member => elsewhere r (List.mem_append_right _ member)]
      exact Or.inl (List.Perm.refl _)
  exact ⟨fun same i b => (all i b).resolve_right fun differs => differs.root same,
    fun i same b => (all i b).resolve_right fun differs => differs.shard same,
    fun i b same => (all i b).resolve_right fun differs => differs.bucket same⟩

/-- Faithfulness is a matter of the records alone. -/
theorem DigestsFaithful.congr {hm hm' other other' : ShardedMap} (faithful : DigestsFaithful hm hm')
    (inv : hm.Inv hashFunc) (inv' : hm'.Inv hashFunc) (otherInv : other.Inv hashFunc) (otherInv' : other'.Inv hashFunc)
    (same : other.cell hashFunc = hm.cell hashFunc) (same' : other'.cell hashFunc = hm'.cell hashFunc) :
    DigestsFaithful other other' := by
  have hashes : ∀ k, (other.cell hashFunc k).map Value.itemHash = (hm.cell hashFunc k).map Value.itemHash :=
    fun k => by rw [same]
  have hashes' : ∀ k, (other'.cell hashFunc k).map Value.itemHash = (hm'.cell hashFunc k).map Value.itemHash :=
    fun k => by rw [same']
  have pairs {i b} (perm : (hm.bucketPairs i b).Perm (hm'.bucketPairs i b)) :
      (other.bucketPairs i b).Perm (other'.bucketPairs i b) :=
    ((otherInv.bucketPairs_perm inv same i b).trans perm).trans (inv'.bucketPairs_perm otherInv' same'.symm i b)
  refine ⟨fun root i b => pairs (faithful.root ?_ i b), fun i shard b => pairs (faithful.shard i ?_ b),
    fun i b bucket => pairs (faithful.bucket i b ?_)⟩
  · rw [← (otherInv.sameDigests inv same).rootDigest, root, (otherInv'.sameDigests inv' same').rootDigest]
  · rw [← otherInv.digestOf_eq inv hashes, shard, otherInv'.digestOf_eq inv' hashes']
  · rw [← otherInv.subDigestOf_eq inv hashes, bucket, otherInv'.subDigestOf_eq inv' hashes']

/-- Only the keys that were written need to be looked at. -/
theorem ItemsApart.of_keys {reqs reqs' : List Request}
    (keys : ∀ r ∈ reqs, ∀ v ∈ (mergeAll newShardedMap reqs).loadCell r.key (hashFunc r.key),
      ∀ v' ∈ (mergeAll newShardedMap reqs').loadCell r.key (hashFunc r.key),
        v.timestamp = v'.timestamp → v.nodeID = v'.nodeID → v ≠ v' → v.itemHash ≠ v'.itemHash) :
    ItemsApart (mergeAll newShardedMap reqs) (mergeAll newShardedMap reqs') := by
  intro k v v' held held' time node different
  have top := top_mergeAll reqs k
  rw [← (inv_mergeAll (ShardedMap.inv_new hashFunc) reqs).loadCell_eq, held] at top
  obtain ⟨r, sent, rfl, -⟩ := mem_offers.mp top.1
  exact keys r sent v held v' held' time node different

theorem published_nopWal {C : Type} [Clocker C] (reqs : List Request) (sw : StorageWriter NopWal C) :
    Published sw reqs := by
  induction reqs generalizing sw with
  | nil => trivial
  | cons r rest ih =>
    have first : (sw.apply r).1 = none := by
      rw [StorageWriter.apply_eq, StorageWriter.persist]
      split <;> rfl
    exact ⟨first, ih _⟩

end Evaluate

open Reference

/-- Two nodes of weight one. -/
def pairRing : HashRing := (newHashRing.addNodeWithWeight [97] 1).addNodeWithWeight [98] 1

theorem mem_owners_pairRing (k : Key) : ∀ id ∈ [[97], [98]], (pairRing.getOwners k 2).contains id = true := by
  have vnodes : pairRing.vnodes.length = 2 := by decide +kernel
  have within : pairRing.search k ≤ 2 := vnodes ▸ List.findIdx_le_length
  have owners : pairRing.getOwners k 2 = pairRing.walk 2 (pairRing.search k) 2 [] := by
    have target : pairRing.target 2 = 2 := by decide +kernel
    rw [HashRing.getOwners, vnodes, target, if_neg (by decide), if_neg (by decide)]
    have two : (2 : Int).toNat = 2 := rfl
    rw [two]
  have walks : ∀ start ∈ List.range 3, ∀ id ∈ [[97], [98]], (pairRing.walk 2 start 2 []).contains id = true := by
    decide +kernel
  rw [owners]
  exact walks _ (List.mem_range.mpr (Nat.lt_succ_of_le within))

/-- A node of the pair after the given writes, without a log. -/
def pairNode (id : NodeID) (reqs : List Request) : Syncer NopWal MockStorageClock where
  writer := (newStorageWriter newShardedMap NopWal.mk (MockStorageClock.mk 0)).run reqs
  ring := pairRing
  replicationFactor := 2
  singleNode := false
  nodeID := id

theorem hm_pairNode (id : NodeID) (reqs : List Request) : (pairNode id reqs).hm = mergeAll newShardedMap reqs :=
  StorageWriter.hm_run _ reqs

theorem responsible_pairNode (id : NodeID) (reqs : List Request) (k : Key) :
    ∀ requester ∈ [[97], [98]], (pairNode id reqs).isRequesterResponsible k requester = true := by
  intro requester member
  rw [Syncer.isRequesterResponsible]
  exact Bool.or_eq_true_iff.mpr (Or.inr (mem_owners_pairRing k requester member))

theorem written_pairNode (id : NodeID) (reqs : List Request) : (pairNode id reqs).Written :=
  ⟨NopWal.mk, MockStorageClock.mk 0, reqs, rfl⟩

/-- New maps from every pool, walked in the order of the ids. -/
def freshLease : Lease where
  shards := newShardMap
  buckets := newBucketMap
  shardOrder := ⟨List.finRange shardCount, List.Perm.refl _⟩
  bucketOrder := ⟨List.finRange shardCount, List.Perm.refl _⟩

/-- A round that ends up at the given peer. -/
def roundWith (peer : Syncer NopWal MockStorageClock) : Round where
  members := [[1], [2]]
  self := [1]
  choice := 0
  client _ := .ok fun req => .ok (serverPull peer newBucketMap freshLease req)
  lease := freshLease
  peerBuckets := newBucketMap
  peerLease := freshLease

theorem pulls_roundWith (a b : Syncer NopWal MockStorageClock) : (roundWith b).Pulls a b where
  answered := ⟨[2], _, rfl, rfl, rfl⟩
  published := published_nopWal _ _

/-! ### Two nodes and a round each way -/

/-- The nodes `a` and `b` after the given writes, and then `a` after pulling from `b`. -/
def pulling (writes writes' : List Request) : Syncer NopWal MockStorageClock :=
  (pairNode [97] writes).performSync (roundWith (pairNode [98] writes'))

/-- And then `b` after pulling from that. -/
def pullingBack (writes writes' : List Request) : Syncer NopWal MockStorageClock :=
  (pairNode [98] writes').performSync (roundWith (pulling writes writes'))

section BothWays

variable {writes writes' : List Request}

theorem written_pulling : (pulling writes writes').Written :=
  (written_pairNode [97] writes).performSync (pulls_roundWith _ _)

theorem cell_pulling (faithful : DigestsFaithful (mergeAll newShardedMap writes) (mergeAll newShardedMap writes')) :
    (pulling writes writes').hm.cell hashFunc = (mergeAll newShardedMap (writes ++ writes')).cell hashFunc := by
  rw [← hm_pairNode [97] writes, ← hm_pairNode [98] writes'] at faithful
  exact cell_performSync_owner (written_pairNode [97] writes) (written_pairNode [98] writes') (pulls_roundWith _ _)
    faithful (fun k => responsible_pairNode [98] writes' k [97] (by decide)) (by rw [hm_pairNode]) (by rw [hm_pairNode])

theorem roundsEachWay (faithful : DigestsFaithful (mergeAll newShardedMap writes) (mergeAll newShardedMap writes')) :
    RoundsEachWay (pairNode [97] writes) (pairNode [98] writes') (roundWith (pairNode [98] writes'))
      (roundWith (pulling writes writes')) where
  written := written_pairNode [97] writes
  peer := written_pairNode [98] writes'
  owns k := responsible_pairNode [98] writes' k [97] (by decide)
  ownsBack k := responsible_pairNode [97] writes k [98] (by decide)
  pulls := pulls_roundWith _ _
  pullsBack := pulls_roundWith _ _
  faithful := by rwa [hm_pairNode, hm_pairNode]

theorem faithful_pulling (faithful : DigestsFaithful (mergeAll newShardedMap writes) (mergeAll newShardedMap writes'))
    (back : DigestsFaithful (mergeAll newShardedMap writes') (mergeAll newShardedMap (writes ++ writes'))) :
    DigestsFaithful (pairNode [98] writes').hm (pulling writes writes').hm := by
  have inv := fun reqs => inv_mergeAll (ShardedMap.inv_new hashFunc) reqs
  exact back.congr (inv _) (inv _) (written_pairNode [98] writes').resendable.inv written_pulling.resendable.inv
    (by rw [hm_pairNode]) (cell_pulling faithful)

end BothWays

/-- Two records, one of them about to be deleted by the other node. -/
def twoRecords : List Request := [.set ⟨[1], [10], 5, [97]⟩, .set ⟨[2], [20], 9, [97]⟩]

def laterDelete : List Request := [.delete ⟨[1], 7, [98]⟩]

/-- A round each way between the two nodes: the newer tombstone goes to `a`, the other record to `b`. -/
theorem exchange_joins_bothWays :
    (pulling twoRecords laterDelete).hm.loadCell [1] (hashFunc [1]) =
        (pairNode [98] laterDelete).hm.loadCell [1] (hashFunc [1]) ∧
      ShardedMap.SameDigests (pulling twoRecords laterDelete).hm (pullingBack twoRecords laterDelete).hm := by
  have faithful : DigestsFaithful (mergeAll newShardedMap twoRecords) (mergeAll newShardedMap laterDelete) :=
    .of_keys (by decide +kernel)
  have faithfulBack := faithful_pulling faithful (.of_keys (by decide +kernel))
  have apart : ItemsApart (pairNode [97] twoRecords).hm (pairNode [98] laterDelete).hm := by
    rw [hm_pairNode, hm_pairNode]
    exact .of_keys (by decide +kernel)
  have rounds := roundsEachWay faithful
  obtain ⟨join, _, _, bothWays⟩ := exchange_joins rounds.written rounds.peer rounds.pulls rounds.faithful
  refine ⟨(join [1] (rounds.owns [1])).trans (by decide +kernel), ?_⟩
  exact (bothWays _ rounds.pullsBack rounds.owns rounds.ownsBack faithfulBack apart).2

/-- A datum that has the XXH64 of sixteen zeros. -/
def zerosTwin : Bytes := [1, 0, 0, 0, 0, 0, 0, 0, 84, 23, 112, 233, 90, 165, 134, 81]

/-- The key `z`, and `jl` that lies in the same sub-bucket. -/
def zerosAndMate : List Request := [.set ⟨[122], List.replicate 16 0, 5, [110]⟩, .set ⟨[106, 108], [1], 5, [110]⟩]

/-- The key `z` with the same timestamp, node and item hash, and another datum. -/
def twinWrite : List Request := [.set ⟨[122], zerosTwin, 5, [110]⟩]

/-- `a` and `b` at timestamp 2, `c` at 1. -/
def twoNewer : List Request := [.set ⟨[97], [1], 2, [110]⟩, .set ⟨[98], [2], 2, [110]⟩, .set ⟨[99], [3], 1, [110]⟩]

/-- `a` and `b` at timestamp 1, `c` at 5: once `c` has caught up, the timestamps cancel out. -/
def oneNewer : List Request := [.set ⟨[97], [1], 1, [110]⟩, .set ⟨[98], [2], 1, [110]⟩, .set ⟨[99], [3], 5, [110]⟩]

/-- Records that tie keep two nodes apart. -/
theorem cell_pulling_tied :
    (pulling zerosAndMate twinWrite).hm.cell hashFunc [122] = some (record (.set ⟨[122], List.replicate 16 0, 5, [110]⟩)) ∧
      (pullingBack zerosAndMate twinWrite).hm.cell hashFunc [122] = some (record (.set ⟨[122], zerosTwin, 5, [110]⟩)) := by
  have held : (pairNode [97] zerosAndMate).hm.cell hashFunc [122] =
      some (record (.set ⟨[122], List.replicate 16 0, 5, [110]⟩)) := by
    rw [hm_pairNode]
    decide +kernel
  have theirs : (pairNode [98] twinWrite).hm.cell hashFunc [122] = some (record (.set ⟨[122], zerosTwin, 5, [110]⟩)) := by
    rw [hm_pairNode]
    decide +kernel
  have tied : rank (record (.set ⟨[122], List.replicate 16 0, 5, [110]⟩)) =
      rank (record (.set ⟨[122], zerosTwin, 5, [110]⟩)) := by
    rw [rank_eq_iff]
    decide +kernel
  have first := cell_performSync_refused (written_pairNode [97] zerosAndMate) (written_pairNode [98] twinWrite)
    (pulls_roundWith _ _) held theirs tied.ge
  exact ⟨first, cell_performSync_refused (written_pairNode [98] twinWrite) written_pulling (pulls_roundWith _ _) theirs
    first tied.le⟩

/-- Digests that agree by accident keep the second round from sending anything. -/
theorem cell_pulling_cancelled :
    (pulling twoNewer oneNewer).hm.cell hashFunc [97] = some (record (.set ⟨[97], [1], 2, [110]⟩)) ∧
      (pullingBack twoNewer oneNewer).hm.cell hashFunc [97] = some (record (.set ⟨[97], [1], 1, [110]⟩)) := by
  have faithful : DigestsFaithful (mergeAll newShardedMap twoNewer) (mergeAll newShardedMap oneNewer) :=
    .of_keys (by decide +kernel)
  have inv := inv_mergeAll (ShardedMap.inv_new hashFunc) (twoNewer ++ oneNewer)
  have root : (pairNode [98] oneNewer).hm.rootDigest = (pulling twoNewer oneNewer).hm.rootDigest := by
    rw [(written_pulling.resendable.inv.sameDigests inv (cell_pulling faithful)).rootDigest, hm_pairNode]
    decide +kernel
  constructor
  · rw [cell_pulling faithful]
    decide +kernel
  · rw [pullingBack, cell_performSync_silent (written_pairNode [98] oneNewer) written_pulling (pulls_roundWith _ _) root,
      hm_pairNode]
    decide +kernel

/-- A round each way that leaves the maps different, although the digests are faithful for the
maps of the two nodes: once two records tie with equal item hashes, which faithful digests in the
second round do not help against, and once the digests of the second round are not faithful. -/
theorem exchange_leaves_apart :
    (RoundsEachWay (pairNode [97] zerosAndMate) (pairNode [98] twinWrite) (roundWith (pairNode [98] twinWrite))
        (roundWith (pulling zerosAndMate twinWrite)) ∧
      DigestsFaithful (pairNode [98] twinWrite).hm (pulling zerosAndMate twinWrite).hm ∧
      (pulling zerosAndMate twinWrite).hm.loadCell [122] (hashFunc [122]) ≠
        (pullingBack zerosAndMate twinWrite).hm.loadCell [122] (hashFunc [122])) ∧
    RoundsEachWay (pairNode [97] twoNewer) (pairNode [98] oneNewer) (roundWith (pairNode [98] oneNewer))
        (roundWith (pulling twoNewer oneNewer)) ∧
      ItemsApart (pairNode [97] twoNewer).hm (pairNode [98] oneNewer).hm ∧
      (pulling twoNewer oneNewer).hm.loadCell [97] (hashFunc [97]) ≠
        (pullingBack twoNewer oneNewer).hm.loadCell [97] (hashFunc [97]) := by
  have load (writes writes' : List Request) (k : Key) :
      (pulling writes writes').hm.loadCell k (hashFunc k) = (pulling writes writes').hm.cell hashFunc k ∧
        (pullingBack writes writes').hm.loadCell k (hashFunc k) = (pullingBack writes writes').hm.cell hashFunc k := by
    have back : (pullingBack writes writes').Written := (written_pairNode [98] writes').performSync (pulls_roundWith _ _)
    exact ⟨written_pulling.resendable.inv.loadCell_eq k, back.resendable.inv.loadCell_eq k⟩
  refine ⟨?_, ?_⟩
  · have faithful : DigestsFaithful (mergeAll newShardedMap zerosAndMate) (mergeAll newShardedMap twinWrite) :=
      .of_keys (by decide +kernel)
    refine ⟨roundsEachWay faithful, faithful_pulling faithful (.of_keys (by decide +kernel)), ?_⟩
    rw [(load _ _ _).1, (load _ _ _).2, cell_pulling_tied.1, cell_pulling_tied.2]
    decide +kernel
  · have faithful : DigestsFaithful (mergeAll newShardedMap twoNewer) (mergeAll newShardedMap oneNewer) :=
      .of_keys (by decide +kernel)
    refine ⟨roundsEachWay faithful, ?_, ?_⟩
    · rw [hm_pairNode, hm_pairNode]
      exact .of_keys (by decide +kernel)
    · rw [(load _ _ _).1, (load _ _ _).2, cell_pulling_cancelled.1, cell_pulling_cancelled.2]
      decide +kernel

end Oryx.Entropy
