import Mathlib.Algebra.BigOperators.Fin
import Mathlib.Data.UInt
import Oryx.Library.XorSum
import Oryx.Library.OrderedMap
import Oryx.Hashmap.ShardedMap

/-!
# The representation invariant of the sharded map

Five redundant pieces of state are kept beside the trees of a shard: the roots
that lock-free readers see, the rolling digest and the count of each sub-bucket,
and those of the shard. `Shard.Agrees` says that they are what the trees and the
cells determine; `Inv` adds that every key is stored where its hash says and that
no two keys share a cell. The three mutations of a shard (exchange of a cell,
insertion, removal) each keep it.
-/

namespace Oryx.Hashmap
set_option autoImplicit false
open Oryx.Library

/-- The item hash in the cell at address `r`. -/
def cellHash (ws : List Value) (r : Nat) : Digest := (ws[r]?).elim 0 Value.itemHash

/-- The addresses of a tree's cells. -/
def refs (tree : RadixTree) : List Nat := tree.toList.map Prod.snd

/-- The addresses are those that some key leads to. -/
theorem mem_refs {tree : RadixTree} {r : Nat} : r ∈ refs tree ↔ ∃ k : Key, tree[k]? = some r := by
  simp only [refs, List.mem_map, Prod.exists, Std.TreeMap.mem_toList_iff_getElem?_eq_some]
  constructor
  · rintro ⟨k, r', found, rfl⟩
    exact ⟨k, found⟩
  · rintro ⟨k, found⟩
    exact ⟨k, r, found, rfl⟩

/-- A new key adds its address, and no other. -/
theorem refs_insert {tree : RadixTree} {k : Key} (absent : tree[k]? = none) (r : Nat) :
    (refs (tree.insert k r)).Perm (r :: refs tree) :=
  (toList_insert_new absent r).map Prod.snd

/-- A removed key takes its address away, and no other. -/
theorem refs_erase {tree : RadixTree} {k : Key} {r : Nat} (present : tree[k]? = some r) :
    (refs tree).Perm (r :: refs (tree.erase k)) :=
  (toList_erase_present present).map Prod.snd

/-- Writing to a cell changes the hash at its own address. -/
theorem cellHash_set {ws : List Value} {r : Nat} (bound : r < ws.length) (v : Value) :
    cellHash (ws.set r v) = Function.update (cellHash ws) r v.itemHash := by
  funext x
  by_cases same : x = r
  · subst same
    simp [cellHash, bound]
  · simp [cellHash, same, List.getElem?_set_ne (Ne.symm same)]

/-- A fresh cell leaves the hashes of the others alone. -/
theorem cellHash_append_old {ws : List Value} {r : Nat} (bound : r < ws.length) (v : Value) :
    cellHash (ws ++ [v]) r = cellHash ws r := by
  simp [cellHash, List.getElem?_append_left bound]

theorem cellHash_append_new (ws : List Value) (v : Value) :
    cellHash (ws ++ [v]) ws.length = v.itemHash := by
  simp [cellHash]

/-- The rolling state of a shard is what its trees and the cells determine. -/
structure Shard.Agrees (ws : List Value) (s : Shard) : Prop where
  read : ∀ b, s.readBuckets b = some (s.buckets b)
  subDigest : ∀ b, s.subDigests b = xorSum ((refs (s.buckets b)).map (cellHash ws))
  shardDigest : s.shardDigest = xorSum ((List.finRange subBucketCount).map s.subDigests)
  subCount : ∀ b, s.subCounts b = UInt32.ofNat (s.buckets b).size
  shardCount : s.shardCount = UInt32.ofNat (∑ b, (s.buckets b).size)

namespace Shard

@[simp] theorem xorDigest_buckets (s : Shard) (b : Fin subBucketCount) (h : Digest) :
    (s.xorDigest b h).buckets = s.buckets := rfl

@[simp] theorem xorDigest_readBuckets (s : Shard) (b : Fin subBucketCount) (h : Digest) :
    (s.xorDigest b h).readBuckets = s.readBuckets := rfl

@[simp] theorem xorDigest_subCounts (s : Shard) (b : Fin subBucketCount) (h : Digest) :
    (s.xorDigest b h).subCounts = s.subCounts := rfl

@[simp] theorem xorDigest_shardCount (s : Shard) (b : Fin subBucketCount) (h : Digest) :
    (s.xorDigest b h).shardCount = s.shardCount := rfl

@[simp] theorem xorDigest_subDigests (s : Shard) (b : Fin subBucketCount) (h : Digest) :
    (s.xorDigest b h).subDigests = Function.update s.subDigests b (s.subDigests b ^^^ h) := rfl

@[simp] theorem forget_buckets (s : Shard) (b : Fin subBucketCount) (existing : Option Value) :
    (s.forget b existing).buckets = s.buckets := by
  cases existing <;> rfl

/-- Taking one hash out and putting another in is one change by their XOR. -/
theorem xorDigest_xorDigest (s : Shard) (b : Fin subBucketCount) (g h : Digest) :
    (s.xorDigest b g).xorDigest b h = s.xorDigest b (g ^^^ h) := by
  simp only [xorDigest, Function.update_self, Function.update_idem, xor_assoc]

/-- The shard digest stays the XOR of the sub-bucket digests: both move by `h`. -/
theorem xorDigest_balanced {s : Shard}
    (balanced : s.shardDigest = xorSum ((List.finRange subBucketCount).map s.subDigests))
    (b : Fin subBucketCount) (h : Digest) :
    (s.xorDigest b h).shardDigest =
      xorSum ((List.finRange subBucketCount).map (s.xorDigest b h).subDigests) := by
  rw [xorDigest_subDigests, xorSum_map_update (List.nodup_finRange _) (List.mem_finRange b)]
  change s.shardDigest ^^^ h = _
  rw [balanced, xor_assoc, xor_cancel_left]

/-- A change of cells that none of the shard's trees refers to is not seen. -/
theorem Agrees.frame {ws ws' : List Value} {s : Shard} (agrees : s.Agrees ws)
    (same : ∀ b, ∀ r ∈ refs (s.buckets b), cellHash ws' r = cellHash ws r) : s.Agrees ws' where
  read := agrees.read
  subDigest b := by rw [agrees.subDigest b]; exact (xorSum_congr (same b)).symm
  shardDigest := agrees.shardDigest
  subCount := agrees.subCount
  shardCount := agrees.shardCount

/-- Exchanging a cell's value with its hashes in the digests. -/
theorem Agrees.swap {ws : List Value} {s : Shard} (agrees : s.Agrees ws) {b : Fin subBucketCount}
    {r : Nat} {old : Value} (nodup : (refs (s.buckets b)).Nodup) (member : r ∈ refs (s.buckets b))
    (others : ∀ c, c ≠ b → r ∉ refs (s.buckets c)) (found : ws[r]? = some old) (v : Value) :
    ((s.xorDigest b old.itemHash).xorDigest b v.itemHash).Agrees (ws.set r v) := by
  have bound : r < ws.length := (List.getElem?_eq_some_iff.mp found).1
  have held : cellHash ws r = old.itemHash := by simp [cellHash, found]
  rw [xorDigest_xorDigest]
  constructor
  · exact agrees.read
  · intro c
    rw [cellHash_set bound]
    by_cases here : c = b
    · subst here
      simp only [xorDigest_subDigests, Function.update_self, xorDigest_buckets]
      rw [xorSum_map_update nodup member, agrees.subDigest c, held, xor_assoc]
    · simp only [xorDigest_subDigests, Function.update_of_ne here, xorDigest_buckets]
      rw [agrees.subDigest c]
      exact xorSum_congr fun x hx =>
        (Function.update_of_ne (fun e : x = r => others c here (e ▸ hx)) _ _).symm
  · exact xorDigest_balanced agrees.shardDigest b _
  · exact agrees.subCount
  · exact agrees.shardCount

/-- Counts are numbers modulo `2 ^ 32`, and go up with the number of keys. -/
theorem count_succ (n : Nat) : UInt32.ofNat (n + 1) = UInt32.ofNat n + 1 := UInt32.ofNat_add n 1

/-- They go down with it as well, through zero if they have wrapped around. -/
theorem count_pred (n : Nat) : UInt32.ofNat (n + 1) - 1 = UInt32.ofNat n := by
  rw [count_succ, UInt32.add_sub_cancel]

/-- The number of keys of a shard after one tree has been replaced. -/
theorem sum_size_update (f : Fin subBucketCount → RadixTree) (b : Fin subBucketCount) (tree : RadixTree) :
    (∑ c, (Function.update f b tree c).size) + (f b).size = (∑ c, (f c).size) + tree.size := by
  have split : ∀ g : Fin subBucketCount → RadixTree,
      ∑ c, (g c).size = (g b).size + ∑ c ∈ Finset.univ.erase b, (g c).size :=
    fun g => (Finset.add_sum_erase _ (fun c => (g c).size) (Finset.mem_univ b)).symm
  have rest : ∑ c ∈ Finset.univ.erase b, (Function.update f b tree c).size =
      ∑ c ∈ Finset.univ.erase b, (f c).size :=
    Finset.sum_congr rfl fun c hc => by rw [Function.update_of_ne (Finset.ne_of_mem_erase hc)]
  rw [split, split f, rest, Function.update_self]
  omega

/-- One tree is replaced, and the digests and counts follow it. -/
theorem Agrees.replace {ws : List Value} {s : Shard} (agrees : s.Agrees ws) (b : Fin subBucketCount) {tree : RadixTree}
    {hash : Digest} {size total : UInt32}
    (digest : s.subDigests b ^^^ hash = xorSum ((refs tree).map (cellHash ws)))
    (count : size = UInt32.ofNat tree.size)
    (counts : total = UInt32.ofNat (∑ c, (Function.update s.buckets b tree c).size)) :
    Shard.Agrees ws
      { (s.xorDigest b hash).setTree b tree with
        subCounts := Function.update s.subCounts b size
        shardCount := total } := by
  constructor
  · intro c
    simp only [setTree]
    by_cases here : c = b
    · subst here; simp
    · simp [Function.update_of_ne here, agrees.read c]
  · intro c
    simp only [setTree, xorDigest_subDigests, xorDigest_buckets]
    by_cases here : c = b
    · subst here
      rw [Function.update_self, Function.update_self, digest]
    · rw [Function.update_of_ne here, Function.update_of_ne here, agrees.subDigest c]
  · exact xorDigest_balanced agrees.shardDigest b _
  · intro c
    simp only [setTree, xorDigest_buckets]
    by_cases here : c = b
    · subst here
      rw [Function.update_self, Function.update_self, count]
    · rw [Function.update_of_ne here, Function.update_of_ne here, agrees.subCount c]
  · exact counts

/-- A new key: a fresh cell at the end of `ws`, one more key in both counts. -/
theorem Agrees.insert {ws : List Value} {s : Shard} (agrees : s.Agrees ws) {b : Fin subBucketCount}
    {k : Key} (bound : ∀ c, ∀ r ∈ refs (s.buckets c), r < ws.length)
    (absent : (s.buckets b)[k]? = none) (v : Value) :
    Shard.Agrees (ws ++ [v])
      { (s.xorDigest b v.itemHash).setTree b ((s.buckets b).insert k ws.length) with
        subCounts := Function.update s.subCounts b (s.subCounts b + 1)
        shardCount := s.shardCount + 1 } := by
  have old : s.Agrees (ws ++ [v]) := agrees.frame fun c r member => cellHash_append_old (bound c r member) v
  refine old.replace b ?_ ?_ ?_
  · rw [xorSum_perm ((refs_insert absent _).map _), List.map_cons, xorSum_cons, cellHash_append_new, old.subDigest b,
      LawfulXor.xor_comm]
  · rw [size_insert_new absent, agrees.subCount b, count_succ]
  · have sizes := sum_size_update s.buckets b ((s.buckets b).insert k ws.length)
    rw [size_insert_new absent] at sizes
    have more : (∑ c, (Function.update s.buckets b ((s.buckets b).insert k ws.length) c).size) =
        (∑ c, (s.buckets c).size) + 1 := by omega
    rw [more, agrees.shardCount, count_succ]

/-- A removed key: its hash leaves the digests, both counts go down by one. -/
theorem Agrees.delete {ws : List Value} {s : Shard} (agrees : s.Agrees ws) {b : Fin subBucketCount}
    {k : Key} {r : Nat} {old : Value} (present : (s.buckets b)[k]? = some r) (found : ws[r]? = some old) :
    Shard.Agrees ws
      { (s.xorDigest b old.itemHash).setTree b ((s.buckets b).erase k) with
        subCounts := Function.update s.subCounts b (s.subCounts b - 1)
        shardCount := s.shardCount - 1 } := by
  have held : cellHash ws r = old.itemHash := by simp [cellHash, found]
  refine agrees.replace b ?_ ?_ ?_
  · rw [agrees.subDigest b, xorSum_perm ((refs_erase present).map _), List.map_cons, xorSum_cons, held,
      LawfulXor.xor_comm old.itemHash, xor_cancel_right]
  · rw [agrees.subCount b, size_erase_present present, count_pred]
  · have sizes := sum_size_update s.buckets b ((s.buckets b).erase k)
    rw [size_erase_present present] at sizes
    have less : (∑ c, (s.buckets c).size) =
        (∑ c, (Function.update s.buckets b ((s.buckets b).erase k) c).size) + 1 := by omega
    rw [agrees.shardCount, less, count_pred]

end Shard

namespace ShardedMap

/-- Where the trees say the cell of `k` is, when `h` hashes the keys. -/
def dir (h : Key → HashKey) (sm : ShardedMap) (k : Key) : Option Nat :=
  ((sm.shards (shardIndex (h k))).buckets (subIndex (h k)))[k]?

/-- The record held under `k`. -/
def cell (h : Key → HashKey) (sm : ShardedMap) (k : Key) : Option Value :=
  (sm.dir h k).bind fun r => sm.wrappers[r]?

/-- **The representation invariant**, for keys hashed by `h`. -/
structure Inv [Security] (h : Key → HashKey) (sm : ShardedMap) : Prop where
  placed : ∀ {i b k r}, ((sm.shards i).buckets b)[k]? = some r → shardIndex (h k) = i ∧ subIndex (h k) = b
  bound : ∀ {k r}, sm.dir h k = some r → r < sm.wrappers.length
  apart : ∀ {k k' r}, sm.dir h k = some r → sm.dir h k' = some r → k = k'
  itemHash : ∀ {k v}, sm.cell h k = some v → v.itemHash = getItemHash (h k) v
  agrees : ∀ i, (sm.shards i).Agrees sm.wrappers

/-- Exchanging a cell leaves every tree as it is. -/
theorem buckets_swap (sm : ShardedMap) (i j : Fin shardCount) (b : Fin subBucketCount) (r : Nat) (v : Value) :
    ((sm.swap i b r v).shards j).buckets = (sm.shards j).buckets := by
  by_cases here : j = i
  · subst here
    simp only [swap, Function.update_self, Shard.xorDigest_buckets, Shard.forget_buckets]
  · simp only [swap, Function.update_of_ne here]

/-- A new key changes one tree. -/
theorem buckets_insert (sm : ShardedMap) (i j : Fin shardCount) (b c : Fin subBucketCount) (k : Key) (v : Value) :
    ((sm.insert i b k v).shards j).buckets c =
      if j = i ∧ c = b then ((sm.shards i).buckets b).insert k sm.wrappers.length
      else (sm.shards j).buckets c := by
  by_cases here : j = i
  · subst here
    by_cases same : c = b
    · subst same; simp [insert, Shard.setTree]
    · simp [insert, Shard.setTree, same]
  · simp [insert, here]

section Invariant

variable {h : Key → HashKey} {sm : ShardedMap}

theorem dir_swap (i : Fin shardCount) (b : Fin subBucketCount) (r : Nat) (v : Value) (k : Key) :
    (sm.swap i b r v).dir h k = sm.dir h k := by
  simp only [dir, buckets_swap]

/-- A new key leads to the fresh cell at the end of the heap. -/
theorem dir_insert (k k' : Key) (v : Value) :
    (sm.insert (shardIndex (h k)) (subIndex (h k)) k v).dir h k' =
      if k' = k then some sm.wrappers.length else sm.dir h k' := by
  simp only [dir, buckets_insert]
  by_cases same : k' = k
  · subst same
    simp
  · simp only [same, if_false]
    split
    · rename_i here
      rw [getElem?_insert_eq, if_neg same, here.1, here.2]
    · rfl

/-- A removal leaves the cell on the heap, where nothing refers to it any more. -/
theorem wrappers_delete (k : Key) (hash : HashKey) : (sm.delete k hash).wrappers = sm.wrappers := by
  simp only [delete]
  split <;> rfl

/-- A removal changes one tree. -/
theorem buckets_delete {k : Key} {r : Nat} (found : sm.dir h k = some r) (j : Fin shardCount)
    (c : Fin subBucketCount) :
    ((sm.delete k (h k)).shards j).buckets c =
      if j = shardIndex (h k) ∧ c = subIndex (h k) then
        ((sm.shards (shardIndex (h k))).buckets (subIndex (h k))).erase k
      else (sm.shards j).buckets c := by
  have found' : ((sm.shards (shardIndex (h k))).buckets (subIndex (h k)))[k]? = some r := found
  simp only [delete, found']
  by_cases here : j = shardIndex (h k)
  · subst here
    by_cases bucket : c = subIndex (h k)
    · subst bucket
      simp [Shard.setTree]
    · simp [Shard.setTree, bucket]
  · simp [here]

/-- A removed key leads nowhere. -/
theorem dir_delete {k : Key} {r : Nat} (found : sm.dir h k = some r) (k' : Key) :
    (sm.delete k (h k)).dir h k' = if k' = k then none else sm.dir h k' := by
  simp only [dir, buckets_delete found]
  by_cases same : k' = k
  · subst same
    simp
  · simp only [same, if_false]
    split
    · rename_i here
      rw [getElem?_erase_eq, if_neg same, here.1, here.2]
    · rfl

variable [Security]

/-- A key that is in any tree is in the one that its hash points to. -/
theorem Inv.dir_of_tree (inv : sm.Inv h) {i : Fin shardCount} {b : Fin subBucketCount} {k : Key} {r : Nat}
    (found : ((sm.shards i).buckets b)[k]? = some r) : sm.dir h k = some r := by
  obtain ⟨rfl, rfl⟩ := inv.placed found
  exact found

theorem Inv.refs_bound (inv : sm.Inv h) {i : Fin shardCount} {b : Fin subBucketCount} {r : Nat}
    (member : r ∈ refs ((sm.shards i).buckets b)) : r < sm.wrappers.length := by
  obtain ⟨k, found⟩ := mem_refs.mp member
  exact inv.bound (inv.dir_of_tree found)

/-- No two keys of a tree share a cell. -/
theorem Inv.nodup_refs (inv : sm.Inv h) (i : Fin shardCount) (b : Fin subBucketCount) :
    (refs ((sm.shards i).buckets b)).Nodup := by
  refine List.pairwise_map.mpr ((Std.TreeMap.distinct_keys_toList).imp_of_mem ?_)
  rintro ⟨k, r⟩ ⟨k', r'⟩ member member' distinct (same : r = r')
  subst same
  have found := inv.dir_of_tree (Std.TreeMap.mem_toList_iff_getElem?_eq_some.mp member)
  have found' := inv.dir_of_tree (Std.TreeMap.mem_toList_iff_getElem?_eq_some.mp member')
  exact distinct (by rw [inv.apart found found']; exact Std.ReflCmp.compare_self)

/-- A cell is referred to from its own place only. -/
theorem Inv.refs_place (inv : sm.Inv h) {k : Key} {r : Nat} (found : sm.dir h k = some r)
    {i : Fin shardCount} {b : Fin subBucketCount} (member : r ∈ refs ((sm.shards i).buckets b)) :
    shardIndex (h k) = i ∧ subIndex (h k) = b := by
  obtain ⟨k', found'⟩ := mem_refs.mp member
  obtain rfl := inv.apart found (inv.dir_of_tree found')
  exact inv.placed found'

/-- Every address that a key leads to has a record. -/
theorem Inv.cell_of_dir (inv : sm.Inv h) {k : Key} {r : Nat} (found : sm.dir h k = some r) :
    ∃ v, sm.wrappers[r]? = some v ∧ sm.cell h k = some v := by
  refine ⟨_, List.getElem?_eq_getElem (inv.bound found), ?_⟩
  simp [cell, found, List.getElem?_eq_getElem (inv.bound found)]

/-- So the keys without a record are those that lead nowhere. -/
theorem cell_eq_none (inv : sm.Inv h) {k : Key} : sm.cell h k = none ↔ sm.dir h k = none := by
  constructor
  · intro absent
    cases found : sm.dir h k with
    | none => rfl
    | some r =>
      obtain ⟨v, -, held⟩ := inv.cell_of_dir found
      rw [held] at absent
      cases absent
  · intro absent
    simp [cell, absent]

omit [Security] in
theorem dir_new (h : Key → HashKey) (k : Key) : newShardedMap.dir h k = none := Std.TreeMap.getElem?_emptyc

omit [Security] in
theorem cell_new (h : Key → HashKey) (k : Key) : newShardedMap.cell h k = none := by
  rw [cell, dir_new]
  rfl

/-- The empty map is in order. -/
theorem inv_new (h : Key → HashKey) : newShardedMap.Inv h := by
  have empty := dir_new h
  constructor
  · intro i b k r found
    have none : ((newShardedMap.shards i).buckets b)[k]? = none := Std.TreeMap.getElem?_emptyc
    rw [none] at found
    cases found
  · intro k r found; rw [empty] at found; cases found
  · intro k k' r found; rw [empty] at found; cases found
  · intro k v held; rw [cell, empty] at held; cases held
  · intro i
    refine ⟨fun _ => rfl, fun _ => rfl, ?_, fun _ => rfl, ?_⟩
    · exact (by decide : (0 : Digest) = xorSum ((List.finRange subBucketCount).map fun _ => 0))
    · change (0 : UInt32) = UInt32.ofNat (∑ b : Fin subBucketCount, (∅ : RadixTree).size)
      simp

/-- The item hashes after a write of one key. -/
theorem Inv.itemHash_update (inv : sm.Inv h) {k : Key} {v : Value} (hash : v.itemHash = getItemHash (h k) v) {k' : Key}
    {v' : Value} (held : Function.update (sm.cell h) k (some v) k' = some v') :
    v'.itemHash = getItemHash (h k') v' := by
  by_cases same : k' = k
  · subst same
    rw [Function.update_self, Option.some.injEq] at held
    exact held ▸ hash
  · rw [Function.update_of_ne same] at held
    exact inv.itemHash held

/-! ### Exchange of a cell -/

theorem Inv.cell_swap (inv : sm.Inv h) {k : Key} {r : Nat} (found : sm.dir h k = some r)
    (i : Fin shardCount) (b : Fin subBucketCount) (v : Value) :
    (sm.swap i b r v).cell h = Function.update (sm.cell h) k (some v) := by
  funext k'
  simp only [cell, dir_swap]
  by_cases same : k' = k
  · subst same
    simp [found, swap, inv.bound found]
  · rw [Function.update_of_ne same]
    cases found' : sm.dir h k' with
    | none => simp [cell, found']
    | some r' =>
      have other : r ≠ r' := fun e => same (inv.apart found' (e ▸ found))
      simp [cell, found', swap, List.getElem?_set_ne other]

/-- **Exchanging a cell** for a record with the right item hash keeps the invariant. -/
theorem Inv.swap (inv : sm.Inv h) {k : Key} {r : Nat} {v : Value} (found : sm.dir h k = some r)
    (hash : v.itemHash = getItemHash (h k) v) :
    (sm.swap (shardIndex (h k)) (subIndex (h k)) r v).Inv h := by
  constructor
  · intro i b k' r' found'
    rw [buckets_swap] at found'
    exact inv.placed found'
  · intro k' r' found'
    rw [dir_swap] at found'
    simpa [ShardedMap.swap] using inv.bound found'
  · intro k₁ k₂ r' found₁ found₂
    rw [dir_swap] at found₁ found₂
    exact inv.apart found₁ found₂
  · intro k' v' held
    rw [inv.cell_swap found] at held
    exact inv.itemHash_update hash held
  · intro i
    obtain ⟨old, oldCell, -⟩ := inv.cell_of_dir found
    by_cases here : i = shardIndex (h k)
    · subst here
      simp only [ShardedMap.swap, oldCell, Shard.forget, Function.update_self]
      refine (inv.agrees _).swap (inv.nodup_refs _ _) (mem_refs.mpr ⟨k, found⟩) ?_ oldCell v
      intro c other member
      exact other (inv.refs_place found member).2.symm
    · simp only [ShardedMap.swap, Function.update_of_ne here]
      refine (inv.agrees i).frame fun b r' member => ?_
      rw [cellHash_set (inv.bound found), Function.update_of_ne]
      rintro rfl
      exact here (inv.refs_place found member).1.symm

/-! ### A new key -/

theorem Inv.cell_insert (inv : sm.Inv h) (k : Key) (v : Value) :
    (sm.insert (shardIndex (h k)) (subIndex (h k)) k v).cell h = Function.update (sm.cell h) k (some v) := by
  funext k'
  simp only [cell, dir_insert]
  by_cases same : k' = k
  · subst same
    simp [insert]
  · rw [Function.update_of_ne same, if_neg same]
    cases found : sm.dir h k' with
    | none => simp [cell, found]
    | some r => simp [cell, found, insert, List.getElem?_append_left (inv.bound found)]

/-- **A new key** keeps the invariant. -/
theorem Inv.insert (inv : sm.Inv h) {k : Key} {v : Value} (absent : sm.dir h k = none)
    (hash : v.itemHash = getItemHash (h k) v) :
    (sm.insert (shardIndex (h k)) (subIndex (h k)) k v).Inv h := by
  have longer : (sm.insert (shardIndex (h k)) (subIndex (h k)) k v).wrappers.length = sm.wrappers.length + 1 := by
    simp [ShardedMap.insert]
  constructor
  · intro i b k' r found
    rw [buckets_insert] at found
    split at found
    · rename_i here
      by_cases same : k' = k
      · subst same
        exact ⟨here.1.symm, here.2.symm⟩
      · rw [getElem?_insert_eq, if_neg same] at found
        obtain ⟨place, bucket⟩ := inv.placed found
        exact ⟨place.trans here.1.symm, bucket.trans here.2.symm⟩
    · exact inv.placed found
  · intro k' r found
    rw [dir_insert] at found
    split at found
    · cases found; omega
    · have := inv.bound found; omega
  · intro k₁ k₂ r found₁ found₂
    rw [dir_insert] at found₁ found₂
    split at found₁ <;> split at found₂
    · simp_all
    · cases found₁
      have := inv.bound found₂
      omega
    · cases found₂
      have := inv.bound found₁
      omega
    · exact inv.apart found₁ found₂
  · intro k' v' held
    rw [inv.cell_insert] at held
    exact inv.itemHash_update hash held
  · intro i
    by_cases here : i = shardIndex (h k)
    · subst here
      simp only [ShardedMap.insert, Function.update_self]
      exact (inv.agrees _).insert (fun _ _ member => inv.refs_bound member) absent v
    · simp only [ShardedMap.insert, Function.update_of_ne here]
      exact (inv.agrees i).frame fun b r member => cellHash_append_old (inv.refs_bound member) v

/-! ### Removal -/

theorem Inv.cell_delete (inv : sm.Inv h) (k : Key) :
    (sm.delete k (h k)).cell h = Function.update (sm.cell h) k none := by
  funext k'
  cases found : sm.dir h k with
  | none =>
    have absent : ((sm.shards (shardIndex (h k))).buckets (subIndex (h k)))[k]? = none := found
    simp only [delete, absent]
    by_cases same : k' = k
    · subst same
      rw [Function.update_self, cell_eq_none inv, found]
    · rw [Function.update_of_ne same]
  | some r =>
    simp only [cell, dir_delete found, wrappers_delete]
    by_cases same : k' = k
    · subst same
      simp
    · rw [Function.update_of_ne same, if_neg same, cell]

/-- **Removing a key** keeps the invariant, also where there is nothing to remove. -/
theorem Inv.delete (inv : sm.Inv h) (k : Key) : (sm.delete k (h k)).Inv h := by
  cases found : sm.dir h k with
  | none =>
    have absent : ((sm.shards (shardIndex (h k))).buckets (subIndex (h k)))[k]? = none := found
    simpa only [ShardedMap.delete, absent] using inv
  | some r =>
    constructor
    · intro i b k' r' found'
      rw [buckets_delete found] at found'
      split at found'
      · rename_i here
        rw [getElem?_erase_eq] at found'
        split at found'
        · cases found'
        · obtain ⟨place, bucket⟩ := inv.placed found'
          exact ⟨place.trans here.1.symm, bucket.trans here.2.symm⟩
      · exact inv.placed found'
    · intro k' r' found'
      rw [dir_delete found] at found'
      rw [wrappers_delete]
      split at found'
      · cases found'
      · exact inv.bound found'
    · intro k₁ k₂ r' found₁ found₂
      rw [dir_delete found] at found₁ found₂
      split at found₁ <;> split at found₂ <;> first | cases found₁ | cases found₂ | exact inv.apart found₁ found₂
    · intro k' v held
      rw [inv.cell_delete] at held
      by_cases same : k' = k
      · subst same
        simp at held
      · rw [Function.update_of_ne same] at held
        exact inv.itemHash held
    · intro i
      rw [wrappers_delete]
      obtain ⟨old, oldCell, -⟩ := inv.cell_of_dir found
      have found' : ((sm.shards (shardIndex (h k))).buckets (subIndex (h k)))[k]? = some r := found
      simp only [ShardedMap.delete, found', oldCell, Shard.forget]
      by_cases here : i = shardIndex (h k)
      · subst here
        simp only [Function.update_self]
        exact (inv.agrees _).delete found' oldCell
      · simp only [Function.update_of_ne here]
        exact inv.agrees i

end Invariant

end ShardedMap

end Oryx.Hashmap
