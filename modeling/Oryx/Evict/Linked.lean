import Oryx.Evict.Shard
import Oryx.Library.Circular
import Oryx.Library.OrderedMap

/-!
# The linked entries of a shard

The lists, maps and pointers of `core/evict/eviction.go`. An entry is an object of the
heap; a shard knows its first and its last entry and finds an entry by its hash; objects
that are not in use lie in a pool that all shards share. The functions are those of the
source, on a shard and the memory. A send to `evictCh` that finds no room stops the call
in the middle, with the lock held, until a receiver takes a message.
-/

namespace Oryx.Evict
set_option autoImplicit false
open Oryx.Library

abbrev Ptr := Nat

/-- An `entry`. -/
structure LinkedEntry where
  expiry : Int
  prev : Option Ptr
  next : Option Ptr
  key : Key
  hash : HashKey
  deriving DecidableEq

/-- The objects, the pool of those out of use, and the next object to be allocated. -/
structure Memory where
  heap : Ptr → LinkedEntry
  pool : List Ptr
  fresh : Ptr

/-- A call that waits for room in `evictCh`: the entry that it has taken out, its message,
and the entry that `seen` is to put in. -/
structure Waiting where
  victim : Ptr
  msg : EvictMsg
  insert : Option Entry
  deriving DecidableEq

structure LinkedShard where
  head : Option Ptr
  tail : Option Ptr
  cache : Std.TreeMap HashKey Ptr
  evictCh : List EvictMsg
  evictCap : Nat
  capacity : UInt32
  ttl : Int
  waiting : Option Waiting

/-- What a call that holds the lock of a shard works on. -/
structure Arena where
  mem : Memory
  shard : LinkedShard

namespace Arena

def heap (a : Arena) : Ptr → LinkedEntry := a.mem.heap

/-- Change one object. -/
def modify (a : Arena) (p : Ptr) (f : LinkedEntry → LinkedEntry) : Arena :=
  { a with mem := { a.mem with heap := Function.update a.mem.heap p (f (a.mem.heap p)) } }

/-- Set the `next` of an entry, or the head of the shard. -/
def setNext (a : Arena) (x v : Option Ptr) : Arena :=
  match x with
  | some p => a.modify p fun e => { e with next := v }
  | none => { a with shard := { a.shard with head := v } }

/-- Set the `prev` of an entry, or the tail of the shard. -/
def setPrev (a : Arena) (x v : Option Ptr) : Arena :=
  match x with
  | some p => a.modify p fun e => { e with prev := v }
  | none => { a with shard := { a.shard with tail := v } }

def setCache (a : Arena) (cache : Std.TreeMap HashKey Ptr) : Arena := { a with shard := { a.shard with cache := cache } }

def setEvictCh (a : Arena) (evictCh : List EvictMsg) : Arena := { a with shard := { a.shard with evictCh := evictCh } }

def setWaiting (a : Arena) (waiting : Option Waiting) : Arena := { a with shard := { a.shard with waiting := waiting } }

def remove (a : Arena) (e : Ptr) : Arena :=
  let a := a.setNext (a.heap e).prev (a.heap e).next
  let a := a.setPrev (a.heap e).next (a.heap e).prev
  (a.setPrev (some e) none).setNext (some e) none

def pushFront (a : Arena) (e : Ptr) : Arena :=
  let a := (a.setNext (some e) a.shard.head).setPrev (some e) none
  let a := match a.shard.head with
    | some head => a.setPrev (some head) (some e)
    | none => a
  let a := a.setNext none (some e)
  if a.shard.tail = none then a.setPrev none (some e) else a

/-- `e.key = ""` and `pool.Put(e)`. -/
def release (a : Arena) (e : Ptr) : Arena :=
  let a := a.modify e fun e => { e with key := [] }
  { a with mem := { a.mem with pool := a.mem.pool ++ [e] } }

/-- `pool.Get()`: any object of the pool, or a new one. -/
def get (a : Arena) (choice : Nat) : Ptr × Arena :=
  match a.mem.pool[choice]? with
  | some e => (e, { a with mem := { a.mem with pool := a.mem.pool.eraseIdx choice } })
  | none =>
    let e := a.mem.fresh
    (e, { a.modify e fun _ => ⟨0, none, none, [], 0⟩ with mem.fresh := e + 1 })

/-- The end of `seen` for a hash that is not cached. -/
def insert (a : Arena) (entry : Entry) (choice : Nat) : Arena :=
  let e := (a.get choice).1
  let a := (a.get choice).2.modify e fun e => { e with key := entry.key, hash := entry.hash, expiry := entry.expiry }
  (a.setCache (a.shard.cache.insert entry.hash e)).pushFront e

/-- `remove`, and the removal of the entry's hash from the cache. -/
def takeOut (a : Arena) (e : Ptr) : Arena :=
  let a := a.remove e
  a.setCache (a.shard.cache.erase (a.heap e).hash)

/-- The send of `evictOldest`, and what follows it. -/
def sendOldest (a : Arena) (e : Ptr) : Arena :=
  let msg : EvictMsg := ⟨(a.heap e).key, .capacity⟩
  if a.shard.evictCh.length < a.shard.evictCap then (a.setEvictCh (a.shard.evictCh ++ [msg])).release e
  else a.setWaiting (some ⟨e, msg, none⟩)

def evictOldest (a : Arena) : Arena :=
  match a.shard.tail with
  | none => a
  | some e => (a.takeOut e).sendOldest e

/-- `seen`; `rand.Int64N` panics on a bound that is not positive, before anything is changed. -/
def seen (a : Arena) (key : Key) (hkey : HashKey) (now jitter : Int) (choice : Nat) : Arena :=
  if a.shard.ttl.tdiv 10 ≤ 0 then a
  else
    let expiry := now + lifetime a.shard.ttl jitter
    match a.shard.cache[hkey]? with
    | some e => ((a.modify e fun e => { e with expiry := expiry }).remove e).pushFront e
    | none =>
      let a := if UInt32.ofNat a.shard.cache.size ≥ a.shard.capacity then a.evictOldest else a
      match a.shard.waiting with
      | none => a.insert ⟨expiry, key, hkey⟩ choice
      | some w => a.setWaiting (some { w with insert := some ⟨expiry, key, hkey⟩ })

/-- A send that does not wait for room. -/
def offer (cap : Nat) (queue : List EvictMsg) (msg : EvictMsg) : List EvictMsg :=
  if queue.length < cap then queue ++ [msg] else queue

/-- The loop of `evictExpired`, with fuel for its turns. -/
def expireLoop (now : Int) : Nat → Arena → Arena
  | 0, a => a
  | fuel + 1, a =>
    match a.shard.tail with
    | none => a
    | some e =>
      if (a.heap e).expiry > now then a
      else
        let a := a.takeOut e
        let msg : EvictMsg := ⟨(a.heap e).key, .ttl⟩
        let a := a.setEvictCh (offer a.shard.evictCap a.shard.evictCh msg)
        expireLoop now fuel (a.release e)

/-- Each turn of the loop takes an entry out of the cache. -/
def evictExpired (a : Arena) (now : Int) : Arena := a.expireLoop now a.shard.cache.size

def delete (a : Arena) (hKey : HashKey) : Arena :=
  match a.shard.cache[hKey]? with
  | some e =>
    let a := a.remove e
    (a.setCache (a.shard.cache.erase hKey)).release e
  | none => a

/-- A receiver takes a message from `evictCh`; a call that waits for room goes on. -/
def receive (a : Arena) (choice : Nat) : Arena :=
  match a.shard.evictCh with
  | [] => a
  | _ :: rest =>
    match a.shard.waiting with
    | none => a.setEvictCh rest
    | some w =>
      let a := ((a.setEvictCh (rest ++ [w.msg])).setWaiting none).release w.victim
      match w.insert with
      | none => a
      | some entry => a.insert entry choice

/-! ## The links of an arena

The entries of a shard and its two ends are one circular list through the null pointer. -/

def fd (a : Arena) : Option Ptr → Option Ptr
  | none => a.shard.head
  | some p => (a.heap p).next

def bk (a : Arena) : Option Ptr → Option Ptr
  | none => a.shard.tail
  | some p => (a.heap p).prev

/-- The data of an object. -/
def entryAt (a : Arena) (p : Ptr) : Entry := ⟨(a.heap p).expiry, (a.heap p).key, (a.heap p).hash⟩

end Arena

/-- The objects that a waiting call holds. -/
def LinkedShard.hand (s : LinkedShard) : List Ptr := (s.waiting.map Waiting.victim).toList

/-- The shard with the given entries, as a list of data. -/
def LinkedShard.view (s : LinkedShard) (entries : List Entry) : LruShard where
  entries := entries
  ch := []
  chCap := 0
  delCh := []
  delCap := 0
  evictCh := s.evictCh
  evictCap := s.evictCap
  capacity := s.capacity
  ttl := s.ttl
  cancelled := false
  loop := match s.waiting with
    | none => .running
    | some w => .blocked w.msg

namespace Arena

/-- What the arena shows of the list `ps`. -/
def view (a : Arena) (ps : List Ptr) : LruShard := a.shard.view (ps.map a.entryAt)

variable {a : Arena} {e p : Ptr} {x v : Option Ptr}

@[simp] theorem entries_view (a : Arena) (ps : List Ptr) : (a.view ps).entries = ps.map a.entryAt := rfl

theorem loop_of_idle (idle : a.shard.waiting = none) (ps : List Ptr) : (a.view ps).loop = .running := by
  simp only [view, LinkedShard.view, idle]

theorem loop_of_waiting {w : Waiting} (waiting : a.shard.waiting = some w) (ps : List Ptr) :
    (a.view ps).loop = .blocked w.msg := by
  simp only [view, LinkedShard.view, waiting]

theorem heap_modify (f : LinkedEntry → LinkedEntry) :
    (a.modify e f).heap p = if p = e then f (a.heap e) else a.heap p := by
  simp only [heap, modify, Function.update_apply]

@[simp] theorem fd_setNext : (a.setNext x v).fd = Function.update a.fd x v := by
  funext y
  cases x with
  | none => cases y <;> rfl
  | some p =>
    cases y with
    | none => rfl
    | some q =>
      by_cases same : q = p
      · subst same
        simp [setNext, fd, heap_modify]
      · simp [setNext, fd, heap_modify, same]

@[simp] theorem bk_setNext : (a.setNext x v).bk = a.bk := by
  funext y
  cases x with
  | none => cases y <;> rfl
  | some p =>
    cases y with
    | none => rfl
    | some q =>
      simp only [setNext, bk, heap_modify]
      split <;> simp [*]

@[simp] theorem bk_setPrev : (a.setPrev x v).bk = Function.update a.bk x v := by
  funext y
  cases x with
  | none => cases y <;> rfl
  | some p =>
    cases y with
    | none => rfl
    | some q =>
      by_cases same : q = p
      · subst same
        simp [setPrev, bk, heap_modify]
      · simp [setPrev, bk, heap_modify, same]

@[simp] theorem fd_setPrev : (a.setPrev x v).fd = a.fd := by
  funext y
  cases x with
  | none => cases y <;> rfl
  | some p =>
    cases y with
    | none => rfl
    | some q =>
      simp only [setPrev, fd, heap_modify]
      split <;> simp [*]

end Arena

/-- What rewiring the objects `ps` leaves alone: the shard but for its two ends, the pool, the
data of every object and all of every other object. -/
structure Rewires (ps : List Ptr) (a a' : Arena) : Prop where
  shard : ∃ head tail, a'.shard = { a.shard with head := head, tail := tail }
  pool : a'.mem.pool = a.mem.pool
  fresh : a'.mem.fresh = a.mem.fresh
  data : a'.entryAt = a.entryAt
  others : ∀ p, p ∉ ps → a'.heap p = a.heap p

namespace Rewires

variable {ps : List Ptr} {a a' a'' : Arena} {x v : Option Ptr}

theorem refl : Rewires ps a a := ⟨⟨_, _, rfl⟩, rfl, rfl, rfl, fun _ _ => rfl⟩

theorem trans (first : Rewires ps a a') (second : Rewires ps a' a'') : Rewires ps a a'' := by
  obtain ⟨⟨_, _, shard⟩, pool, fresh, data, others⟩ := first
  obtain ⟨⟨head, tail, shard'⟩, pool', fresh', data', others'⟩ := second
  exact ⟨⟨head, tail, by rw [shard', shard]⟩, pool'.trans pool, fresh'.trans fresh, data'.trans data,
    fun p other => (others' p other).trans (others p other)⟩

theorem modify {p : Ptr} {f : LinkedEntry → LinkedEntry} (inside : p ∈ ps)
    (data : ∀ e, (f e).expiry = e.expiry ∧ (f e).key = e.key ∧ (f e).hash = e.hash) : Rewires ps a (a.modify p f) := by
  refine ⟨⟨_, _, rfl⟩, rfl, rfl, ?_, fun q other => ?_⟩
  · funext q
    simp only [Arena.entryAt, Arena.heap_modify]
    split
    · rename_i same
      simp [data, same]
    · rfl
  · rw [Arena.heap_modify, if_neg (ne_of_mem_of_not_mem inside other).symm]

theorem setNext (inside : x ∈ none :: ps.map some) : Rewires ps a (a.setNext x v) := by
  cases x with
  | none => exact ⟨⟨_, _, rfl⟩, rfl, rfl, rfl, fun _ _ => rfl⟩
  | some p => exact modify (f := fun e => { e with next := v }) (by simpa using inside) fun _ => ⟨rfl, rfl, rfl⟩

theorem setPrev (inside : x ∈ none :: ps.map some) : Rewires ps a (a.setPrev x v) := by
  cases x with
  | none => exact ⟨⟨_, _, rfl⟩, rfl, rfl, rfl, fun _ _ => rfl⟩
  | some p => exact modify (f := fun e => { e with prev := v }) (by simpa using inside) fun _ => ⟨rfl, rfl, rfl⟩

theorem cache (rewires : Rewires ps a a') : a'.shard.cache = a.shard.cache := by
  obtain ⟨head, tail, shard⟩ := rewires.shard
  rw [shard]

theorem hash (rewires : Rewires ps a a') (p : Ptr) : (a'.heap p).hash = (a.heap p).hash :=
  congrArg Entry.hash (congrFun rewires.data p)

theorem view (rewires : Rewires ps a a') (qs : List Ptr) : a'.view qs = a.view qs := by
  obtain ⟨head, tail, shard⟩ := rewires.shard
  rw [Arena.view, Arena.view, shard, rewires.data]
  rfl

theorem waiting (rewires : Rewires ps a a') : a'.shard.waiting = a.shard.waiting := by
  obtain ⟨head, tail, shard⟩ := rewires.shard
  rw [shard]

end Rewires

namespace Arena

variable {a : Arena} {e : Ptr} {ps l r : List Ptr}

/-- The entries of the list are linked from the head of the shard to its tail. -/
def Chained (a : Arena) (ps : List Ptr) : Prop := Circular a.fd a.bk none (ps.map some)

/-- The list only depends on the ends of the shard and the links of its own entries. -/
theorem Chained.congr {a' : Arena} (chained : a.Chained ps) (head : a'.shard.head = a.shard.head)
    (tail : a'.shard.tail = a.shard.tail)
    (same : ∀ p ∈ ps, (a'.heap p).next = (a.heap p).next ∧ (a'.heap p).prev = (a.heap p).prev) : a'.Chained ps := by
  refine Circular.congr chained (fun x member => ?_) fun x member => ?_
  · cases x with
    | none => exact head
    | some p => exact (same p (by simpa using member)).1
  · cases x with
    | none => exact tail
    | some p => exact (same p (by simpa using member)).2

theorem Chained.nodup_list (chained : a.Chained ps) : ps.Nodup :=
  (List.nodup_map_iff (Option.some_injective _)).mp (List.nodup_cons.mp chained.nodup).2

/-- The writes of `remove`, with the links it reads as they were before. -/
theorem remove_eq (apart : a.bk (some e) ≠ some e) :
    a.remove e = (((a.setNext (a.bk (some e)) (a.fd (some e))).setPrev (a.fd (some e)) (a.bk (some e))).setPrev
      (some e) none).setNext (some e) none := by
  have forward : ((a.setNext (a.bk (some e)) (a.fd (some e))).heap e).next = a.fd (some e) := by
    change (a.setNext (a.bk (some e)) (a.fd (some e))).fd (some e) = _
    rw [fd_setNext, Function.update_of_ne apart.symm]
  have backward : ((a.setNext (a.bk (some e)) (a.fd (some e))).heap e).prev = a.bk (some e) := by
    change (a.setNext (a.bk (some e)) (a.fd (some e))).bk (some e) = _
    rw [bk_setNext]
  have links : a.setNext (a.heap e).prev (a.heap e).next = a.setNext (a.bk (some e)) (a.fd (some e)) := rfl
  simp only [Arena.remove, links, forward, backward]

/-- `remove` takes an entry out of the list, and out of nothing else. -/
theorem Chained.remove (chained : a.Chained (l ++ e :: r)) :
    (a.remove e).Chained (l ++ r) ∧ Rewires (l ++ e :: r) a (a.remove e) := by
  have member : some e ∈ (l ++ e :: r).map some := by simp
  have inside : some e ∈ none :: (l ++ e :: r).map some := List.mem_cons_of_mem _ member
  have outside : ∀ x ∈ none :: (l ++ r).map some, x ≠ some e := by
    have nodup := List.nodup_middle.mp chained.nodup_list
    rintro x listed rfl
    exact (List.nodup_cons.mp nodup).1 (by simpa using listed)
  rw [remove_eq (chained.bk_ne member)]
  constructor
  · have unlinked := Circular.unlink (e := some e) (l := l.map some) (r := r.map some)
      (by simpa [Chained] using chained)
    rw [← List.map_append] at unlinked
    refine Circular.congr unlinked (fun x listed => ?_) fun x listed => ?_
    · simp only [fd_setNext, fd_setPrev, Function.update_of_ne (outside x listed)]
    · simp only [bk_setNext, bk_setPrev, Function.update_of_ne (outside x listed)]
  · exact (((Rewires.setNext (chained.bk_mem inside)).trans (Rewires.setPrev (chained.fd_mem inside))).trans
      (Rewires.setPrev inside)).trans (Rewires.setNext inside)

theorem Chained.ends (chained : a.Chained ps) : a.shard.head = none ↔ a.shard.tail = none := by
  have head : a.shard.head = (ps.map some).head?.getD none := chained.fd_sentinel
  have tail : a.shard.tail = (ps.map some).getLast?.getD none := chained.bk_sentinel
  rw [head, tail]
  cases ps with
  | nil => simp
  | cons p ps => simp [List.getLast?_cons]

/-- The writes of `pushFront`: the new entry becomes the neighbour of the old head, or of the
null pointer. -/
theorem pushFront_eq (ends : a.shard.head = none ↔ a.shard.tail = none) :
    a.pushFront e = (((a.setNext (some e) (a.fd none)).setPrev (some e) none).setPrev (a.fd none) (some e)).setNext none
      (some e) := by
  have kept (v : Option Ptr) : ((a.setNext (some e) v).setPrev (some e) none).shard = a.shard := rfl
  have first : a.fd none = a.shard.head := rfl
  cases head : a.shard.head with
  | none =>
    simp only [Arena.pushFront, kept, first, head]
    exact if_pos (ends.mp head)
  | some h =>
    simp only [Arena.pushFront, kept, first, head]
    exact if_neg fun none => by simp [ends.mpr none] at head

/-- `pushFront` puts an entry at the front of the list. -/
theorem Chained.pushFront (chained : a.Chained ps) (fresh : e ∉ ps) :
    (a.pushFront e).Chained (e :: ps) ∧ Rewires (e :: ps) a (a.pushFront e) := by
  have self : some e ∈ none :: (e :: ps).map some := by simp
  have head : a.fd none ∈ none :: (e :: ps).map some := by
    have old := chained.fd_mem List.mem_cons_self
    rw [List.mem_cons] at old ⊢
    exact old.imp id (List.mem_cons_of_mem _)
  rw [pushFront_eq chained.ends]
  constructor
  · simp only [Chained, fd_setNext, fd_setPrev, bk_setNext, bk_setPrev]
    exact chained.link (by simpa using fresh)
  · exact (((Rewires.setNext self).trans (Rewires.setPrev self)).trans (Rewires.setPrev head)).trans
      (Rewires.setNext List.mem_cons_self)

end Arena

/-! ## Who owns an object

A call works on the entries `ps` of its shard, the objects it holds in its hand and those of
the pool. `theirs` are the objects of the other shards. -/

/-- The arena represents the list `ps`: linked, found by hash, and apart from every other object in use. -/
structure Rep (theirs : Ptr → LinkedEntry → Prop) (a : Arena) (ps hand : List Ptr) : Prop where
  chained : a.Chained ps
  keyed : ∀ h p, a.shard.cache[h]? = some p ↔ p ∈ ps ∧ (a.heap p).hash = h
  nodup : (hand ++ ps ++ a.mem.pool).Nodup
  allocated : ∀ p ∈ hand ++ ps ++ a.mem.pool, p < a.mem.fresh
  apart : ∀ p entry, theirs p entry →
    p < a.mem.fresh ∧ a.heap p = entry ∧ p ∉ hand ++ ps ++ a.mem.pool

namespace Rep

variable {theirs : Ptr → LinkedEntry → Prop} {a a' : Arena} {ps ps' l r hand hand' : List Ptr} {e : Ptr}

/-- Objects change hands, and only objects that are not the other shards' change. -/
theorem transfer (rep : Rep theirs a ps hand) (chained : a'.Chained ps')
    (keyed : ∀ h p, a'.shard.cache[h]? = some p ↔ p ∈ ps' ∧ (a'.heap p).hash = h)
    (moved : (hand' ++ ps' ++ a'.mem.pool).Perm (hand ++ ps ++ a.mem.pool)) (fresh : a'.mem.fresh = a.mem.fresh)
    (others : ∀ p, p ∉ hand ++ ps ++ a.mem.pool → a'.heap p = a.heap p) : Rep theirs a' ps' hand' := by
  refine ⟨chained, keyed, moved.nodup_iff.mpr rep.nodup, fun p member => ?_, fun p entry owned => ?_⟩
  · rw [fresh]
    exact rep.allocated p (moved.mem_iff.mp member)
  · obtain ⟨old, same, outside⟩ := rep.apart p entry owned
    exact ⟨fresh ▸ old, (others p outside).trans same, fun member => outside (moved.mem_iff.mp member)⟩

theorem hash_inj (rep : Rep theirs a ps hand) {p q : Ptr} (first : p ∈ ps) (second : q ∈ ps)
    (same : (a.heap p).hash = (a.heap q).hash) : p = q := by
  have found := (rep.keyed _ p).mpr ⟨first, same⟩
  exact Option.some.inj (found.symm.trans ((rep.keyed _ q).mpr ⟨second, rfl⟩))

/-- No other entry of the list has the hash of `e`. -/
theorem hash_ne (rep : Rep theirs a (l ++ e :: r) hand) {p : Ptr} (member : p ∈ l ++ r) :
    (a.heap p).hash ≠ (a.heap e).hash := by
  intro same
  have gone := (List.nodup_cons.mp (List.nodup_middle.mp rep.chained.nodup_list)).1
  have inside : p ∈ l ++ e :: r := by
    rw [List.mem_append, List.mem_cons]
    exact (List.mem_append.mp member).imp id Or.inr
  exact gone (rep.hash_inj inside (by simp) same ▸ member)

/-- The cache has as many hashes as the list has entries. -/
theorem size_eq (rep : Rep theirs a ps hand) : a.shard.cache.size = ps.length := by
  have listed : a.shard.cache.toList.Perm (ps.map fun p => ((a.heap p).hash, p)) := by
    refine (List.perm_ext_iff_of_nodup (nodup_toList _) ?_).mpr fun pair => ?_
    · exact rep.chained.nodup_list.map fun p q same => (Prod.ext_iff.mp same).2
    · obtain ⟨h, p⟩ := pair
      rw [Std.TreeMap.mem_toList_iff_getElem?_eq_some, rep.keyed]
      simp
  rw [← Std.TreeMap.length_toList, listed.length_eq, List.length_map]

theorem notMem_of_hand (rep : Rep theirs a ps (e :: hand)) : e ∉ ps := fun member => by
  have nodup := rep.nodup
  rw [List.cons_append, List.cons_append, List.nodup_cons] at nodup
  exact nodup.1 (List.mem_append_left _ (List.mem_append_right _ member))

/-- An entry leaves the list and the cache. -/
theorem takeOut (rep : Rep theirs a (l ++ e :: r) hand) : Rep theirs (a.takeOut e) (l ++ r) (e :: hand) := by
  obtain ⟨chained, rewires⟩ := rep.chained.remove
  refine rep.transfer chained (fun h p => ?_) ?_ rewires.fresh fun p outside => ?_
  · change ((a.remove e).shard.cache.erase _)[h]? = some p ↔ p ∈ l ++ r ∧ ((a.remove e).heap p).hash = h
    rw [getElem?_erase_eq, rewires.cache, rewires.hash, rewires.hash]
    by_cases same : h = (a.heap e).hash
    · rw [if_pos same]
      exact iff_of_false nofun fun ⟨member, hash⟩ => rep.hash_ne member (hash.trans same)
    · rw [if_neg same, rep.keyed]
      refine and_congr_left fun hash => ?_
      have other : p ≠ e := fun eq => same (eq ▸ hash.symm)
      simp [other]
  · change (e :: hand ++ (l ++ r) ++ (a.remove e).mem.pool).Perm _
    rw [rewires.pool]
    exact ((List.perm_middle.append_left hand).append_right _ |>.trans (List.perm_middle.append_right _)).symm
  · refine rewires.others p fun member => outside ?_
    exact List.mem_append_left _ (List.mem_append_right _ member)

/-- Changes to the data of objects that are not in the list. -/
theorem modify (rep : Rep theirs a ps (e :: hand)) (f : LinkedEntry → LinkedEntry) :
    Rep theirs (a.modify e f) ps (e :: hand) := by
  have outside := rep.notMem_of_hand
  have same {p : Ptr} (member : p ∈ ps) : (a.modify e f).heap p = a.heap p := by
    rw [Arena.heap_modify, if_neg (ne_of_mem_of_not_mem member outside)]
  refine rep.transfer ?_ (fun h p => ?_) (List.Perm.refl _) rfl fun p other => ?_
  · refine rep.chained.congr rfl rfl fun p member => ?_
    rw [same member]
    exact ⟨rfl, rfl⟩
  · refine (rep.keyed h p).trans (and_congr_right fun member => ?_)
    rw [same member]
  · rw [Arena.heap_modify, if_neg (Ne.symm (ne_of_mem_of_not_mem (by simp) other))]

theorem entryAt_modify (rep : Rep theirs a ps (e :: hand)) (f : LinkedEntry → LinkedEntry) :
    ps.map (a.modify e f).entryAt = ps.map a.entryAt := by
  refine List.map_congr_left fun p member => ?_
  rw [Arena.entryAt, Arena.heap_modify, if_neg (ne_of_mem_of_not_mem member rep.notMem_of_hand)]
  rfl

/-- `pool.Put`. -/
theorem release (rep : Rep theirs a ps (e :: hand)) :
    Rep theirs (a.release e) ps hand ∧ ps.map (a.release e).entryAt = ps.map a.entryAt := by
  have renamed := rep.modify fun e => { e with key := [] }
  refine ⟨renamed.transfer renamed.chained renamed.keyed ?_ rfl fun p _ => rfl,
    rep.entryAt_modify fun e => { e with key := [] }⟩
  change (hand ++ ps ++ (a.mem.pool ++ [e])).Perm (e :: hand ++ ps ++ a.mem.pool)
  rw [← List.append_assoc]
  exact List.perm_append_singleton e _

/-- A new object is nobody's. -/
theorem alloc (rep : Rep theirs a ps hand) :
    Rep theirs { a with mem.fresh := a.mem.fresh + 1 } ps (a.mem.fresh :: hand) where
  chained := rep.chained
  keyed := rep.keyed
  nodup := List.nodup_cons.mpr ⟨fun member => Nat.lt_irrefl _ (rep.allocated _ member), rep.nodup⟩
  allocated p member := by
    rcases List.mem_cons.mp member with rfl | old
    · exact Nat.lt_succ_self _
    · exact Nat.lt_succ_of_lt (rep.allocated p old)
  apart p entry owned := by
    obtain ⟨old, same, outside⟩ := rep.apart p entry owned
    refine ⟨Nat.lt_succ_of_lt old, same, fun member => ?_⟩
    rcases List.mem_cons.mp member with rfl | inside
    · exact Nat.lt_irrefl _ old
    · exact outside inside

/-- `pool.Get`. -/
theorem get (rep : Rep theirs a ps hand) (choice : Nat) :
    Rep theirs (a.get choice).2 ps ((a.get choice).1 :: hand) ∧
      (a.get choice).2.shard = a.shard ∧ ps.map (a.get choice).2.entryAt = ps.map a.entryAt := by
  unfold Arena.get
  cases pooled : a.mem.pool[choice]? with
  | some e =>
    refine ⟨rep.transfer rep.chained rep.keyed ?_ rfl fun p _ => rfl, rfl, rfl⟩
    obtain ⟨bound, found⟩ := List.getElem?_eq_some_iff.mp pooled
    have taken := List.getElem_cons_eraseIdx_perm bound
    rw [found] at taken
    exact List.perm_middle.symm.trans (taken.append_left (hand ++ ps))
  | none =>
    have fresh := rep.alloc
    exact ⟨fresh.modify fun _ => ⟨0, none, none, [], 0⟩, rfl, fresh.entryAt_modify fun _ => ⟨0, none, none, [], 0⟩⟩

/-- An entry in the hand joins the list and the cache. -/
theorem link (rep : Rep theirs a ps (e :: hand)) (absent : a.shard.cache[(a.heap e).hash]? = none) :
    Rep theirs ((a.setCache (a.shard.cache.insert (a.heap e).hash e)).pushFront e) (e :: ps) hand := by
  have outside := rep.notMem_of_hand
  obtain ⟨chained, rewires⟩ := Arena.Chained.pushFront
    (a := a.setCache (a.shard.cache.insert (a.heap e).hash e)) rep.chained outside
  refine rep.transfer chained (fun h p => ?_) ?_ rewires.fresh fun p other => rewires.others p fun member => ?_
  · have hash := rewires.hash p
    rw [rewires.cache, hash]
    change (a.shard.cache.insert (a.heap e).hash e)[h]? = some p ↔ p ∈ e :: ps ∧ (a.heap p).hash = h
    rw [getElem?_insert_eq, List.mem_cons]
    by_cases same : h = (a.heap e).hash
    · subst same
      have unknown : ¬(p ∈ ps ∧ (a.heap p).hash = (a.heap e).hash) := by
        rw [← rep.keyed, absent]
        nofun
      rw [if_pos rfl, Option.some.injEq]
      constructor
      · rintro rfl
        exact ⟨Or.inl rfl, rfl⟩
      · rintro ⟨self | member, hash⟩
        · exact self.symm
        · exact absurd ⟨member, hash⟩ unknown
    · rw [if_neg same, rep.keyed]
      refine and_congr_left fun hash => ?_
      have other : p ≠ e := fun eq => same (eq ▸ hash.symm)
      simp [other]
  · rw [rewires.pool]
    exact List.perm_middle.append_right _
  · simp only [List.mem_append, List.mem_cons, not_or] at other member
    rcases member with self | member
    · exact other.1.1.1 self
    · exact other.1.2 member

/-- An entry is seen again: it gets a new expiry and moves to the front. -/
theorem touch (rep : Rep theirs a (l ++ e :: r) hand) (expiry : Int) :
    let a' := ((a.modify e fun e => { e with expiry := expiry }).remove e).pushFront e
    Rep theirs a' (e :: (l ++ r)) hand ∧ a'.shard.waiting = a.shard.waiting ∧
      a'.view (e :: (l ++ r)) = a.shard.view ({ a.entryAt e with expiry := expiry } :: (l ++ r).map a.entryAt) := by
  intro a'
  have listed : e ∈ hand ++ (l ++ e :: r) ++ a.mem.pool := by simp
  have gone := (List.nodup_cons.mp (List.nodup_middle.mp rep.chained.nodup_list)).1
  have stamped : (a.modify e fun e => { e with expiry := expiry }).Chained (l ++ e :: r) := by
    refine rep.chained.congr rfl rfl fun p _ => ?_
    rw [Arena.heap_modify]
    split <;> simp [*]
  obtain ⟨chained, first⟩ := stamped.remove
  obtain ⟨chained, second⟩ := chained.pushFront gone
  have hash (p : Ptr) : (a'.heap p).hash = (a.heap p).hash := by
    rw [second.hash, first.hash, Arena.heap_modify]
    split <;> simp [*]
  refine ⟨rep.transfer chained (fun h p => ?_) ?_ (second.fresh.trans first.fresh) fun p outside => ?_, ?_, ?_⟩
  · rw [second.cache, first.cache, hash]
    refine (rep.keyed h p).trans (and_congr_left fun _ => ?_)
    simp [or_left_comm]
  · rw [second.pool, first.pool]
    exact (List.perm_middle.symm.append_left hand).append_right _
  · simp only [List.mem_append, List.mem_cons, not_or] at outside
    rw [second.others p (by simp [outside]), first.others p (by simp [outside]), Arena.heap_modify,
      if_neg outside.1.2.2.1]
  · rw [second.waiting, first.waiting]
    rfl
  · rw [second.view, first.view, Arena.view, List.map_cons]
    refine congrArg₂ (fun e es => a.shard.view (e :: es)) ?_ (List.map_congr_left fun p member => ?_)
    · simp [Arena.entryAt, Arena.heap_modify]
    · simp only [Arena.entryAt, Arena.heap_modify, if_neg (ne_of_mem_of_not_mem member gone)]

/-- The end of `seen`, for a hash that is not cached. -/
theorem insert (rep : Rep theirs a ps hand) (entry : Entry) (absent : a.shard.cache[entry.hash]? = none)
    (choice : Nat) :
    ∃ e, Rep theirs (a.insert entry choice) (e :: ps) hand ∧ (a.insert entry choice).shard.waiting = a.shard.waiting ∧
      (a.insert entry choice).view (e :: ps) = a.shard.view (entry :: ps.map a.entryAt) := by
  obtain ⟨taken, shard, entries⟩ := rep.get choice
  simp only [Arena.insert]
  generalize (a.get choice).2 = a₁ at *
  generalize (a.get choice).1 = e at *
  have filled := taken.modify fun e => { e with key := entry.key, hash := entry.hash, expiry := entry.expiry }
  have same := taken.entryAt_modify fun e => { e with key := entry.key, hash := entry.hash, expiry := entry.expiry }
  have data : (a₁.modify e fun e => { e with key := entry.key, hash := entry.hash, expiry := entry.expiry }).entryAt e =
      entry := by
    simp [Arena.entryAt, Arena.heap_modify]
  generalize modified : (a₁.modify e fun e =>
    { e with key := entry.key, hash := entry.hash, expiry := entry.expiry }) = a₂ at *
  have kept : a₂.shard = a.shard := by
    rw [← modified]
    exact shard
  have hash : (a₂.heap e).hash = entry.hash := congrArg Entry.hash data
  have linked := filled.link (by rw [kept, hash]; exact absent)
  rw [hash] at linked
  obtain ⟨-, rewires⟩ := Arena.Chained.pushFront (a := a₂.setCache (a₂.shard.cache.insert entry.hash e)) filled.chained
    filled.notMem_of_hand
  refine ⟨e, linked, rewires.waiting.trans ?_, (rewires.view _).trans ?_⟩
  · change a₂.shard.waiting = _
    rw [kept]
  · change a₂.shard.view ((e :: ps).map a₂.entryAt) = _
    rw [kept, List.map_cons, data, same, entries]

/-- A hash that is cached, in the list of data. -/
theorem hit (rep : Rep theirs a (l ++ e :: r) hand) :
    ((l ++ e :: r).map a.entryAt).find? (fun x => x.hash = (a.heap e).hash) = some (a.entryAt e) ∧
      ((l ++ e :: r).map a.entryAt).filter (fun x => x.hash ≠ (a.heap e).hash) = (l ++ r).map a.entryAt := by
  have missed : ∀ x ∈ l.map a.entryAt, ¬x.hash = (a.heap e).hash := by
    rw [List.forall_mem_map]
    exact fun p member => rep.hash_ne (List.mem_append_left _ member)
  have passed : ∀ x ∈ r.map a.entryAt, ¬x.hash = (a.heap e).hash := by
    rw [List.forall_mem_map]
    exact fun p member => rep.hash_ne (List.mem_append_right _ member)
  rw [List.map_append, List.map_cons, List.map_append]
  constructor
  · rw [List.find?_append, List.find?_eq_none.mpr (by simpa using missed), Option.none_or, List.find?_cons_of_pos]
    simp [Arena.entryAt]
  · rw [List.filter_append, List.filter_cons_of_neg (by simp [Arena.entryAt]),
      List.filter_eq_self.mpr (by simpa using missed), List.filter_eq_self.mpr (by simpa using passed)]

theorem absent_iff (rep : Rep theirs a ps hand) (h : HashKey) :
    a.shard.cache[h]? = none ↔ ∀ x ∈ ps.map a.entryAt, x.hash ≠ h := by
  rw [Option.eq_none_iff_forall_ne_some, List.forall_mem_map]
  constructor
  · intro absent p member same
    exact absent p ((rep.keyed h p).mpr ⟨member, same⟩)
  · intro other p found
    obtain ⟨member, same⟩ := (rep.keyed h p).mp found
    exact other p member same

/-- The queue and the waiting call are no part of the representation. -/
theorem setEvictCh (rep : Rep theirs a ps hand) (evictCh : List EvictMsg) : Rep theirs (a.setEvictCh evictCh) ps hand :=
  ⟨rep.chained, rep.keyed, rep.nodup, rep.allocated, rep.apart⟩

theorem setWaiting (rep : Rep theirs a ps hand) (waiting : Option Waiting) :
    Rep theirs (a.setWaiting waiting) ps hand :=
  ⟨rep.chained, rep.keyed, rep.nodup, rep.allocated, rep.apart⟩

theorem tail_eq (rep : Rep theirs a ps hand) : a.shard.tail = ps.getLast? := by
  have tail : a.shard.tail = (ps.map some).getLast?.getD none := rep.chained.bk_sentinel
  rw [tail, List.getLast?_map]
  cases ps.getLast? <;> rfl

end Rep

end Oryx.Evict
