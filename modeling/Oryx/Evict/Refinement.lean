import Oryx.Evict.Linked

/-!
# The linked shard as a list

Each operation does to the list that the arena represents what the list model of the shard
does, and keeps the representation. The data of the entries, in the order of the list, and
the queue are what the list model is about; which objects carry the data, and which lie in
the pool, it does not say.
-/

namespace Oryx.Evict
set_option autoImplicit false
open Oryx.Library

/-- The arena represents some list and shows the given shard; a call that waits is to put in
the given entry, if any. -/
def Refines (theirs : Ptr → LinkedEntry → Prop) (pending : Option Entry) (a : Arena) (s : LruShard) : Prop :=
  ∃ ps, Rep theirs a ps a.shard.hand ∧ a.view ps = s ∧ ∀ w, a.shard.waiting = some w → w.insert = pending

namespace Rep

variable {theirs : Ptr → LinkedEntry → Prop} {pending : Option Entry} {a : Arena} {ps l r hand : List Ptr} {e : Ptr}

theorem refines (rep : Rep theirs a ps []) (idle : a.shard.waiting = none) {s : LruShard} (view : a.view ps = s) :
    Refines theirs pending a s := by
  refine ⟨ps, ?_, view, fun w waits => by cases idle.symm.trans waits⟩
  rwa [LinkedShard.hand, idle]

/-- An entry that is taken out is no longer shown, and keeps its key. -/
theorem view_takeOut (rep : Rep theirs a (l ++ e :: r) hand) :
    (a.takeOut e).view (l ++ r) = a.shard.view ((l ++ r).map a.entryAt) ∧
      ((a.takeOut e).heap e).key = (a.heap e).key ∧ (a.takeOut e).shard.waiting = a.shard.waiting := by
  have rewires := rep.chained.remove.2
  exact ⟨rewires.view _, congrArg Entry.key (congrFun rewires.data e), rewires.waiting⟩

theorem sendOldest (rep : Rep theirs a ps [e]) (idle : a.shard.waiting = none) :
    Refines theirs none (a.sendOldest e) ((a.view ps).sendEvict ⟨(a.heap e).key, .capacity⟩) := by
  unfold Arena.sendOldest
  generalize EvictMsg.mk (a.heap e).key .capacity = msg
  by_cases room : a.shard.evictCh.length < a.shard.evictCap
  · obtain ⟨released, entries⟩ := (rep.setEvictCh (a.shard.evictCh ++ [msg])).release
    simp only [if_pos room]
    refine released.refines idle ?_
    rw [Arena.view, entries, LruShard.sendEvict]
    exact (if_pos room).symm
  · simp only [if_neg room]
    refine ⟨ps, rep.setWaiting _, ?_, fun w waits => by cases waits; rfl⟩
    rw [LruShard.sendEvict]
    exact (if_neg room).symm

theorem evictOldest (rep : Rep theirs a ps []) (idle : a.shard.waiting = none) :
    Refines theirs none a.evictOldest (a.view ps).evictOldest := by
  have tail := rep.tail_eq
  rcases List.eq_nil_or_concat' ps with rfl | ⟨l, e, rfl⟩
  · have unchanged : a.evictOldest = a := by simp only [Arena.evictOldest, tail, List.getLast?_nil]
    rw [unchanged]
    exact rep.refines idle rfl
  · obtain ⟨view, key, waiting⟩ := rep.view_takeOut
    have sent := rep.takeOut.sendOldest (waiting.trans idle)
    rw [view, key] at sent
    have last : (a.view (l ++ [e])).entries.getLast? = some (a.entryAt e) := by simp
    have front : (a.view (l ++ [e])).entries.dropLast = (l ++ []).map a.entryAt := by simp
    simp only [Arena.evictOldest, tail, List.getLast?_concat, LruShard.evictOldest, last, front]
    exact sent

theorem delete (rep : Rep theirs a ps []) (idle : a.shard.waiting = none) (hKey : HashKey) :
    Refines theirs none (a.delete hKey) ((a.view ps).delete hKey) := by
  unfold Arena.delete LruShard.delete
  cases found : a.shard.cache[hKey]? with
  | none =>
    refine rep.refines idle ?_
    have other := (rep.absent_iff hKey).mp found
    have kept : (ps.map a.entryAt).filter (fun x => x.hash ≠ hKey) = ps.map a.entryAt :=
      List.filter_eq_self.mpr (by simpa using other)
    exact congrArg a.shard.view kept.symm
  | some e =>
    obtain ⟨member, rfl⟩ := (rep.keyed hKey e).mp found
    obtain ⟨l, r, rfl⟩ := List.append_of_mem member
    obtain ⟨view, -, waiting⟩ := rep.view_takeOut
    obtain ⟨released, entries⟩ := rep.takeOut.release
    have hash := rep.chained.remove.2.hash e
    rw [Arena.takeOut, hash] at view released entries
    refine released.refines (waiting.trans idle) ?_
    rw [Arena.view, entries]
    refine view.trans ?_
    exact congrArg a.shard.view rep.hit.2.symm

end Rep

theorem LruShard.entries_evictOldest (s : LruShard) : s.evictOldest.entries = s.entries.dropLast := by
  unfold LruShard.evictOldest
  split
  · rename_i none
    rw [List.getLast?_eq_none_iff.mp none]
    rfl
  · unfold LruShard.sendEvict
    split <;> rfl

/-- The end of `seen` for a hash that is not cached: the entry goes in, or waits to go in. -/
theorem Refines.admit {theirs : Ptr → LinkedEntry → Prop} {a : Arena} {s : LruShard} (refines : Refines theirs none a s)
    (entry : Entry) (absent : ∀ x ∈ s.entries, x.hash ≠ entry.hash) (choice : Nat) :
    Refines theirs (some entry)
      (match a.shard.waiting with
        | none => a.insert entry choice
        | some w => a.setWaiting (some { w with insert := some entry }))
      (match s.loop with
        | .running => { s with entries := entry :: s.entries }
        | _ => s) := by
  obtain ⟨ps, rep, rfl, -⟩ := refines
  cases waiting : a.shard.waiting with
  | none =>
    have loop := Arena.loop_of_idle waiting ps
    rw [LinkedShard.hand, waiting] at rep
    obtain ⟨e, inserted, idle, view⟩ := rep.insert entry ((rep.absent_iff _).mpr absent) choice
    simp only [loop]
    refine inserted.refines (idle.trans waiting) (view.trans ?_)
    simp only [Arena.view, LinkedShard.view, waiting]
  | some w =>
    have loop := Arena.loop_of_waiting waiting ps
    simp only [loop]
    refine ⟨ps, ?_, ?_, fun w waits => by cases waits; rfl⟩
    · have held : a.shard.hand = (a.setWaiting (some { w with insert := some entry })).shard.hand := by
        simp [LinkedShard.hand, Arena.setWaiting, waiting]
      rw [← held]
      exact rep.setWaiting _
    · simp only [Arena.view, LinkedShard.view, waiting, Arena.setWaiting]
      rfl

namespace Rep

variable {theirs : Ptr → LinkedEntry → Prop} {a : Arena} {ps : List Ptr}

theorem full_iff (rep : Rep theirs a ps []) (bounded : ps.length ≤ a.shard.capacity.toNat) :
    UInt32.ofNat a.shard.cache.size ≥ a.shard.capacity ↔ (a.view ps).entries.length ≥ (a.view ps).capacity.toNat := by
  have small : ps.length < 2 ^ 32 := Nat.lt_of_le_of_lt bounded a.shard.capacity.toNat_lt
  have length : (a.view ps).entries.length = ps.length := by simp
  rw [rep.size_eq, length, ge_iff_le, UInt32.le_iff_toNat_le, UInt32.toNat_ofNat_of_lt' small]
  rfl

theorem seen (rep : Rep theirs a ps []) (idle : a.shard.waiting = none) (bounded : ps.length ≤ a.shard.capacity.toNat)
    (expiring : 0 < a.shard.ttl.tdiv 10) (key : Key) (hkey : HashKey) (now jitter : Int) (choice : Nat) :
    Refines theirs (some ⟨now + lifetime a.shard.ttl jitter, key, hkey⟩) (a.seen key hkey now jitter choice)
      ((a.view ps).seen key hkey now jitter) := by
  have positive := Int.not_le.mpr expiring
  unfold Arena.seen LruShard.seen
  rw [if_neg positive, if_neg (show ¬(a.view ps).ttl.tdiv 10 ≤ 0 from positive)]
  cases found : a.shard.cache[hkey]? with
  | some e =>
    obtain ⟨member, rfl⟩ := (rep.keyed hkey e).mp found
    obtain ⟨l, r, rfl⟩ := List.append_of_mem member
    obtain ⟨touched, waiting, view⟩ := rep.touch (now + lifetime a.shard.ttl jitter)
    obtain ⟨hit, kept⟩ := rep.hit
    refine touched.refines (waiting.trans idle) (view.trans ?_)
    have listed : (a.view (l ++ e :: r)).entries.find? (fun x => x.hash = (a.heap e).hash) = some (a.entryAt e) := hit
    simp only [listed]
    exact congrArg (fun es => a.shard.view ({ a.entryAt e with expiry := _ } :: es)) kept.symm
  | none =>
    have absent := (rep.absent_iff hkey).mp found
    have missed : (a.view ps).entries.find? (fun x => x.hash = hkey) = none :=
      List.find?_eq_none.mpr (by simpa using absent)
    simp only [missed, rep.full_iff bounded]
    refine Refines.admit ?_ ⟨now + lifetime a.shard.ttl jitter, key, hkey⟩ ?_ choice
    · split
      · exact rep.evictOldest idle
      · exact rep.refines idle rfl
    · split
      · rw [LruShard.entries_evictOldest]
        exact fun x member => absent x (List.dropLast_subset _ member)
      · exact absent

end Rep

/-- One turn of `evictExpired` on the list. -/
theorem LruShard.evictExpired_concat {s : LruShard} {es : List Entry} {e : Entry} (entries : s.entries = es ++ [e])
    (now : Int) :
    s.evictExpired now =
      if e.expiry > now then s
      else
        { s with entries := es, evictCh := Arena.offer s.evictCap s.evictCh ⟨e.key, .ttl⟩ }.evictExpired now := by
  unfold LruShard.evictExpired
  rw [entries, List.reverse_append, List.reverse_singleton, List.singleton_append]
  by_cases alive : e.expiry > now
  · simp [LruShard.expireLoop, alive, ← entries]
  · simp [LruShard.expireLoop, alive, Arena.offer]

namespace Rep

variable {theirs : Ptr → LinkedEntry → Prop} {a : Arena} {ps : List Ptr}

/-- The loop of `evictExpired` comes to its end within as many turns as there are entries. -/
theorem expireLoop (rep : Rep theirs a ps []) (idle : a.shard.waiting = none) (now : Int) {fuel : Nat}
    (enough : ps.length ≤ fuel) : Refines theirs none (a.expireLoop now fuel) ((a.view ps).evictExpired now) := by
  induction fuel generalizing a ps with
  | zero =>
    rw [List.eq_nil_of_length_eq_zero (Nat.le_zero.mp enough)] at rep ⊢
    exact rep.refines idle rfl
  | succ fuel ih =>
    have tail := rep.tail_eq
    rcases List.eq_nil_or_concat' ps with rfl | ⟨l, e, rfl⟩
    · have unchanged : a.expireLoop now (fuel + 1) = a := by
        simp only [Arena.expireLoop, tail, List.getLast?_nil]
      rw [unchanged]
      exact rep.refines idle rfl
    · have entries : (a.view (l ++ [e])).entries = l.map a.entryAt ++ [a.entryAt e] := by
        simp
      rw [LruShard.evictExpired_concat entries]
      simp only [Arena.expireLoop, tail, List.getLast?_concat]
      by_cases alive : (a.heap e).expiry > now
      · rw [if_pos alive, if_pos (show (a.entryAt e).expiry > now from alive)]
        exact rep.refines idle rfl
      · rw [if_neg alive, if_neg (show ¬(a.entryAt e).expiry > now from alive)]
        obtain ⟨view, key, waiting⟩ := rep.view_takeOut
        have taken := rep.takeOut
        rw [List.append_nil] at view taken
        generalize a.takeOut e = a₁ at *
        have cap : a₁.shard.evictCap = a.shard.evictCap := congrArg LruShard.evictCap view
        have queue : a₁.shard.evictCh = a.shard.evictCh := congrArg LruShard.evictCh view
        have queued := taken.setEvictCh (Arena.offer a₁.shard.evictCap a₁.shard.evictCh ⟨(a₁.heap e).key, .ttl⟩)
        obtain ⟨released, entries⟩ := queued.release
        have next := ih released (waiting.trans idle) (by simp at enough; omega)
        have shown (queue : List EvictMsg) : ((a₁.setEvictCh queue).release e).shard.view
            (l.map (a₁.setEvictCh queue).entryAt) = { a₁.view l with evictCh := queue } := rfl
        rw [Arena.view, entries, shown, view, cap, queue, key] at next
        rw [cap, queue, key]
        exact next

theorem evictExpired (rep : Rep theirs a ps []) (idle : a.shard.waiting = none) (now : Int) :
    Refines theirs none (a.evictExpired now) ((a.view ps).evictExpired now) :=
  rep.expireLoop idle now rep.size_eq.ge

/-- A receiver that finds a message lets a waiting call put in its entry. -/
theorem receive (rep : Rep theirs a ps a.shard.hand)
    (absent : ∀ w, a.shard.waiting = some w → ∀ entry, w.insert = some entry →
      ∀ x ∈ (a.view ps).entries, x.hash ≠ entry.hash) (choice : Nat) :
    a.receive choice = a ∨ ∃ queue, Refines theirs none (a.receive choice)
      { a.view ps with
        entries := (a.shard.waiting.bind Waiting.insert).toList ++ (a.view ps).entries
        evictCh := queue
        loop := .running } := by
  unfold Arena.receive
  cases a.shard.evictCh with
  | nil => exact Or.inl rfl
  | cons msg rest =>
    refine Or.inr ?_
    cases waiting : a.shard.waiting with
    | none =>
      rw [LinkedShard.hand, waiting] at rep
      have running := Arena.loop_of_idle waiting ps
      refine ⟨rest, (rep.setEvictCh rest).refines waiting ?_⟩
      rw [← running]
      rfl
    | some w =>
      rw [LinkedShard.hand, waiting] at rep
      have queued := (rep.setEvictCh (rest ++ [w.msg])).setWaiting none
      obtain ⟨released, entries⟩ := queued.release
      refine ⟨rest ++ [w.msg], ?_⟩
      cases inserts : w.insert with
      | none =>
        simp only [Option.bind_some, inserts]
        refine released.refines rfl ?_
        rw [Arena.view, entries]
        rfl
      | some entry =>
        have missing := (rep.absent_iff entry.hash).mpr (absent w waiting entry inserts)
        obtain ⟨e, inserted, idle, view⟩ := released.insert entry missing choice
        simp only [Option.bind_some, inserts]
        refine inserted.refines idle (view.trans ?_)
        rw [entries]
        rfl

end Rep

/-! ## One list only -/

/-- The objects reached from a pointer by following `next`, at most `fuel` of them. -/
def follow (heap : Ptr → LinkedEntry) : Nat → Option Ptr → List Ptr
  | 0, _ => []
  | _, none => []
  | fuel + 1, some p => p :: follow heap fuel (heap p).next

section Unique

variable {theirs theirs' : Ptr → LinkedEntry → Prop} {a : Arena} {ps ps' hand hand' : List Ptr}

/-- Following `next` from a node of the round leads through what is behind it. -/
theorem follow_isChain {x : Option Ptr} {fuel : Nat}
    (chain : (x :: (ps.map some ++ [none])).IsChain (Linked a.fd a.bk)) (enough : ps.length ≤ fuel) :
    follow a.heap fuel (a.fd x) = ps := by
  induction ps generalizing x fuel with
  | nil =>
    have stops : a.fd x = none := (List.isChain_pair.mp chain).1
    rw [stops]
    cases fuel <;> rfl
  | cons p ps ih =>
    obtain ⟨⟨forward, -⟩, later⟩ := List.isChain_cons_cons.mp chain
    cases fuel with
    | zero => simp at enough
    | succ fuel =>
      rw [forward, follow]
      exact congrArg (p :: ·) (ih later (Nat.le_of_succ_le_succ enough))

theorem Rep.follow_eq (rep : Rep theirs a ps hand) {fuel : Nat} (enough : ps.length ≤ fuel) :
    follow a.heap fuel a.shard.head = ps :=
  follow_isChain rep.chained.links enough

/-- An arena represents one list. -/
theorem Rep.unique (rep : Rep theirs a ps hand) (rep' : Rep theirs' a ps' hand') : ps = ps' := by
  rw [← rep.follow_eq (Nat.le_max_left ps.length ps'.length), rep'.follow_eq (Nat.le_max_right ps.length ps'.length)]

theorem Refines.rep {pending : Option Entry} {s : LruShard} (refines : Refines theirs pending a s) :
    ∃ ps, Rep theirs a ps a.shard.hand :=
  refines.imp fun _ shows => shows.1

/-- Whatever list an arena represents, it shows the shard that it refines. -/
theorem Refines.shows {pending : Option Entry} {s : LruShard} (refines : Refines theirs pending a s)
    (rep : Rep theirs' a ps hand) :
    a.view ps = s ∧ a.shard.waiting.bind Waiting.insert = if s.loop = .running then none else pending := by
  obtain ⟨qs, rep', view, inserts⟩ := refines
  obtain rfl := rep'.unique rep
  refine ⟨view, ?_⟩
  cases waiting : a.shard.waiting with
  | none =>
    rw [if_pos (view ▸ Arena.loop_of_idle waiting qs), Option.bind_none]
  | some w =>
    have blocked : s.loop = .blocked w.msg := view ▸ Arena.loop_of_waiting waiting qs
    rw [if_neg (by simp [blocked]), Option.bind_some, inserts w waiting]

end Unique
end Oryx.Evict
