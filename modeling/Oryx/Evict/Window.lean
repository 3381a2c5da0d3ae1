import Mathlib.Data.List.TakeWhile
import Oryx.Evict.Lru
import Oryx.Evict.Notifications

/-!
# The time window of expiry

An entry expires its TTL and a jitter after it was last seen, and `evictExpired` takes entries out
from the tail until it finds one that has not expired. The jitter makes the expiry times go up and
down along the list, but the times at which the entries were seen do not: the entries stand in
that order. So the scan takes out nothing that was seen within the TTL, and leaves nothing that was
seen longer ago than the TTL and a tenth of it. Both fail when the sum of TTL and jitter overflows.
-/

namespace Oryx.Evict
set_option autoImplicit false
open Oryx.Library

/-- The time that an operation reads from the clock. -/
def LinkedOp.now : LinkedOp → Option Int
  | .seen _ _ now _ _ => some now
  | .evictExpired now => some now
  | _ => none

/-- The jitter is one that `rand.Int64N` returns for a tenth of the TTL. -/
def LinkedOp.Jittered (ttl : Int) : LinkedOp → Prop
  | .seen _ _ _ jitter _ => 0 ≤ jitter ∧ jitter < ttl.tdiv 10
  | _ => True

/-- The clock does not go back. -/
def Clocked (calls : List (Nat × LinkedOp)) : Prop :=
  (calls.filterMap fun call => call.2.now).Pairwise (· ≤ ·)

namespace Watched

/-- The call that last saw the hash in shard `i`, and the time and jitter of that call. -/
def LastSeen (w : Watched) (calls : List (Nat × LinkedOp)) (i : Nat) (h : HashKey) (time jitter : Int) : Prop :=
  ∃ n key choice, w.lastSeen i h = n + 1 ∧ calls[n]? = some (i, .seen key h time jitter choice)

/-- What `evictExpired` at time `t` does on shard `i`: a hash that it takes out was last seen no later
than a TTL ago; and after it, unless another call holds the lock, every hash that is left was last
seen later than a TTL and a tenth of it ago. -/
structure Expires (w : Watched) (ttl : Int) (calls : List (Nat × LinkedOp)) (i : Nat) (t : Int) : Prop where
  spares : ∀ s s', w.lru.shards[i]? = some s → (w.step (i, .evictExpired t)).lru.shards[i]? = some s' →
    ∀ h p, s.cache[h]? = some p → s'.cache[h]? = none →
      ∃ time jitter, w.LastSeen calls i h time jitter ∧ time ≤ t - ttl
  clears : ∀ s s', w.lru.shards[i]? = some s → s.waiting = none →
    (w.step (i, .evictExpired t)).lru.shards[i]? = some s' → ∀ h p, s'.cache[h]? = some p →
      ∃ time jitter, w.LastSeen calls i h time jitter ∧ t - ttl - ttl.tdiv 10 < time

end Watched

/-! ## What an operation does to the entries -/

/-- The entries of the list, and the one that waits to go in. -/
def Arena.held (a : Arena) (ps : List Ptr) : List Entry :=
  (a.view ps).entries ++ (a.shard.waiting.bind Waiting.insert).toList

section Held

variable {theirs : Ptr → LinkedEntry → Prop} {lastSeen : HashKey → Nat} {calls : Nat} {a : Arena}
  {ps ps' hand : List Ptr} {e : Entry}

theorem Refines.held_eq {pending : Option Entry} {s : LruShard} (refines : Refines theirs pending a s)
    (rep : Rep theirs a ps hand) : a.held ps = s.entries ++ (if s.loop = .running then none else pending).toList := by
  obtain ⟨view, waits⟩ := refines.shows rep
  rw [Arena.held, view, waits]

theorem Refines.ttl_eq {pending : Option Entry} {s : LruShard} (refines : Refines theirs pending a s) :
    a.shard.ttl = s.ttl := by
  obtain ⟨ps, rep⟩ := refines.rep
  exact congrArg LruShard.ttl (refines.shows rep).1

/-- The entries after `seen`: those of other hashes, and the new one. -/
theorem Sees.mem {s s' : LruShard} {entry : Entry} (sees : Sees s entry s') (member : e ∈ s'.entries) :
    e ∈ s.entries ∧ e.hash ≠ entry.hash ∨ e.hash = entry.hash ∧ e.expiry = entry.expiry := by
  cases sees with
  | hit old _ hash _ entries =>
    rw [entries] at member
    rcases List.mem_cons.mp member with rfl | other
    · exact Or.inr ⟨hash, rfl⟩
    · obtain ⟨inside, differs⟩ := List.mem_filter.mp other
      exact Or.inl ⟨inside, by simpa using differs⟩
  | joins absent left room _ entries =>
    rw [entries] at member
    rcases List.mem_cons.mp member with rfl | other
    · exact Or.inr ⟨rfl, rfl⟩
    · have inside : e ∈ s.entries := by
        rcases room with ⟨rfl, -⟩ | ⟨rfl, -⟩
        · exact other
        · exact List.dropLast_subset _ other
      exact Or.inl ⟨inside, absent e inside⟩
  | waits absent _ _ entries =>
    rw [entries] at member
    have inside := List.dropLast_subset _ member
    exact Or.inl ⟨inside, absent e inside⟩

theorem Acts.ttl_eq {op : LinkedOp} (acts : Acts theirs a ps op) : (a.act op).shard.ttl = a.shard.ttl := by
  cases acts with
  | nothing _ same => rw [same]
  | takesOut _ _ refines _ frame => exact refines.ttl_eq.trans frame.2
  | sees _ _ _ _ _ _ _ _ refines _ frame => exact refines.ttl_eq.trans frame.2
  | resumes _ _ _ refines => exact refines.ttl_eq

/-- An entry that the shard has after an operation was there before, and its hash is not the one that
the operation sees; or it is the one that the operation sees, with the expiry of now. -/
theorem Acts.mem_held {op : LinkedOp} (acts : Acts theirs a ps op) (rep : Rep theirs a ps hand)
    {hand' : List Ptr} (rep' : Rep theirs (a.act op) ps' hand') (member : e ∈ (a.act op).held ps') :
    e ∈ a.held ps ∧ a.sees op ≠ some e.hash ∨
      a.sees op = some e.hash ∧ ∃ key now jitter choice,
        op = .seen key e.hash now jitter choice ∧ e.expiry = now + lifetime a.shard.ttl jitter := by
  cases acts with
  | nothing unseen same =>
    rw [same] at rep' member
    rw [rep'.unique rep] at member
    exact Or.inl ⟨member, by simp [unseen]⟩
  | takesOut s' unseen refines kept =>
    rw [refines.held_eq rep', ite_self, Option.toList_none, List.append_nil] at member
    exact Or.inl ⟨List.mem_append_left _ (kept.subset member), by simp [unseen]⟩
  | sees key hash now jitter choice s' called seen refines sees =>
    rw [refines.held_eq rep'] at member
    have cases : e ∈ (a.view ps).entries ∧ e.hash ≠ hash ∨
        e.hash = hash ∧ e.expiry = now + lifetime a.shard.ttl jitter := by
      rcases List.mem_append.mp member with listed | waiting
      · exact sees.mem listed
      · split at waiting
        · cases waiting
        · obtain rfl := Option.some.inj (Option.mem_toList.mp waiting)
          exact Or.inr ⟨rfl, rfl⟩
    rcases cases with ⟨inside, other⟩ | ⟨rfl, expiry⟩
    · refine Or.inl ⟨List.mem_append_left _ inside, ?_⟩
      rw [seen]
      exact fun same => other (Option.some.inj same).symm
    · exact Or.inr ⟨seen, key, now, jitter, choice, called, expiry⟩
  | resumes queue unseen _ refines =>
    rw [refines.held_eq rep', if_pos rfl, Option.toList_none, List.append_nil] at member
    exact Or.inl ⟨List.mem_append.mpr (List.mem_append.mp member).symm, by simp [unseen]⟩

end Held

/-! ## The scan on the list -/

namespace LruShard

variable {s : LruShard} {now : Int} {e : Entry}

/-- An entry stays, or it has expired. -/
theorem stays_or_expired (s : LruShard) (now : Int) (member : e ∈ s.entries) :
    e ∈ (s.evictExpired now).entries ∨ e.expiry ≤ now := by
  rw [s.entries_evictExpired_append now] at member
  rcases List.mem_append.mp member with left | out
  · exact Or.inl left
  · have expired := List.mem_takeWhile_imp (List.mem_reverse.mp out)
    exact Or.inr (by simpa using expired)

/-- The scan stops at an entry that has not expired. -/
theorem lt_expiry_of_last {z : Entry} (last : (s.evictExpired now).entries.getLast? = some z) : now < z.expiry := by
  rw [evictExpired, expireLoop_eq, List.getLast?_reverse] at last
  have stops := List.head?_dropWhile_not (fun e : Entry => decide (e.expiry ≤ now)) s.entries.reverse
  rw [last] at stops
  simpa using stops

/-- What is left is an entry that has not expired, and entries that were seen after it. -/
theorem left_seen_after {lastSeen : HashKey → Nat}
    (ordered : s.entries.Pairwise fun x y => lastSeen y.hash < lastSeen x.hash)
    (member : e ∈ (s.evictExpired now).entries) :
    ∃ z ∈ s.entries, now < z.expiry ∧ (e = z ∨ lastSeen z.hash < lastSeen e.hash) := by
  have isPrefix := s.entries_evictExpired now
  have left := ordered.sublist isPrefix.sublist
  rcases List.eq_nil_or_concat' (s.evictExpired now).entries with none | ⟨front, z, entries⟩
  · rw [none] at member
    cases member
  · have last : (s.evictExpired now).entries.getLast? = some z := by rw [entries, List.getLast?_concat]
    refine ⟨z, isPrefix.subset (List.mem_of_getLast? last), lt_expiry_of_last last, ?_⟩
    rw [entries] at member left
    rcases List.mem_append.mp member with before | self
    · exact Or.inr ((List.pairwise_append.mp left).2.2 e before z (List.mem_singleton_self z))
    · exact Or.inl (List.mem_singleton.mp self)

end LruShard

/-! ## Every entry is dated -/

theorem Clocked.le {calls : List (Nat × LinkedOp)} (clocked : Clocked calls) {m n : Nat} (before : m < n)
    {first second : Nat × LinkedOp} (earlier : calls[m]? = some first) (later : calls[n]? = some second) {t u : Int}
    (time : first.2.now = some t) (next : second.2.now = some u) : t ≤ u := by
  obtain ⟨bound, rfl⟩ := List.getElem?_eq_some_iff.mp earlier
  obtain ⟨bound', rfl⟩ := List.getElem?_eq_some_iff.mp later
  have ordered := List.pairwise_iff_getElem.mp (List.pairwise_filterMap.mp clocked)
  exact ordered m n bound bound' before t time u next

namespace Watched

variable {w : Watched} {ps : Nat → List Ptr} {ttl : Int} {past : List (Nat × LinkedOp)} {i : Nat} {h : HashKey}
  {time jitter : Int}

/-- The expiry of every entry is that of the call that last saw its hash. -/
structure Dated (ttl : Int) (past : List (Nat × LinkedOp)) (w : Watched) (ps : Nat → List Ptr) : Prop where
  inv : w.Inv ps
  counted : w.calls = past.length
  settings : ∀ (i : Nat) (s : LinkedShard), w.lru.shards[i]? = some s → s.ttl = ttl
  dated : ∀ (i : Nat) (s : LinkedShard), w.lru.shards[i]? = some s → ∀ e ∈ (w.lru.arena s).held (ps i),
    ∃ time jitter, w.LastSeen past i e.hash time jitter ∧ e.expiry = time + lifetime ttl jitter

theorem LastSeen.append (last : w.LastSeen past i h time jitter) {w' : Watched}
    (same : w'.lastSeen i h = w.lastSeen i h) (calls : List (Nat × LinkedOp)) :
    w'.LastSeen (past ++ calls) i h time jitter := by
  obtain ⟨n, key, choice, number, call⟩ := last
  refine ⟨n, key, choice, same.trans number, ?_⟩
  rw [List.getElem?_append_left (List.getElem?_eq_some_iff.mp call).1, call]

/-- The entries of a shard stay when a call on another one leaves the arena `a`. -/
theorem held_elsewhere {lastSeen : HashKey → Nat} {calls j : Nat} {a : Arena} {qs : List Ptr} {t : LinkedShard}
    (sound : Sound (w.theirs ps i) lastSeen calls a qs) (other : j ≠ i) (member : w.lru.shards[j]? = some t) :
    Arena.held ⟨a.mem, t⟩ (ps j) = (w.lru.arena t).held (ps j) := by
  have entries : (ps j).map (Arena.entryAt ⟨a.mem, t⟩) = (ps j).map (w.lru.arena t).entryAt := by
    refine List.map_congr_left fun p listed => ?_
    have owned : p ∈ t.hand ++ ps j := List.mem_append_right _ listed
    have same : a.mem.heap p = w.lru.mem.heap p := (sound.rep.apart p _ ⟨⟨j, t, other, member, owned⟩, rfl⟩).2.1
    change (⟨(a.mem.heap p).expiry, (a.mem.heap p).key, (a.mem.heap p).hash⟩ : Entry) = _
    rw [same]
    rfl
  exact congrArg (· ++ (t.waiting.bind Waiting.insert).toList) entries

/-- The entries of the shard on which an operation is called. -/
theorem Dated.dated_act (d : Dated ttl past w ps) {s : LinkedShard} (found : w.lru.shards[i]? = some s) {op : LinkedOp}
    {lastSeen : HashKey → Nat} {qs : List Ptr}
    (sound : Sound (w.theirs ps i) lastSeen (w.calls + 1) ((w.lru.arena s).act op) qs) {e : Entry}
    (held : e ∈ ((w.lru.arena s).act op).held qs) :
    ∃ time jitter, (w.step (i, op)).LastSeen (past ++ [(i, op)]) i e.hash time jitter ∧
      e.expiry = time + lifetime ttl jitter := by
  rw [step_eq found]
  rcases ((d.inv i s found).acts op).mem_held (d.inv i s found).rep sound.rep held with
    ⟨old, unseen⟩ | ⟨seen, key, now, jitter, choice, rfl, expiry⟩
  · obtain ⟨time, jitter, last, expiry⟩ := d.dated i s found e old
    refine ⟨time, jitter, last.append ?_ _, expiry⟩
    rw [lastSeen_leave_self]
    cases sees : (w.lru.arena s).sees op with
    | none => rfl
    | some hash =>
      refine Function.update_of_ne ?_ ..
      rintro rfl
      exact unseen sees
  · refine ⟨now, jitter, ⟨w.calls, key, choice, ?_, ?_⟩, ?_⟩
    · rw [lastSeen_leave_self, seen]
      exact Function.update_self ..
    · rw [d.counted, List.getElem?_concat_length]
    · rw [expiry]
      exact congrArg (fun ttl => now + lifetime ttl jitter) (d.settings i s found)

/-- **One call** keeps every entry dated. -/
theorem Dated.step (d : Dated ttl past w ps) (call : Nat × LinkedOp) :
    ∃ ps', Dated ttl (past ++ [call]) (w.step call) ps' := by
  obtain ⟨i, op⟩ := call
  have counted : w.calls + 1 = (past ++ [(i, op)]).length := by
    rw [d.counted, List.length_append, List.length_singleton]
  cases found : w.lru.shards[i]? with
  | none =>
    rw [step_of_missing found]
    refine ⟨ps, fun j t member => (d.inv j t member).later, counted, d.settings, ?_⟩
    intro j t member e held
    obtain ⟨time, jitter, last, expiry⟩ := d.dated j t member e held
    exact ⟨time, jitter, last.append rfl _, expiry⟩
  | some s =>
    have acts := (d.inv i s found).acts op
    obtain ⟨qs, sound, -⟩ := (d.inv i s found).act op
    have called (e : Entry) (held : e ∈ ((w.lru.arena s).act op).held qs) := d.dated_act found sound held
    rw [step_eq found] at called ⊢
    refine ⟨_, d.inv.leave found sound, counted, fun j t member => ?_, fun j t member e held => ?_⟩
    · by_cases self : j = i
      · subst self
        cases (shards_leave_self found _ _).symm.trans member
        exact acts.ttl_eq.trans (d.settings j s found)
      · rw [shards_leave_ne self] at member
        exact d.settings j t member
    · by_cases self : j = i
      · subst self
        cases (shards_leave_self found _ _).symm.trans member
        rw [Function.update_self] at held
        exact called e held
      · rw [shards_leave_ne self] at member
        rw [Function.update_of_ne self] at held
        have same := held_elsewhere sound self member
        obtain ⟨time, jitter, last, expiry⟩ := d.dated j t member e (same ▸ held)
        exact ⟨time, jitter, last.append (congrFun (lastSeen_leave_ne self ..) _) _, expiry⟩

/-- The order of the calls is the order of their times. -/
theorem LastSeen.le (clocked : Clocked past) {h' : HashKey} {time' jitter' : Int}
    (last : w.LastSeen past i h time jitter) (last' : w.LastSeen past i h' time' jitter')
    (before : w.lastSeen i h < w.lastSeen i h') : time ≤ time' := by
  obtain ⟨n, key, choice, number, call⟩ := last
  obtain ⟨n', key', choice', number', call'⟩ := last'
  exact clocked.le (show n < n' by omega) call call' rfl rfl

theorem LastSeen.jittered (draws : ∀ call ∈ past, call.2.Jittered ttl) (last : w.LastSeen past i h time jitter) :
    0 ≤ jitter ∧ jitter < ttl.tdiv 10 := by
  obtain ⟨n, key, choice, -, call⟩ := last
  exact draws _ (List.mem_of_getElem? call)

end Watched

/-- Durations whose sum does not overflow. -/
theorem lifetime_eq {ttl jitter : Int} (long : 10 ≤ ttl) (fits : ttl + ttl.tdiv 10 ≤ 2 ^ 63)
    (drawn : 0 ≤ jitter ∧ jitter < ttl.tdiv 10) : lifetime ttl jitter = ttl + jitter := by
  rw [lifetime, Int.bmod_eq_of_le] <;> omega

/-- A sum that overflows is negative. -/
theorem lifetime_neg {ttl : Int} (long : 10 ≤ ttl) (duration : ttl < 2 ^ 63) (overflows : 2 ^ 63 < ttl + ttl.tdiv 10) :
    lifetime ttl (ttl.tdiv 10 - 1) < 0 := by
  rw [Int.tdiv_eq_ediv_of_nonneg (by omega)] at overflows ⊢
  have wrapped : lifetime ttl (ttl / 10 - 1) = ttl + (ttl / 10 - 1) - 2 ^ 64 := by
    rw [lifetime, ← Int.sub_bmod_right, Int.bmod_eq_of_le] <;> omega
  omega

namespace Watched

variable {w : Watched} {ps : Nat → List Ptr} {ttl : Int} {past : List (Nat × LinkedOp)} {i : Nat} {s s' : LinkedShard}
  {t : Int}

/-- When the lock is free, a hash is gone if the scan left no entry of it. -/
theorem Inv.scanned (inv : w.Inv ps) (found : w.lru.shards[i]? = some s) (idle : s.waiting = none)
    (found' : (w.step (i, .evictExpired t)).lru.shards[i]? = some s') (h : HashKey) :
    s'.cache[h]? = none ↔ ∀ e ∈ (((w.lru.arena s).view (ps i)).evictExpired t).entries, e.hash ≠ h := by
  have rep := (inv i s found).rep
  have hand : (w.lru.arena s).shard.hand = [] := by
    rw [LinkedShard.hand, LeastRecentlyUsed.arena, idle]
    rfl
  rw [hand] at rep
  have refines := rep.evictExpired idle t
  obtain ⟨qs, rep'⟩ := refines.rep
  have act : (w.lru.arena s).act (.evictExpired t) = (w.lru.arena s).evictExpired t := by
    simp only [Arena.act, LeastRecentlyUsed.arena, idle]
  rw [step_eq found, act] at found'
  cases (shards_leave_self found _ _).symm.trans found'
  rw [← (refines.shows rep').1]
  exact rep'.absent_iff h

/-- The expiry of an entry is within a tenth of the TTL of what it would be without jitter. -/
theorem Dated.expiry_window (d : Dated ttl past w ps) (long : 10 ≤ ttl) (fits : ttl + ttl.tdiv 10 ≤ 2 ^ 63)
    (draws : ∀ call ∈ past, call.2.Jittered ttl) (found : w.lru.shards[i]? = some s) {e : Entry}
    (member : e ∈ ((w.lru.arena s).view (ps i)).entries) :
    ∃ time jitter, w.LastSeen past i e.hash time jitter ∧ time + ttl ≤ e.expiry ∧
      e.expiry < time + ttl + ttl.tdiv 10 := by
  obtain ⟨time, jitter, last, expiry⟩ := d.dated i s found e (List.mem_append_left _ member)
  have drawn := last.jittered draws
  rw [lifetime_eq long fits drawn] at expiry
  exact ⟨time, jitter, last, by omega, by omega⟩

/-- **`evictExpired`** on dated entries. -/
theorem Dated.expires (d : Dated ttl past w ps) (long : 10 ≤ ttl) (fits : ttl + ttl.tdiv 10 ≤ 2 ^ 63)
    (clocked : Clocked past) (draws : ∀ call ∈ past, call.2.Jittered ttl) (i : Nat) (t : Int) :
    w.Expires ttl past i t where
  spares s s' found found' h p cached gone := by
    cases waiting : s.waiting with
    | some _ =>
      have blocked : (w.lru.arena s).act (.evictExpired t) = w.lru.arena s := by
        simp only [Arena.act, LeastRecentlyUsed.arena, waiting]
      rw [step_eq found, blocked] at found'
      cases (shards_leave_self found _ _).symm.trans found'
      cases cached.symm.trans gone
    | none =>
      obtain ⟨member, rfl⟩ := ((d.inv i s found).rep.keyed h p).mp cached
      have listed : (w.lru.arena s).entryAt p ∈ ((w.lru.arena s).view (ps i)).entries := List.mem_map_of_mem member
      rcases LruShard.stays_or_expired _ t listed with stays | expired
      · exact absurd rfl ((d.inv.scanned found waiting found' _).mp gone _ stays)
      · obtain ⟨time, jitter, last, early, -⟩ := d.expiry_window long fits draws found listed
        exact ⟨time, jitter, last, by omega⟩
  clears s s' found idle found' h p cached := by
    have kept : ∃ e ∈ (((w.lru.arena s).view (ps i)).evictExpired t).entries, e.hash = h := by
      by_contra none
      have gone := (d.inv.scanned found idle found' h).mpr fun e left same => none ⟨e, left, same⟩
      cases cached.symm.trans gone
    obtain ⟨e, left, rfl⟩ := kept
    obtain ⟨z, member, unexpired, order⟩ := LruShard.left_seen_after (d.inv i s found).recent.ordered left
    obtain ⟨time, jitter, last, -, late⟩ := d.expiry_window long fits draws found member
    rcases order with rfl | after
    · exact ⟨time, jitter, last, by omega⟩
    · have listed := (LruShard.entries_evictExpired t).subset left
      obtain ⟨time', jitter', last', -⟩ := d.expiry_window long fits draws found listed
      have ordered := last.le clocked last' after
      exact ⟨time', jitter', last', by omega⟩

theorem dated_start {n : Nat} {shardCap : UInt32} (roomy : 0 < shardCap.toNat) (ttl : Int) :
    Dated ttl [] (start ⟨newMemory, List.replicate n (newLinkedShard shardCap ttl)⟩) fun _ => [] := by
  refine ⟨inv_start roomy ttl, rfl, fun i s found => ?_, fun i s found e held => ?_⟩
  all_goals
    have new : s = newLinkedShard shardCap ttl := (List.mem_replicate.mp (List.mem_of_getElem? found)).2
    subst new
  · rfl
  · cases held

/-- A hash that an empty shard sees is its one entry. -/
theorem Inv.seen_first (inv : w.Inv ps) (found : w.lru.shards[i]? = some s) (idle : s.waiting = none)
    (empty : ps i = []) (tenth : 0 < s.ttl.tdiv 10) (key : Key) (hash : HashKey) (now jitter : Int) (choice : Nat) :
    ∃ qs s', (w.step (i, .seen key hash now jitter choice)).Inv qs ∧
      (w.step (i, .seen key hash now jitter choice)).lru.shards[i]? = some s' ∧ s'.waiting = none ∧
      (((w.step (i, .seen key hash now jitter choice)).lru.arena s').view (qs i)).entries =
        [⟨now + lifetime s.ttl jitter, key, hash⟩] := by
  have sees : (w.lru.arena s).sees (.seen key hash now jitter choice) = some hash := by
    simp only [Arena.sees, LeastRecentlyUsed.arena, idle]
    exact if_neg (Int.not_le.mpr tenth)
  obtain ⟨qs, sound, -⟩ := (inv i s found).act (.seen key hash now jitter choice)
  rw [step_eq found]
  refine ⟨_, _, inv.leave found sound, shards_leave_self found _ _, ?_⟩
  rw [Function.update_self]
  cases (inv i s found).acts (.seen key hash now jitter choice) with
  | nothing unseen | takesOut _ unseen | resumes _ unseen => cases unseen.symm.trans sees
  | sees key' hash' now' jitter' choice' next called seen refines sees =>
    cases called
    have view := (refines.shows sound.rep).1
    have entries : next.loop = .running ∧ next.entries = [⟨now + lifetime s.ttl jitter, key, hash⟩] := by
      rw [empty] at sees
      cases sees with
      | hit e member => cases member
      | joins absent left room goes entries =>
        have none : left = [] := by rcases room with ⟨rfl, -⟩ | ⟨rfl, -⟩ <;> rfl
        rw [none] at entries
        exact ⟨goes, entries⟩
      | waits absent full => exact absurd rfl full
    constructor
    · have goes := congrArg LruShard.loop view
      rw [entries.1] at goes
      simp only [Arena.view, LinkedShard.view] at goes
      split at goes
      · assumption
      · cases goes
    · exact (congrArg LruShard.entries view).trans entries.2

/-- The one entry of a shard goes when it has expired. -/
theorem Inv.expired_goes (inv : w.Inv ps) (found : w.lru.shards[i]? = some s) (idle : s.waiting = none) {e : Entry}
    (entries : ((w.lru.arena s).view (ps i)).entries = [e]) (expired : e.expiry ≤ t) :
    ∃ s' p, (w.step (i, .evictExpired t)).lru.shards[i]? = some s' ∧ s.cache[e.hash]? = some p ∧
      s'.cache[e.hash]? = none := by
  have found' : (w.step (i, .evictExpired t)).lru.shards[i]? = some ((w.lru.arena s).act (.evictExpired t)).shard := by
    rw [step_eq found]
    exact shards_leave_self found _ _
  have cached : ∃ p, s.cache[e.hash]? = some p := by
    refine Option.ne_none_iff_exists'.mp fun absent => ?_
    have other := ((inv i s found).rep.absent_iff e.hash).mp absent e
    rw [← Arena.entries_view, entries] at other
    exact other (List.mem_singleton_self e) rfl
  obtain ⟨p, cached⟩ := cached
  refine ⟨_, p, found', cached, (inv.scanned found idle found' e.hash).mpr fun x left => ?_⟩
  rw [LruShard.evictExpired, entries] at left
  simp [LruShard.expireLoop_eq, expired] at left

end Watched

/-- **The TTL window**: for a TTL of at least 10 nanoseconds, `evictExpired` keeps to the window in
every run exactly when the longest lifetime is still a duration. -/
theorem ttl_window_iff (config : LRUConfig) (lru : LeastRecentlyUsed) (accepted : newLRU config = .ok lru)
    (long : 10 ≤ config.ttl) (duration : config.ttl < 2 ^ 63) :
    (∀ past i t, Clocked (past ++ [(i, .evictExpired t)]) → (∀ call ∈ past, call.2.Jittered config.ttl) →
      (runFrom Watched.step (Watched.start lru) past).Expires config.ttl past i t) ↔
      config.ttl + config.ttl.tdiv 10 ≤ 2 ^ 63 := by
  obtain ⟨shardCap, more, roomy, rfl⟩ := eq_of_newLRU accepted
  have starts := Watched.dated_start (n := more + 1) roomy config.ttl
  have tenth := tenth_pos_iff.mpr long
  constructor
  · intro window
    by_contra overflows
    -- the hash is seen at time 0 with the longest jitter, and the tick comes at once
    have negative := lifetime_neg long duration (Int.not_le.mp overflows)
    generalize drawn : config.ttl.tdiv 10 - 1 = jitter at negative
    obtain ⟨qs, s, inv, found, idle, entries⟩ := starts.inv.seen_first (i := 0) rfl rfl rfl tenth [] 0 0 jitter 0
    have expired : 0 + lifetime config.ttl jitter ≤ 0 := by omega
    obtain ⟨s', p, found', cached, gone⟩ := inv.expired_goes found idle entries expired
    have clocked : Clocked [(0, .seen [] 0 0 jitter 0), (0, .evictExpired 0)] := by simp [Clocked, LinkedOp.now]
    have draws : ∀ call ∈ [(0, LinkedOp.seen [] 0 0 jitter 0)], call.2.Jittered config.ttl := by
      simp only [List.mem_singleton, forall_eq, LinkedOp.Jittered]
      omega
    obtain ⟨time, _, ⟨n, _, _, _, call⟩, early⟩ := (window _ 0 0 clocked draws).spares s s' found found' 0 p cached gone
    obtain ⟨_, same⟩ := List.getElem?_eq_some_iff.mp call
    simp at same
    omega
  · intro fits past i t clocked draws
    obtain ⟨ps, d⟩ := runFrom_invariant (I := fun past w => ∃ ps, Watched.Dated config.ttl past w ps) ⟨_, starts⟩
      (fun past w call ⟨ps, d⟩ => d.step call) past
    refine d.expires long fits ?_ draws i t
    rw [Clocked, List.filterMap_append] at clocked
    exact (List.pairwise_append.mp clocked).1

/-- The first hash expires at 159 and the second, seen later, at 155. -/
def jittered : List (Nat × LinkedOp) := [(0, .seen [97] 2 50 9 0), (0, .seen [98] 4 55 0 0)]

theorem ttl_window_jittered : ∃ lru, newLRU ⟨3, 100, 1⟩ = .ok lru ∧
    (runFrom Watched.step (Watched.start lru) jittered).Expires 100 jittered 0 157 :=
  ⟨_, rfl, (ttl_window_iff ⟨3, 100, 1⟩ _ rfl (by decide) (by decide)).mpr (by decide) jittered 0 157
    (by simp [Clocked, jittered, LinkedOp.now]) (by simp [jittered, LinkedOp.Jittered])⟩

/-- With the longest TTL a hash goes at the time at which it was seen. -/
theorem longest_ttl_expires_at_once : ∃ lru, newLRU ⟨3, 9223372036854775807, 1⟩ = .ok lru ∧
    ¬(runFrom Watched.step (Watched.start lru) [(0, .seen [97] 2 0 1 0)]).Expires 9223372036854775807
      [(0, .seen [97] 2 0 1 0)] 0 0 := by
  refine ⟨_, rfl, fun expires => ?_⟩
  obtain ⟨time, jitter, ⟨n, key, choice, number, call⟩, early⟩ :=
    expires.spares _ _ rfl rfl 2 0 (by decide +kernel) (by decide +kernel)
  obtain ⟨_, same⟩ := List.getElem?_eq_some_iff.mp call
  simp at same
  omega

end Oryx.Evict
