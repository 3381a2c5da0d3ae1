import Oryx.Evict.Blocking
import Oryx.Evict.Recency

/-!
# Eviction messages

An entry leaves a shard through `evictOldest`, through `evictExpired` or because its key
was deleted. In the first two cases the callback is to hear of it, by a message on
`evictCh`. The account of that queue: what the shard has stopped tracking for want of room
or of time, what was handed to the callback, and what still waits.
-/

namespace Oryx.Evict
set_option autoImplicit false
open Oryx.Core Oryx.Library

namespace LruShard

variable {s : LruShard} {a : ShardAction}

/-- Why an entry that is gone after the step has been evicted; a deletion evicts nothing. -/
def reasonOf : ShardAction → Option Reason
  | .iterate (.access _ _) => some .capacity
  | .iterate (.tick _) => some .ttl
  | _ => none

def tracks (s : LruShard) (hash : HashKey) : Bool := s.entries.any fun e => e.hash = hash

/-- The entries that the shard tracks before the step and no longer after it, oldest first. -/
def gone (s : LruShard) (a : ShardAction) : List Entry :=
  s.entries.reverse.filter fun e => !(s.step a).tracks e.hash

/-- What the callback is to be told about the step. -/
def evicted (s : LruShard) (a : ShardAction) : List EvictMsg :=
  match reasonOf a with
  | some reason => (s.gone a).map fun e => ⟨e.key, reason⟩
  | none => []

/-- What the step hands to the callback. -/
def handed (s : LruShard) : ShardAction → List EvictMsg
  | .iterate case => (s.iterate case).2.toList
  | _ => []

/-- The entries that `evictExpired` takes out, from the tail on. -/
def expired (s : LruShard) (now : Int) : List Entry := s.entries.reverse.takeWhile fun e => e.expiry ≤ now

/-- A tick at which the goroutine calls `evictExpired` finds room in `evictCh` for a message
about each entry that has expired. -/
def HasRoomAtTick (s : LruShard) : ShardAction → Prop
  | .iterate (.tick now) =>
    s.loop = .running → 0 < s.ttl → (s.expired now).length ≤ s.evictCap - s.evictCh.length
  | _ => True

/-- There is room in `evictCh` for every message that the step sends. -/
def Fits (s : LruShard) (a : ShardAction) : Prop := s.HasRoom a ∧ s.HasRoomAtTick a

/-- No hash is tracked twice. -/
def Distinct (s : LruShard) : Prop := s.entries.Pairwise fun x y => x.hash ≠ y.hash

/-! ## What a step does to the queue -/

theorem tracks_iff {hash : HashKey} : s.tracks hash = true ↔ ∃ e ∈ s.entries, e.hash = hash := by
  simp [tracks]

/-- The entries behind `front` go, if no other entry brings their hashes back. -/
theorem gone_append {front back : List Entry} (entries : s.entries = front ++ back)
    (kept : ∀ e ∈ front, (s.step a).tracks e.hash = true) (out : ∀ e ∈ back, (s.step a).tracks e.hash = false) :
    s.gone a = back.reverse := by
  have stays : front.reverse.filter (fun e => !(s.step a).tracks e.hash) = [] := by
    rw [List.filter_eq_nil_iff]
    intro e member
    simp [kept e (List.mem_reverse.mp member)]
  have goes : back.reverse.filter (fun e => !(s.step a).tracks e.hash) = back.reverse := by
    rw [List.filter_eq_self]
    intro e member
    simp [out e (List.mem_reverse.mp member)]
  rw [gone, entries, List.reverse_append, List.filter_append, stays, goes, List.append_nil]

theorem evicted_of_kept (kept : ∀ e ∈ s.entries, (s.step a).tracks e.hash = true) : s.evicted a = [] := by
  have none : s.gone a = [] := gone_append (List.append_nil _).symm kept (by simp)
  rw [evicted, none]
  split <;> rfl

theorem evicted_of_quiet (quiet : reasonOf a = none) : s.evicted a = [] := by
  rw [evicted, quiet]

/-- The loop of `evictExpired`: the expired entries at the tail go, and as many of them as
there is room for leave a message. -/
theorem expireLoop_eq (now : Int) (cap : Nat) (es : List Entry) (queue : List EvictMsg) :
    expireLoop now cap es queue =
      (es.dropWhile fun e => e.expiry ≤ now,
        queue ++ ((es.takeWhile fun e => e.expiry ≤ now).map fun e => ⟨e.key, .ttl⟩).take (cap - queue.length)) := by
  induction es generalizing queue with
  | nil => simp [expireLoop]
  | cons e rest ih =>
    rw [expireLoop]
    by_cases late : e.expiry > now
    · have stays : ¬e.expiry ≤ now := Int.not_le.mpr late
      simp [late, stays]
    · have goes : e.expiry ≤ now := Int.not_lt.mp late
      rw [if_neg late, ih]
      by_cases room : queue.length < cap
      · have slots : cap - queue.length = cap - (queue.length + 1) + 1 := by omega
        simp [room, goes, slots]
      · have none_left : cap - queue.length = 0 := by omega
        simp [room, goes, none_left]

theorem entries_evictExpired_append (s : LruShard) (now : Int) :
    s.entries = (s.evictExpired now).entries ++ (s.expired now).reverse := by
  have whole := List.takeWhile_append_dropWhile (p := fun e : Entry => decide (e.expiry ≤ now)) (l := s.entries.reverse)
  rw [evictExpired, expireLoop_eq, expired, ← List.reverse_append, whole, List.reverse_reverse]

theorem evictCh_evictExpired (s : LruShard) (now : Int) :
    (s.evictExpired now).evictCh =
      s.evictCh ++ ((s.expired now).map fun e => ⟨e.key, .ttl⟩).take (s.evictCap - s.evictCh.length) := by
  rw [evictExpired, expireLoop_eq, expired]

theorem evictCh_evictOldest {front : List Entry} {last : Entry} (entries : s.entries = front ++ [last]) :
    s.evictOldest.evictCh =
      if s.evictCh.length < s.evictCap then s.evictCh ++ [⟨last.key, .capacity⟩] else s.evictCh := by
  have oldest : s.entries.getLast? = some last := by simp [entries]
  rw [evictOldest, oldest]
  simp only [sendEvict]
  split <;> rfl

/-- An access that evicts nothing keeps every hash, and the queue. -/
theorem seen_keeps (running : s.loop = .running) {hkey : HashKey}
    (stays : ¬(0 < s.ttl.tdiv 10 ∧ (∀ e ∈ s.entries, e.hash ≠ hkey) ∧ s.capacity.toNat ≤ s.entries.length ∧
      s.entries ≠ [])) (key : Key) (now jitter : Int) :
    (∀ e ∈ s.entries, (s.seen key hkey now jitter).tracks e.hash = true) ∧
      (s.seen key hkey now jitter).evictCh = s.evictCh := by
  unfold seen
  by_cases short : s.ttl.tdiv 10 ≤ 0
  · rw [if_pos short]
    exact ⟨fun e member => tracks_iff.mpr ⟨e, member, rfl⟩, rfl⟩
  rw [if_neg short]
  cases found : s.entries.find? fun x => x.hash = hkey with
  | some known =>
    refine ⟨fun e member => tracks_iff.mpr ?_, rfl⟩
    by_cases same : e.hash = hkey
    · have hash : known.hash = hkey := by simpa using List.find?_some found
      exact ⟨_, List.mem_cons_self, hash.trans same.symm⟩
    · exact ⟨e, List.mem_cons_of_mem _ (List.mem_filter.mpr ⟨member, by simpa using same⟩), rfl⟩
  | none =>
    have absent : ∀ x ∈ s.entries, x.hash ≠ hkey := by simpa using found
    have kept : (if s.entries.length ≥ s.capacity.toNat then s.evictOldest else s) = s := by
      by_cases full : s.entries.length ≥ s.capacity.toNat
      · have empty : s.entries = [] := by
          by_contra some_entry
          exact stays ⟨Int.not_le.mp short, absent, full, some_entry⟩
        simp [evictOldest, empty]
      · exact if_neg full
    simp only [kept, running]
    exact ⟨fun e member => tracks_iff.mpr ⟨e, List.mem_cons_of_mem _ member, rfl⟩, trivial⟩

/-- An access that evicts takes out the last entry; its message is queued or waited with. -/
theorem seen_displaces {hkey : HashKey} (expiring : 0 < s.ttl.tdiv 10)
    (absent : ∀ e ∈ s.entries, e.hash ≠ hkey) (full : s.capacity.toNat ≤ s.entries.length) {front : List Entry}
    {last : Entry} (entries : s.entries = front ++ [last]) (key : Key) (now jitter : Int) :
    (∃ new : List Entry, (∀ e ∈ new, e.hash = hkey) ∧ (s.seen key hkey now jitter).entries = new ++ front) ∧
      (s.seen key hkey now jitter).evictCh =
        if s.evictCh.length < s.evictCap then s.evictCh ++ [⟨last.key, .capacity⟩] else s.evictCh := by
  have left : s.evictOldest.entries = front := by rw [entries_evictOldest, entries, List.dropLast_concat]
  have missed : s.entries.find? (fun x => x.hash = hkey) = none := by simpa using absent
  unfold seen
  rw [if_neg (Int.not_le.mpr expiring), missed]
  simp only [ge_iff_le, full, if_true]
  rw [← evictCh_evictOldest entries]
  split
  · exact ⟨⟨[⟨now + lifetime s.ttl jitter, key, hkey⟩], by simp, by simp [left]⟩, rfl⟩
  · exact ⟨⟨[], by simp, by simp [left]⟩, rfl⟩

theorem access_of_accessed {msg : LruMsg} (taken : s.accessed a = some msg) :
    ∃ now jitter, a = .iterate (.access now jitter) := by
  unfold accessed at taken
  split at taken
  · exact ⟨_, _, rfl⟩
  · cases taken

/-- Only the `evict` case hands something over. -/
theorem handed_eq_nil (other : a ≠ .iterate .evict) : s.handed a = [] := by
  unfold handed
  split
  · rename_i case
    unfold iterate
    split
    all_goals first | rfl | skip
    · split <;> rfl
    · split <;> rfl
    · exact absurd rfl other
  · rfl

/-- **A step that displaces an entry** owes the callback one message, and queues it if there
is room. -/
theorem Displaces.account (distinct : s.Distinct) (displaces : s.Displaces a) :
    ∃ msg, s.evicted a = [msg] ∧
      (s.step a).evictCh = if s.evictCh.length < s.evictCap then s.evictCh ++ [msg] else s.evictCh := by
  obtain ⟨msg, taken, expiring, absent, full, some_entry⟩ := displaces
  obtain ⟨front, last, entries⟩ := (List.eq_nil_or_concat' s.entries).resolve_left some_entry
  obtain ⟨_, rest, now, jitter, step⟩ := step_of_accessed taken
  obtain ⟨⟨new, fresh, after⟩, queue⟩ :=
    seen_displaces (s := { s with ch := rest }) expiring absent full entries msg.key now jitter
  rw [← step] at after queue
  have kept : ∀ e ∈ front, (s.step a).tracks e.hash = true := fun e member =>
    tracks_iff.mpr ⟨e, by rw [after]; exact List.mem_append_right _ member, rfl⟩
  have out : ∀ e ∈ [last], (s.step a).tracks e.hash = false := by
    intro e member
    rw [List.mem_singleton.mp member, Bool.eq_false_iff, Ne, tracks_iff, after]
    rintro ⟨x, within, same⟩
    rcases List.mem_append.mp within with added | older
    · refine absent last ?_ ((same.symm.trans (fresh x added)))
      rw [entries]
      exact List.mem_append_right _ List.mem_cons_self
    · rw [Distinct, entries, List.pairwise_append] at distinct
      exact distinct.2.2 x older last List.mem_cons_self same
  obtain ⟨_, _, rfl⟩ := access_of_accessed taken
  refine ⟨⟨last.key, .capacity⟩, ?_, queue⟩
  rw [evicted, reasonOf, gone_append entries kept out]
  rfl

/-- Any other access owes nothing and leaves the queue alone. -/
theorem access_account {now jitter : Int} (stays : ¬s.Displaces (.iterate (.access now jitter))) :
    s.evicted (.iterate (.access now jitter)) = [] ∧
      (s.step (.iterate (.access now jitter))).evictCh = s.evictCh := by
  have account : (∀ e ∈ s.entries, (s.step (.iterate (.access now jitter))).tracks e.hash = true) ∧
      (s.step (.iterate (.access now jitter))).evictCh = s.evictCh := by
    cases taken : s.accessed (.iterate (.access now jitter)) with
    | some msg =>
      obtain ⟨running, rest, _, _, step⟩ := step_of_accessed taken
      rw [step]
      refine seen_keeps (s := { s with ch := rest }) running (fun displaces => stays ⟨msg, taken, displaces⟩) _ _ _
    | none =>
      have same : s.step (.iterate (.access now jitter)) = s := by
        by_cases running : s.loop = .running
        · have empty : s.ch = [] := by simpa [accessed, running] using taken
          simp only [step, iterate, running, empty]
        · rw [step, iterate_of_not_running running]
      rw [same]
      exact ⟨fun e member => tracks_iff.mpr ⟨e, member, rfl⟩, rfl⟩
  exact ⟨evicted_of_kept account.1, account.2⟩

/-- **A tick** owes the callback a message for each expired entry, and queues as many as there
is room for. -/
theorem tick_account (distinct : s.Distinct) (running : s.loop = .running) (expires : 0 < s.ttl) (now : Int) :
    s.evicted (.iterate (.tick now)) = (s.expired now).map (fun e => ⟨e.key, .ttl⟩) ∧
      (s.step (.iterate (.tick now))).evictCh =
        s.evictCh ++ ((s.expired now).map fun e => ⟨e.key, .ttl⟩).take (s.evictCap - s.evictCh.length) := by
  have step : s.step (.iterate (.tick now)) = s.evictExpired now := by
    simp only [step, iterate, running, gt_iff_lt, expires, if_true]
  have entries := s.entries_evictExpired_append now
  refine ⟨?_, by rw [step, evictCh_evictExpired]⟩
  have kept : ∀ e ∈ (s.evictExpired now).entries, (s.step (.iterate (.tick now))).tracks e.hash = true :=
    fun e member => tracks_iff.mpr ⟨e, by rw [step]; exact member, rfl⟩
  have out : ∀ e ∈ (s.expired now).reverse, (s.step (.iterate (.tick now))).tracks e.hash = false := by
    intro e member
    rw [Bool.eq_false_iff, Ne, tracks_iff, step]
    rintro ⟨x, stays, same⟩
    rw [Distinct, entries, List.pairwise_append] at distinct
    exact distinct.2.2 x stays e member same
  rw [evicted, reasonOf, gone_append entries kept out, List.reverse_reverse]

/-- The goroutine receives from `evictCh` in one case only. -/
theorem evict_account : s.evictCh = s.handed (.iterate .evict) ++ (s.step (.iterate .evict)).evictCh := by
  by_cases running : s.loop = .running
  · simp only [handed, step, iterate, running]
    cases queue : s.evictCh <;> simp [queue]
  · simp only [handed, step, iterate_of_not_running running]
    simp

/-- A step that neither evicts nor receives leaves the queue alone. -/
theorem evictCh_step (quiet : reasonOf a = none) (other : a ≠ .iterate .evict) : (s.step a).evictCh = s.evictCh := by
  cases a with
  | publish key hash coin rand =>
    rw [step, publish]
    split
    · rfl
    · split <;> rfl
  | publishDelete hash =>
    rw [step, publishDelete]
    split <;> rfl
  | stop => rfl
  | iterate case =>
    by_cases running : s.loop = .running
    · cases case with
      | done =>
        simp only [step, iterate, running]
        split <;> rfl
      | deleted =>
        simp only [step, iterate, running]
        split <;> rfl
      | evict => exact absurd rfl other
      | access now jitter => cases quiet
      | tick now => cases quiet
    · rw [step, iterate_of_not_running running]

theorem hasRoom_of_accessed (unread : s.accessed a = none) : s.HasRoom a := by
  rintro ⟨msg, taken, _⟩
  rw [unread] at taken
  cases taken

theorem access_account_iff (distinct : s.Distinct) (now jitter : Int) :
    s.evictCh ++ s.evicted (.iterate (.access now jitter)) = (s.step (.iterate (.access now jitter))).evictCh ↔
      s.Fits (.iterate (.access now jitter)) := by
  by_cases displaces : s.Displaces (.iterate (.access now jitter))
  · obtain ⟨msg, owed, queue⟩ := displaces.account distinct
    have room : s.Fits (.iterate (.access now jitter)) ↔ s.evictCh.length < s.evictCap :=
      ⟨fun fits => fits.1 displaces, fun room => ⟨fun _ => room, trivial⟩⟩
    rw [owed, queue, room]
    split
    · exact iff_of_true rfl (by assumption)
    · exact iff_of_false (by simp) (by assumption)
  · obtain ⟨owed, queue⟩ := access_account displaces
    rw [owed, queue, List.append_nil]
    exact iff_of_true rfl ⟨fun displaced => absurd displaced displaces, trivial⟩

theorem tick_account_iff (distinct : s.Distinct) (now : Int) :
    s.evictCh ++ s.evicted (.iterate (.tick now)) = (s.step (.iterate (.tick now))).evictCh ↔
      s.Fits (.iterate (.tick now)) := by
  have unread : s.HasRoom (.iterate (.tick now)) := hasRoom_of_accessed rfl
  by_cases ticks : s.loop = .running ∧ 0 < s.ttl
  · obtain ⟨running, expires⟩ := ticks
    obtain ⟨owed, queue⟩ := tick_account distinct running expires now
    have room : s.Fits (.iterate (.tick now)) ↔ (s.expired now).length ≤ s.evictCap - s.evictCh.length :=
      ⟨fun fits => fits.2 running expires, fun room => ⟨unread, fun _ _ => room⟩⟩
    rw [owed, queue, room, List.append_cancel_left_eq, eq_comm, List.take_eq_self_iff, List.length_map]
  · have same : s.step (.iterate (.tick now)) = s := by
      by_cases running : s.loop = .running
      · have never : ¬s.ttl > 0 := fun expires => ticks ⟨running, expires⟩
        simp only [step, iterate, running, never, if_false]
      · rw [step, iterate_of_not_running running]
    have owed : s.evicted (.iterate (.tick now)) = [] := by
      refine evicted_of_kept fun e member => ?_
      rw [same]
      exact tracks_iff.mpr ⟨e, member, rfl⟩
    refine iff_of_true ?_ ⟨unread, fun running expires => absurd ⟨running, expires⟩ ticks⟩
    rw [same, owed, List.append_nil]

theorem quiet_account (quiet : reasonOf a = none) : s.evictCh = s.handed a ++ (s.step a).evictCh := by
  by_cases receives : a = .iterate .evict
  · rw [receives]
    exact evict_account
  · rw [handed_eq_nil receives, List.nil_append, evictCh_step quiet receives]

theorem fits_of_quiet (quiet : reasonOf a = none) : s.Fits a := by
  refine ⟨hasRoom_of_accessed (Option.eq_none_iff_forall_not_mem.mpr fun msg taken => ?_), ?_⟩
  · obtain ⟨now, jitter, rfl⟩ := access_of_accessed taken
    cases quiet
  · unfold HasRoomAtTick
    split
    · cases quiet
    · trivial

/-- **The account of one step** is kept exactly when there is room for what the step sends. -/
theorem account_iff_fits (distinct : s.Distinct) (a : ShardAction) :
    s.evictCh ++ s.evicted a = s.handed a ++ (s.step a).evictCh ↔ s.Fits a := by
  cases reason : reasonOf a with
  | none =>
    rw [evicted_of_quiet reason, List.append_nil]
    exact iff_of_true (quiet_account reason) (fits_of_quiet reason)
  | some why =>
    unfold reasonOf at reason
    split at reason
    · rename_i now jitter
      rw [handed_eq_nil (by simp), List.nil_append]
      exact access_account_iff distinct now jitter
    · rename_i now
      rw [handed_eq_nil (by simp), List.nil_append]
      exact tick_account_iff distinct now
    · cases reason

/-! ## Distinct hashes -/

theorem distinct_seen (distinct : s.Distinct) (key : Key) (hkey : HashKey) (now jitter : Int) :
    (s.seen key hkey now jitter).Distinct := by
  unfold seen
  split
  · exact distinct
  · cases found : s.entries.find? fun x => x.hash = hkey with
    | some known =>
      have hash : known.hash = hkey := by simpa using List.find?_some found
      refine List.pairwise_cons.mpr ⟨fun x member => ?_, distinct.sublist List.filter_sublist⟩
      have other : x.hash ≠ hkey := by simpa using (List.mem_filter.mp member).2
      exact fun same => other (same.symm.trans hash)
    | none =>
      have absent : ∀ x ∈ s.entries, x.hash ≠ hkey := by simpa using found
      have left : (if s.entries.length ≥ s.capacity.toNat then s.evictOldest else s).entries.Sublist s.entries := by
        split
        · rw [entries_evictOldest]
          exact List.dropLast_sublist _
        · exact List.Sublist.refl _
      simp only
      split
      · refine List.pairwise_cons.mpr ⟨fun x member => ?_, distinct.sublist left⟩
        exact (absent x (left.subset member)).symm
      · exact distinct.sublist left

theorem Distinct.step (distinct : s.Distinct) (a : ShardAction) : (s.step a).Distinct := by
  cases a with
  | publish key hash coin rand =>
    rw [LruShard.step, publish]
    split
    · exact distinct
    · split <;> exact distinct
  | publishDelete hash =>
    rw [LruShard.step, publishDelete]
    split <;> exact distinct
  | stop => exact distinct
  | iterate case =>
    by_cases running : s.loop = .running
    · cases case with
      | done =>
        simp only [LruShard.step, iterate, running]
        split <;> exact distinct
      | access now jitter =>
        simp only [LruShard.step, iterate, running]
        split
        · exact distinct
        · rename_i msg rest _
          exact distinct_seen (s := { s with ch := rest, loop := .running }) distinct msg.key msg.hash now jitter
      | deleted =>
        simp only [LruShard.step, iterate, running]
        split
        · exact distinct
        · exact distinct.sublist List.filter_sublist
      | evict =>
        simp only [LruShard.step, iterate, running]
        split <;> exact distinct
      | tick now =>
        simp only [LruShard.step, iterate, running]
        split
        · exact distinct.sublist (entries_evictExpired now).sublist
        · exact distinct
    · rw [LruShard.step, iterate_of_not_running running]
      exact distinct

theorem distinct_newShard (shardCap : UInt32) (ttl : Int) : (newShard shardCap ttl).Distinct := List.Pairwise.nil

/-! ## Runs -/

/-- The `evict` case, taken once for each message in the queue. -/
def drain (s : LruShard) : List ShardAction := List.replicate s.evictCh.length (.iterate .evict)

/-- A goroutine that receives until its queue is empty hands over what was in it. -/
theorem handed_drain (running : s.loop = .running) : emitted step handed s s.drain = s.evictCh := by
  generalize queue : s.evictCh = msgs
  induction msgs generalizing s with
  | nil => simp [drain, queue, emitted]
  | cons msg rest ih =>
    have next : s.step (.iterate .evict) = { s with evictCh := rest } := by
      simp only [step, iterate, running, queue]
    have gives : s.handed (.iterate .evict) = [msg] := by simp [handed, iterate, running, queue]
    have later := ih (s := { s with evictCh := rest }) running rfl
    rw [drain] at later ⊢
    rw [queue, List.length_cons, List.replicate_succ, emitted, gives, next, later]
    rfl

end LruShard

open LruShard

/-- What the shard stopped tracking for want of room or of time is what the callback was
handed, followed by what waits in the queue. -/
def Notified (s : LruShard) (past : List ShardAction) : Prop :=
  emitted step evicted s past = emitted step handed s past ++ (runFrom step s past).evictCh

theorem notified_along (shardCap : UInt32) (ttl : Int) (actions : List ShardAction) :
    (∀ past, past <+: actions → Notified (newShard shardCap ttl) past) ↔
      Along step Fits (newShard shardCap ttl) actions := by
  have start := distinct_newShard shardCap ttl
  refine (conserved_iff_along evictCh (newShard shardCap ttl) actions).trans ⟨?_, ?_⟩
  · exact Along.imp (I := Distinct) (fun _ a distinct _ => distinct.step a)
      (fun _ a distinct => (account_iff_fits distinct a).mp) start
  · exact Along.imp (I := Distinct) (fun _ a distinct _ => distinct.step a)
      (fun _ a distinct => (account_iff_fits distinct a).mpr) start

/-- **Eviction messages**: along a run of a shard of `NewLRU`, each entry that `evictOldest` or
`evictExpired` took out has put its one message on `evictCh`, at every point of the run,
exactly when every step finds room there for what it sends. From there a goroutine that
receives what waits has handed over every such key. -/
theorem notified_iff (shardCap : UInt32) (ttl : Int) (actions : List ShardAction) :
    ((∀ past, past <+: actions → Notified (newShard shardCap ttl) past) ↔
      Along step Fits (newShard shardCap ttl) actions) ∧
    (Along step Fits (newShard shardCap ttl) actions →
      let s := runFrom step (newShard shardCap ttl) actions
      s.loop = .running → emitted step handed (newShard shardCap ttl) (actions ++ s.drain) =
        emitted step evicted (newShard shardCap ttl) actions) := by
  have conserved := notified_along shardCap ttl actions
  refine ⟨conserved, fun fits => ?_⟩
  intro s running
  rw [emitted_append, handed_drain running]
  exact (conserved.mpr fits actions (List.prefix_refl _)).symm

/-! ## A tick with a full queue -/

open Reference

/-- Turns up to the capacity of the queue leave it full; every access sets the same expiry. -/
theorem Filled.fills {s : LruShard} {key other : Key} {n turns : Nat} (filled : Filled s key n)
    (expiry : ∀ e ∈ s.entries, e.expiry = 60000000000) (ttl : s.ttl = 60000000000)
    (differ : hashFunc key ≠ hashFunc other) (enough : n + turns = 4096) :
    ∃ held, Filled (runFrom step s (alternate turns other key)) held 4096 ∧
      (∀ e ∈ (runFrom step s (alternate turns other key)).entries, e.expiry = 60000000000) ∧
      (runFrom step s (alternate turns other key)).ttl = 60000000000 := by
  induction turns generalizing s key other n with
  | zero =>
    obtain rfl : n = 4096 := enough
    exact ⟨key, filled, expiry, ttl⟩
  | succ turns ih =>
    have room : n < 4096 := by omega
    obtain ⟨msg, next⟩ := filled.next differ room
    have minute : lifetime 60000000000 0 = 60000000000 := by decide
    refine ih (filled.turn differ room) ?_ ?_ (Ne.symm differ) (by omega)
    · rw [next]
      simp [ttl, minute]
    · rw [next]
      exact ttl

/-- A tick that finds the queue full takes the expired entry out and sends nothing. -/
theorem Filled.tick {s : LruShard} {key : Key} (filled : Filled s key 4096)
    (expiry : ∀ e ∈ s.entries, e.expiry = 60000000000) (ttl : s.ttl = 60000000000) :
    s.entries.length = 1 ∧ (s.step (.iterate (.tick 60000000000))).entries = [] ∧
      (s.step (.iterate (.tick 60000000000))).evictCh = s.evictCh ∧ ¬s.Fits (.iterate (.tick 60000000000)) := by
  obtain ⟨e, entries, _⟩ := filled.holds
  have gone : s.expired 60000000000 = [e] := by simp [expired, entries, expiry e (by simp [entries])]
  have positive : s.ttl > 0 := by
    rw [ttl]
    decide
  have tick : s.step (.iterate (.tick 60000000000)) = s.evictExpired 60000000000 := by
    simp only [step, iterate, filled.running, positive, if_true]
  have none_left : s.evictCap - s.evictCh.length = 0 := by simp [filled.bounded, filled.queued]
  refine ⟨by simp [entries], ?_, ?_, fun fits => ?_⟩
  · have split := s.entries_evictExpired_append 60000000000
    rw [gone, entries] at split
    rw [tick]
    simpa using split
  · rw [tick, evictCh_evictExpired, none_left, List.take_zero, List.append_nil]
  · have room := fits.2 filled.running positive
    rw [gone, none_left] at room
    exact absurd room (by simp)

/-- A shard of capacity one has queued 4096 messages about two keys that were seen in turn; the
entry that it holds expires, and is gone with no message. -/
theorem expired_unnotified :
    let past := alternate 4097 [97] [98]
    let s := runFrom step (newShard 1 60000000000) past
    let s' := s.step (.iterate (.tick 60000000000))
    s.entries.length = 1 ∧ s'.entries = [] ∧ s'.evictCh = s.evictCh ∧
      ¬∀ before, before <+: past ++ [.iterate (.tick 60000000000)] → Notified (newShard 1 60000000000) before := by
  have differ : hashFunc [97] ≠ hashFunc [98] := by decide +kernel
  obtain ⟨held, filled, expiry, ttl⟩ :=
    filled_first.fills (by decide +kernel) (by decide +kernel) differ (Nat.zero_add 4096)
  rw [runFrom, runFrom, ← List.foldl_append, ← alternate_succ, ← runFrom] at filled expiry ttl
  obtain ⟨single, empty, queue, unfit⟩ := filled.tick expiry ttl
  refine ⟨single, empty, queue, fun notified => unfit ?_⟩
  exact (along_snoc.mp ((notified_along _ _ _).mp notified)).2

end Oryx.Evict
