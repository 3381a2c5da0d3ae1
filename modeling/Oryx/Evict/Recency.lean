import Oryx.Evict.Refinement

/-!
# The order of the entries

What the operations do to the list of a shard: its entries stand in the order in which they
were last seen, and there are never more of them than the shard has room for. Calls are
numbered, and the number of the call that saw a hash last is noted next to the shard.
-/

namespace Oryx.Evict
set_option autoImplicit false
open Oryx.Library

/-! ## Recency on the list -/

/-- The entries stand in the order of `lastSeen`, most recent first, within the capacity;
an entry that waits to go in is new and was seen last. -/
structure Recent (lastSeen : HashKey → Nat) (calls : Nat) (s : LruShard) (pending : Option Entry) : Prop where
  roomy : 0 < s.capacity.toNat
  bounded : s.entries.length ≤ s.capacity.toNat
  past : ∀ h, lastSeen h ≤ calls
  ordered : s.entries.Pairwise fun x y => lastSeen y.hash < lastSeen x.hash
  waits : ∀ e, pending = some e → s.entries.length < s.capacity.toNat ∧
    ∀ x ∈ s.entries, x.hash ≠ e.hash ∧ lastSeen x.hash < lastSeen e.hash

/-- What `seen` does to the list: the entry moves to the front, a new one goes in at the front,
or a new one waits for the message about the last to be sent. -/
inductive Sees (s : LruShard) (entry : Entry) (s' : LruShard) : Prop where
  | hit (e : Entry) (member : e ∈ s.entries) (hash : e.hash = entry.hash) (goes : s'.loop = .running)
      (entries : s'.entries = { e with expiry := entry.expiry } :: s.entries.filter fun x => x.hash ≠ entry.hash)
  | joins (absent : ∀ x ∈ s.entries, x.hash ≠ entry.hash) (left : List Entry)
      (room : left = s.entries ∧ s.entries.length < s.capacity.toNat ∨ left = s.entries.dropLast ∧ s.entries ≠ [])
      (goes : s'.loop = .running) (entries : s'.entries = entry :: left)
  | waits (absent : ∀ x ∈ s.entries, x.hash ≠ entry.hash) (full : s.entries ≠ [])
      (stops : s'.loop ≠ .running) (entries : s'.entries = s.entries.dropLast)

namespace LruShard

variable {s : LruShard}

/-- `evictOldest` leaves the settings and the other channels alone. -/
theorem frame_evictOldest :
    ∃ entries evictCh loop, s.evictOldest = { s with entries := entries, evictCh := evictCh, loop := loop } := by
  unfold evictOldest
  split
  · exact ⟨_, _, _, rfl⟩
  · unfold sendEvict
    split <;> exact ⟨_, _, _, rfl⟩

/-- So does `seen`. -/
theorem frame_seen (key : Key) (hkey : HashKey) (now jitter : Int) :
    ∃ entries evictCh loop,
      s.seen key hkey now jitter = { s with entries := entries, evictCh := evictCh, loop := loop } := by
  have evicted : ∃ entries evictCh loop, (if s.entries.length ≥ s.capacity.toNat then s.evictOldest else s) =
      { s with entries := entries, evictCh := evictCh, loop := loop } := by
    split
    · exact frame_evictOldest
    · exact ⟨_, _, _, rfl⟩
  unfold seen
  split
  · exact ⟨_, _, _, rfl⟩
  · split
    · exact ⟨_, _, _, rfl⟩
    · obtain ⟨entries, evictCh, loop, same⟩ := evicted
      simp only [same]
      split <;> exact ⟨_, _, _, rfl⟩

theorem capacity_evictOldest : s.evictOldest.capacity = s.capacity := by
  obtain ⟨_, _, _, same⟩ := s.frame_evictOldest
  rw [same]

theorem capacity_seen (key : Key) (hkey : HashKey) (now jitter : Int) :
    (s.seen key hkey now jitter).capacity = s.capacity := by
  obtain ⟨_, _, _, same⟩ := s.frame_seen key hkey now jitter
  rw [same]

theorem ttl_evictOldest : s.evictOldest.ttl = s.ttl := by
  obtain ⟨_, _, _, same⟩ := s.frame_evictOldest
  rw [same]

theorem ttl_seen (key : Key) (hkey : HashKey) (now jitter : Int) : (s.seen key hkey now jitter).ttl = s.ttl := by
  obtain ⟨_, _, _, same⟩ := s.frame_seen key hkey now jitter
  rw [same]

theorem sees_seen (running : s.loop = .running) (expiring : 0 < s.ttl.tdiv 10) (roomy : 0 < s.capacity.toNat)
    (key : Key) (hkey : HashKey) (now jitter : Int) :
    Sees s ⟨now + lifetime s.ttl jitter, key, hkey⟩ (s.seen key hkey now jitter) := by
  unfold seen
  rw [if_neg (Int.not_le.mpr expiring)]
  cases found : s.entries.find? fun x => x.hash = hkey with
  | some e =>
    have hash : e.hash = hkey := by simpa using List.find?_some found
    exact .hit e (List.mem_of_find?_eq_some found) hash running rfl
  | none =>
    have absent : ∀ x ∈ s.entries, x.hash ≠ hkey := by simpa using found
    by_cases full : s.capacity.toNat ≤ s.entries.length
    · have nonempty : s.entries ≠ [] := List.ne_nil_of_length_pos (Nat.lt_of_lt_of_le roomy full)
      have last : (if s.entries.length ≥ s.capacity.toNat then s.evictOldest else s) = s.evictOldest := if_pos full
      simp only [last]
      cases loop : s.evictOldest.loop with
      | running =>
        refine .joins absent s.entries.dropLast (Or.inr ⟨rfl, nonempty⟩) rfl ?_
        exact congrArg (_ :: ·) s.entries_evictOldest
      | blocked | panicked | stopped => exact .waits absent nonempty (by simp [loop]) s.entries_evictOldest
    · have kept : (if s.entries.length ≥ s.capacity.toNat then s.evictOldest else s) = s := if_neg full
      simp only [kept, running]
      exact .joins absent s.entries (Or.inl ⟨rfl, Nat.lt_of_not_le full⟩) rfl rfl

theorem expireLoop_suffix (now : Int) (cap : Nat) (es : List Entry) (queue : List EvictMsg) :
    (expireLoop now cap es queue).1 <:+ es := by
  induction es generalizing queue with
  | nil => exact List.suffix_refl _
  | cons e rest ih =>
    rw [expireLoop]
    split
    · exact List.suffix_refl _
    · exact (ih _).trans (List.suffix_cons e rest)

/-- The entries that have not expired were seen last. -/
theorem entries_evictExpired (now : Int) : (s.evictExpired now).entries <+: s.entries := by
  have suffix := expireLoop_suffix now s.evictCap s.entries.reverse s.evictCh
  have reversed := List.reverse_prefix.mpr suffix
  rwa [List.reverse_reverse] at reversed

end LruShard

namespace Recent

variable {lastSeen : HashKey → Nat} {calls : Nat} {s s' : LruShard} {pending : Option Entry} {entry : Entry}

theorem later (recent : Recent lastSeen calls s pending) : Recent lastSeen (calls + 1) s pending :=
  { recent with past := fun h => Nat.le_succ_of_le (recent.past h) }

/-- Entries may leave. -/
theorem sublist (recent : Recent lastSeen calls s pending) (kept : s'.entries.Sublist s.entries)
    (capacity : s'.capacity = s.capacity) : Recent lastSeen (calls + 1) s' none where
  roomy := capacity ▸ recent.roomy
  bounded := capacity ▸ kept.length_le.trans recent.bounded
  past h := Nat.le_succ_of_le (recent.past h)
  ordered := recent.ordered.sublist kept
  waits := nofun

/-- The entry that waited goes in at the front. -/
theorem resume (recent : Recent lastSeen calls s pending) (entries : s'.entries = pending.toList ++ s.entries)
    (capacity : s'.capacity = s.capacity) : Recent lastSeen (calls + 1) s' none := by
  cases pending with
  | none =>
    refine recent.sublist ?_ capacity
    rw [entries]
    exact List.Sublist.refl _
  | some e =>
    obtain ⟨room, new⟩ := recent.waits e rfl
    rw [Option.toList_some, List.singleton_append] at entries
    refine ⟨capacity ▸ recent.roomy, ?_, fun h => Nat.le_succ_of_le (recent.past h), ?_, nofun⟩
    · rw [entries, capacity]
      exact room
    · rw [entries, List.pairwise_cons]
      exact ⟨fun x member => (new x member).2, recent.ordered⟩

theorem past_update (recent : Recent lastSeen calls s pending) (hash h : HashKey) :
    Function.update lastSeen hash (calls + 1) h ≤ calls + 1 := by
  by_cases same : h = hash
  · rw [same, Function.update_self]
  · rw [Function.update_of_ne same]
    exact Nat.le_succ_of_le (recent.past h)

/-- The hash that is seen now was seen after every other. -/
theorem lt_update (recent : Recent lastSeen calls s pending) {h hash : HashKey} (other : h ≠ hash) :
    Function.update lastSeen hash (calls + 1) h < Function.update lastSeen hash (calls + 1) hash := by
  rw [Function.update_self, Function.update_of_ne other]
  exact Nat.lt_succ_of_le (recent.past h)

/-- The other entries keep their order. -/
theorem ordered_update (recent : Recent lastSeen calls s pending) {hash : HashKey} {l : List Entry}
    (sublist : l.Sublist s.entries) (other : ∀ x ∈ l, x.hash ≠ hash) :
    l.Pairwise fun x y => Function.update lastSeen hash (calls + 1) y.hash <
      Function.update lastSeen hash (calls + 1) x.hash := by
  refine (recent.ordered.sublist sublist).imp_of_mem fun {x y} first second less => ?_
  rwa [Function.update_of_ne (other x first), Function.update_of_ne (other y second)]

/-- A call that sees a hash makes it the most recent one. -/
theorem sees (recent : Recent lastSeen calls s pending) (seen : Sees s entry s') (capacity : s'.capacity = s.capacity) :
    Recent (Function.update lastSeen entry.hash (calls + 1)) (calls + 1) s'
      (if s'.loop = .running then none else some entry) := by
  have past := recent.past_update entry.hash
  have roomy : 0 < s'.capacity.toNat := capacity ▸ recent.roomy
  cases seen with
  | hit e member hash goes entries =>
    have other : ∀ x ∈ s.entries.filter fun x => x.hash ≠ entry.hash, x.hash ≠ entry.hash := by simp
    refine ⟨roomy, ?_, past, ?_, by simp [goes]⟩
    · have shorter : (s.entries.filter fun x => x.hash ≠ entry.hash).length < s.entries.length :=
        List.length_filter_lt_length_iff_exists.mpr ⟨e, member, by simpa using hash⟩
      rw [entries, capacity]
      exact Nat.lt_of_lt_of_le shorter recent.bounded
    · rw [entries, List.pairwise_cons]
      refine ⟨fun x listed => ?_, recent.ordered_update List.filter_sublist other⟩
      have first := recent.lt_update (other x listed)
      rwa [← hash] at first ⊢
  | joins absent left room goes entries =>
    have sublist : left.Sublist s.entries := by
      rcases room with ⟨rfl, -⟩ | ⟨rfl, -⟩
      · exact List.Sublist.refl _
      · exact List.dropLast_sublist _
    have other (x : Entry) (listed : x ∈ left) : x.hash ≠ entry.hash := absent x (sublist.subset listed)
    refine ⟨roomy, ?_, past, ?_, by simp [goes]⟩
    · rw [entries, capacity, List.length_cons]
      rcases room with ⟨rfl, room⟩ | ⟨rfl, nonempty⟩
      · exact room
      · have positive := List.length_pos_of_ne_nil nonempty
        have bounded := recent.bounded
        rw [List.length_dropLast]
        omega
    · rw [entries, List.pairwise_cons]
      exact ⟨fun x listed => recent.lt_update (other x listed), recent.ordered_update sublist other⟩
  | waits absent full stops entries =>
    have sublist := List.dropLast_sublist s.entries
    have other (x : Entry) (listed : x ∈ s.entries.dropLast) : x.hash ≠ entry.hash := absent x (sublist.subset listed)
    have room : s'.entries.length < s'.capacity.toNat := by
      have positive := List.length_pos_of_ne_nil full
      have bounded := recent.bounded
      rw [entries, capacity, List.length_dropLast]
      omega
    refine ⟨roomy, room.le, past, ?_, fun e waiting => ?_⟩
    · rw [entries]
      exact recent.ordered_update sublist other
    · rw [if_neg stops] at waiting
      cases waiting
      rw [entries] at room ⊢
      exact ⟨room, fun x listed => ⟨other x listed, recent.lt_update (other x listed)⟩⟩

/-- The last entry was seen least recently. -/
theorem least (recent : Recent lastSeen calls s pending) {x : Entry} (member : x ∈ s.entries)
    (last : ∀ y ∈ s.entries.dropLast, y.hash ≠ x.hash) : ∀ y ∈ s.entries, lastSeen x.hash ≤ lastSeen y.hash := by
  have ordered := recent.ordered
  rcases List.eq_nil_or_concat' s.entries with none | ⟨front, z, entries⟩
  · simp [none] at member
  · rw [entries] at member ordered ⊢
    rw [entries, List.dropLast_concat] at last
    rcases List.mem_append.mp member with inside | self
    · exact absurd rfl (last x inside)
    · rw [List.mem_singleton.mp self]
      intro y listed
      rcases List.mem_append.mp listed with before | same
      · exact ((List.pairwise_append.mp ordered).2.2 y before z (List.mem_singleton_self z)).le
      · rw [List.mem_singleton.mp same]

end Recent

/-- `seen` loses no hash but that of the last entry. -/
theorem Sees.keeps {s s' : LruShard} {entry : Entry} (sees : Sees s entry s') :
    ∀ x ∈ s.entries.dropLast, ∃ y ∈ s'.entries, y.hash = x.hash := by
  intro x listed
  have member := List.dropLast_subset _ listed
  cases sees with
  | hit e _ hash _ entries =>
    rw [entries]
    by_cases same : x.hash = entry.hash
    · exact ⟨_, List.mem_cons_self, hash.trans same.symm⟩
    · exact ⟨x, List.mem_cons_of_mem _ (List.mem_filter.mpr ⟨member, by simpa using same⟩), rfl⟩
  | joins absent left room goes entries =>
    have stays : x ∈ left := by
      rcases room with ⟨rfl, -⟩ | ⟨rfl, -⟩
      · exact member
      · exact listed
    exact ⟨x, entries ▸ List.mem_cons_of_mem _ stays, rfl⟩
  | waits absent full stops entries => exact ⟨x, entries ▸ listed, rfl⟩

/-! ## One shard -/

/-- The operations on a shard. A receiver may take a message at any time. -/
inductive LinkedOp where
  | seen (key : Key) (hash : HashKey) (now jitter : Int) (choice : Nat)
  | delete (hash : HashKey)
  | evictOldest
  | evictExpired (now : Int)
  | receive (choice : Nat)

/-- An operation needs the lock, which a waiting call holds. -/
def Arena.act (a : Arena) (op : LinkedOp) : Arena :=
  match op, a.shard.waiting with
  | .receive choice, _ => a.receive choice
  | _, some _ => a
  | .seen key hash now jitter choice, none => a.seen key hash now jitter choice
  | .delete hash, none => a.delete hash
  | .evictOldest, none => a.evictOldest
  | .evictExpired now, none => a.evictExpired now

/-- The hash that an operation sees. -/
def Arena.sees (a : Arena) (op : LinkedOp) : Option HashKey :=
  match op, a.shard.waiting with
  | .seen _ hash _ _ _, none => if a.shard.ttl.tdiv 10 ≤ 0 then none else some hash
  | _, _ => none

/-- Note the number of the call that sees a hash. -/
def note (lastSeen : HashKey → Nat) (call : Nat) : Option HashKey → HashKey → Nat
  | none => lastSeen
  | some hash => Function.update lastSeen hash call

/-- The operation evicts for want of room. -/
def LinkedOp.evicts : LinkedOp → Bool
  | .seen .. => true
  | .evictOldest => true
  | _ => false

/-- The arena represents the list `ps`, and the list is in order. -/
structure Sound (theirs : Ptr → LinkedEntry → Prop) (lastSeen : HashKey → Nat) (calls : Nat) (a : Arena)
    (ps : List Ptr) : Prop where
  rep : Rep theirs a ps a.shard.hand
  recent : Recent lastSeen calls (a.view ps) (a.shard.waiting.bind Waiting.insert)

variable {theirs : Ptr → LinkedEntry → Prop} {lastSeen : HashKey → Nat} {calls : Nat} {a : Arena} {ps : List Ptr}

theorem Refines.sound {pending : Option Entry} {s : LruShard} (refines : Refines theirs pending a s)
    (recent : Recent lastSeen calls s (if s.loop = .running then none else pending)) :
    ∃ ps, Sound theirs lastSeen calls a ps ∧ a.view ps = s := by
  obtain ⟨ps, rep⟩ := refines.rep
  obtain ⟨view, waits⟩ := refines.shows rep
  refine ⟨ps, ⟨rep, ?_⟩, view⟩
  rw [waits, view]
  exact recent

/-- What an operation does to the list of a shard: nothing, entries are taken out, a hash is seen, or
the entry that waits goes in. The settings stay. -/
inductive Acts (theirs : Ptr → LinkedEntry → Prop) (a : Arena) (ps : List Ptr) (op : LinkedOp) : Prop where
  | nothing (unseen : a.sees op = none) (same : a.act op = a)
  | takesOut (s' : LruShard) (unseen : a.sees op = none) (refines : Refines theirs none (a.act op) s')
      (kept : s'.entries.Sublist (a.view ps).entries)
      (frame : s'.capacity = (a.view ps).capacity ∧ s'.ttl = (a.view ps).ttl)
      (keeps : op.evicts = true → (a.view ps).entries.dropLast ⊆ s'.entries)
  | sees (key : Key) (hash : HashKey) (now jitter : Int) (choice : Nat) (s' : LruShard)
      (called : op = .seen key hash now jitter choice) (seen : a.sees op = some hash)
      (refines : Refines theirs (some ⟨now + lifetime a.shard.ttl jitter, key, hash⟩) (a.act op) s')
      (sees : Sees (a.view ps) ⟨now + lifetime a.shard.ttl jitter, key, hash⟩ s')
      (frame : s'.capacity = (a.view ps).capacity ∧ s'.ttl = (a.view ps).ttl)
  | resumes (queue : List EvictMsg) (unseen : a.sees op = none) (quiet : op.evicts = false)
      (refines : Refines theirs none (a.act op)
        { a.view ps with
          entries := (a.shard.waiting.bind Waiting.insert).toList ++ (a.view ps).entries
          evictCh := queue
          loop := .running })

namespace Sound

theorem acts_seen (sound : Sound theirs lastSeen calls a ps) (idle : a.shard.waiting = none) (key : Key)
    (hash : HashKey) (now jitter : Int) (choice : Nat) : Acts theirs a ps (.seen key hash now jitter choice) := by
  obtain ⟨rep, recent⟩ := sound
  rw [LinkedShard.hand, idle] at rep
  have act : a.act (.seen key hash now jitter choice) = a.seen key hash now jitter choice := by
    simp only [Arena.act, idle]
  by_cases panics : a.shard.ttl.tdiv 10 ≤ 0
  · refine .nothing ?_ ?_
    · simp only [Arena.sees, idle, if_pos panics]
    · rw [act, Arena.seen, if_pos panics]
  · have expiring := Int.lt_of_not_ge panics
    have bounded : ps.length ≤ a.shard.capacity.toNat := by
      simpa [Arena.view, LinkedShard.view] using recent.bounded
    refine .sees key hash now jitter choice _ rfl ?_ ?_
      (LruShard.sees_seen (Arena.loop_of_idle idle ps) expiring recent.roomy key hash now jitter)
      ⟨LruShard.capacity_seen key hash now jitter, LruShard.ttl_seen key hash now jitter⟩
    · simp only [Arena.sees, idle, if_neg panics]
    · rw [act]
      exact rep.seen idle bounded expiring key hash now jitter choice

theorem acts_receive (sound : Sound theirs lastSeen calls a ps) (choice : Nat) :
    Acts theirs a ps (.receive choice) := by
  have absent (w : Waiting) (waiting : a.shard.waiting = some w) (entry : Entry) (inserts : w.insert = some entry)
      (x : Entry) (member : x ∈ (a.view ps).entries) : x.hash ≠ entry.hash := by
    have pending : a.shard.waiting.bind Waiting.insert = some entry := by rw [waiting, Option.bind_some, inserts]
    exact ((sound.recent.waits entry pending).2 x member).1
  rcases sound.rep.receive absent choice with same | ⟨queue, refines⟩
  · exact .nothing rfl same
  · exact .resumes queue rfl rfl refines

/-- **One operation**, on the list that the arena represents. -/
theorem acts (sound : Sound theirs lastSeen calls a ps) (op : LinkedOp) : Acts theirs a ps op := by
  cases waiting : a.shard.waiting with
  | some w =>
    cases op with
    | receive choice => exact sound.acts_receive choice
    | seen | delete | evictOldest | evictExpired =>
      refine .nothing ?_ ?_ <;> simp only [Arena.act, Arena.sees, waiting]
  | none =>
    have rep := sound.rep
    rw [LinkedShard.hand, waiting] at rep
    cases op with
    | seen key hash now jitter choice => exact sound.acts_seen waiting key hash now jitter choice
    | delete hash =>
      refine .takesOut ((a.view ps).delete hash) rfl ?_ List.filter_sublist ⟨rfl, rfl⟩ fun evicts => ?_
      · simp only [Arena.act, waiting]
        exact rep.delete waiting hash
      · cases evicts
    | evictOldest =>
      have entries := (a.view ps).entries_evictOldest
      refine .takesOut (a.view ps).evictOldest rfl ?_ ?_
        ⟨LruShard.capacity_evictOldest, LruShard.ttl_evictOldest⟩ fun _ => ?_
      · simp only [Arena.act, waiting]
        exact rep.evictOldest waiting
      · rw [entries]
        exact List.dropLast_sublist _
      · rw [entries]
        exact List.Subset.refl _
    | evictExpired now =>
      refine .takesOut ((a.view ps).evictExpired now) rfl ?_ (LruShard.entries_evictExpired now).sublist
        ⟨rfl, rfl⟩ fun evicts => ?_
      · simp only [Arena.act, waiting]
        exact rep.evictExpired waiting now
      · cases evicts
    | receive choice => exact sound.acts_receive choice

theorem later (sound : Sound theirs lastSeen calls a ps) : Sound theirs lastSeen (calls + 1) a ps :=
  ⟨sound.rep, sound.recent.later⟩

/-- What is left after an operation: the invariant, and the hashes of all entries but the last
unless the operation was to remove entries. -/
def Leaves (theirs : Ptr → LinkedEntry → Prop) (lastSeen : HashKey → Nat) (calls : Nat) (s : LruShard) (evicts : Bool)
    (a' : Arena) : Prop :=
  ∃ ps', Sound theirs lastSeen calls a' ps' ∧ (a'.view ps').capacity = s.capacity ∧
    (evicts = true → ∀ x ∈ s.entries.dropLast, ∃ y ∈ (a'.view ps').entries, y.hash = x.hash)

/-- **One operation** keeps the invariant. -/
theorem act (sound : Sound theirs lastSeen calls a ps) (op : LinkedOp) :
    Leaves theirs (note lastSeen (calls + 1) (a.sees op)) (calls + 1) (a.view ps) op.evicts (a.act op) := by
  have recent := sound.recent
  cases sound.acts op with
  | nothing unseen same =>
    rw [same, unseen]
    exact ⟨ps, sound.later, rfl, fun _ x listed => ⟨x, List.dropLast_subset _ listed, rfl⟩⟩
  | takesOut s' unseen refines kept frame keeps =>
    have recent' := recent.sublist kept frame.1
    obtain ⟨ps', sound', view⟩ := refines.sound (by rwa [ite_self])
    rw [unseen]
    refine ⟨ps', sound', by rw [view, frame.1], fun evicts x listed => ⟨x, ?_, rfl⟩⟩
    rw [view]
    exact keeps evicts listed
  | sees key hash now jitter choice s' called seen refines sees frame =>
    obtain ⟨ps', sound', view⟩ := refines.sound (recent.sees sees frame.1)
    rw [seen]
    refine ⟨ps', sound', by rw [view, frame.1], fun _ => ?_⟩
    rw [view]
    exact sees.keeps
  | resumes queue unseen quiet refines =>
    obtain ⟨ps', sound', view⟩ := refines.sound (recent.resume rfl rfl)
    rw [unseen, quiet]
    exact ⟨ps', sound', by rw [view], nofun⟩

end Sound
end Oryx.Evict
