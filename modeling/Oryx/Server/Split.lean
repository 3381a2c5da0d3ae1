import Oryx.Server.Grammar
import Oryx.Library.Runs

/-!
# Split streams

What a connection makes of a stream of frames that arrives in chunks. Each call of
the traffic handler serves the frames its chunk starts with and drops the rest, so
the replies are those of the whole stream exactly when no chunk ends inside a frame
(`split_iff`). That a lost frame is never made up for is an argument about lag: a
later occurrence of the same arguments ends later in the stream.
-/

namespace Oryx.Server
set_option autoImplicit false

open Outcome Oryx.Library

section Lag

variable [Platform]

omit [Platform] in
/-- What precedes the first carriage return is determined. -/
theorem append_cr_inj {d d' rest rest' : Bytes} (plain : ∀ c ∈ d, c ≠ 13) (plain' : ∀ c ∈ d', c ≠ 13)
    (same : d ++ 13 :: rest = d' ++ 13 :: rest') : d = d' ∧ rest = rest' := by
  induction d generalizing d' with
  | nil =>
    cases d' with
    | nil => simpa using same
    | cons c d' =>
      obtain ⟨rfl, _⟩ := List.cons.inj same
      exact absurd rfl (plain' 13 List.mem_cons_self)
  | cons c d ih =>
    cases d' with
    | nil =>
      obtain ⟨rfl, _⟩ := List.cons.inj same
      exact absurd rfl (plain 13 List.mem_cons_self)
    | cons c' d' =>
      obtain ⟨rfl, tails⟩ := List.cons.inj same
      obtain ⟨rfl, rest_eq⟩ := ih (fun x hx => plain x (List.mem_cons_of_mem _ hx))
        (fun x hx => plain' x (List.mem_cons_of_mem _ hx)) tails
      exact ⟨rfl, rest_eq⟩

theorem Numeral.no_cr {d : Bytes} {n : Nat} (numeral : Numeral d n) : ∀ c ∈ d, c ≠ 13 := by
  rintro c member rfl
  exact absurd (numeral.digit _ member).1 (by decide)

/-- A header that follows `skipped` bytes of another one's text is that header, or comes after it. -/
theorem header_append_eq {tag tag' : UInt8} {d d' rest rest' skipped : Bytes} {n n' : Nat} (numeral : Numeral d n)
    (numeral' : Numeral d' n') (no_digit : ¬(48 ≤ tag' ∧ tag' ≤ 57)) (no_cr : tag' ≠ 13) (no_lf : tag' ≠ 10)
    (same : header tag d ++ rest = skipped ++ (header tag' d' ++ rest')) :
    skipped = [] ∧ d = d' ∧ rest = rest' ∨
      ∃ more, skipped = header tag d ++ more ∧ rest = more ++ (header tag' d' ++ rest') := by
  rcases List.append_eq_append_iff.mp same with ⟨more, skipped_eq, rest_eq⟩ | ⟨inside, header_eq, tail_eq⟩
  · exact Or.inr ⟨more, skipped_eq, rest_eq⟩
  · cases skipped with
    | nil =>
      simp only [header, List.nil_append, List.cons_append, List.append_assoc, List.cons.injEq] at same
      obtain ⟨digits, tails⟩ := append_cr_inj numeral.no_cr numeral'.no_cr same.2
      exact Or.inl ⟨rfl, digits, (List.cons.inj tails).2⟩
    | cons c skipped =>
      cases inside with
      | nil =>
        refine Or.inr ⟨[], ?_, ?_⟩
        · simpa using header_eq.symm
        · simpa using tail_eq.symm
      | cons x inside =>
        -- the second header would start among the digits or at the line end of the first
        obtain ⟨rfl, _⟩ := List.cons.inj tail_eq
        have among : tag' ∈ d ++ [13, 10] := by
          rw [(List.cons.inj header_eq).2]
          simp
        rcases List.mem_append.mp among with digit | line_end
        · exact absurd (numeral.digit _ digit) no_digit
        · simp [no_cr, no_lf] at line_end

/-- **Lag of bulks**: bulks with the same payloads that start later in the same bytes end later. -/
theorem encodeBulks_lag {bulks bulks' : List Bulk} (same : bulks.map Bulk.payload = bulks'.map Bulk.payload)
    {rest rest' skipped : Bytes} (bytes : encodeBulks bulks ++ rest = skipped ++ (encodeBulks bulks' ++ rest')) :
    ∃ lag, rest = lag ++ rest' ∧ (lag = [] → skipped = []) := by
  induction bulks generalizing bulks' skipped with
  | nil =>
    obtain rfl : bulks' = [] := by simpa using same.symm
    exact ⟨skipped, bytes, id⟩
  | cons b bulks ih =>
    cases bulks' with
    | nil => simp at same
    | cons b' bulks' =>
      rw [List.map_cons, List.map_cons, List.cons.injEq] at same
      obtain ⟨payload, same⟩ := same
      simp only [encodeBulks_cons, Bulk.encode, List.append_assoc] at bytes
      rcases header_append_eq b.length b'.length (by decide) (by decide) (by decide) bytes with
        ⟨rfl, _, bodies⟩ | ⟨more, rfl, bodies⟩
      · rw [payload] at bodies
        have tails : encodeBulks bulks ++ rest = [] ++ (encodeBulks bulks' ++ rest') :=
          List.append_cancel_left (List.append_cancel_left bodies)
        obtain ⟨lag, rest_eq, _⟩ := ih same tails
        exact ⟨lag, rest_eq, fun _ => rfl⟩
      · -- the later payload is as long and starts later, so it ends later
        have ends : (b.payload ++ [13, 10]) ++ (encodeBulks bulks ++ rest) =
            (more ++ header 36 b'.digits ++ b'.payload ++ [13, 10]) ++ (encodeBulks bulks' ++ rest') := by
          simpa using bodies
        rcases List.append_eq_append_iff.mp ends with ⟨between, longer, tails⟩ | ⟨between, shorter, _⟩
        · obtain ⟨lag, rest_eq, none⟩ := ih same tails
          refine ⟨lag, rest_eq, fun empty => ?_⟩
          have lengths := congrArg List.length longer
          simp [none empty, payload] at lengths
          omega
        · have lengths := congrArg List.length shorter
          simp [payload] at lengths
          omega

/-- **Lag**: a frame with the same arguments that starts later in the same bytes ends later. -/
theorem encode_lag {f f' : Frame} (same : f.args = f'.args) {rest rest' skipped : Bytes}
    (bytes : f.encode ++ rest = skipped ++ (f'.encode ++ rest')) :
    ∃ lag, rest = lag ++ rest' ∧ (lag = [] → skipped = []) := by
  simp only [Frame.encode, List.append_assoc] at bytes
  rcases header_append_eq f.count f'.count (by decide) (by decide) (by decide) bytes with
    ⟨rfl, _, bodies⟩ | ⟨more, rfl, bodies⟩
  · have ends : encodeBulks f.bulks ++ rest = [] ++ (encodeBulks f'.bulks ++ rest') := bodies
    obtain ⟨lag, rest_eq, _⟩ := encodeBulks_lag same ends
    exact ⟨lag, rest_eq, fun _ => rfl⟩
  · have ends : encodeBulks f.bulks ++ rest =
        (more ++ header 42 f'.digits) ++ (encodeBulks f'.bulks ++ rest') := by
      simpa using bodies
    obtain ⟨lag, rest_eq, none⟩ := encodeBulks_lag same ends
    refine ⟨lag, rest_eq, fun empty => ?_⟩
    have impossible := none empty
    simp [header] at impossible

/-- A chunk as the server sees it: the frames it starts with, and what it drops. -/
structure Part where
  frames : List Frame
  dropped : Bytes

def Part.bytes (p : Part) : Bytes := stream p.frames ++ p.dropped

/-- The frames served from the parts. -/
def served (parts : List Part) : List Frame := parts.flatMap Part.frames

/-- If the parts of a stream are served with the stream's own arguments, they are the
stream's frames: every byte dropped would carry over to the end. -/
theorem served_eq_stream {parts : List Part} {frames : List Frame} {ahead : Bytes}
    (same : frames.map Frame.args = (served parts).map Frame.args)
    (bytes : stream frames = ahead ++ (parts.map Part.bytes).flatten) :
    ahead = [] ∧ (∀ p ∈ parts, p.dropped = []) ∧
      frames.map Frame.encode = (served parts).map Frame.encode := by
  induction parts generalizing frames ahead with
  | nil =>
    obtain rfl : frames = [] := by simpa [served] using same
    exact ⟨by simpa using bytes.symm, by simp, rfl⟩
  | cons p parts ih =>
    obtain ⟨first, dropped⟩ := p
    induction first generalizing frames ahead with
    | nil =>
      have tails : stream frames = (ahead ++ dropped) ++ (parts.map Part.bytes).flatten := by
        simpa [Part.bytes] using bytes
      obtain ⟨none, none_later, encodings⟩ := ih same tails
      obtain ⟨none_ahead, none_here⟩ := List.append_eq_nil_iff.mp none
      exact ⟨none_ahead, List.forall_mem_cons.mpr ⟨none_here, none_later⟩, encodings⟩
    | cons f' first ihFirst =>
      cases frames with
      | nil => simp [served] at same
      | cons f frames =>
        have args : f.args = f'.args ∧ frames.map Frame.args = (served (⟨first, dropped⟩ :: parts)).map Frame.args := by
          simpa [served] using same
        have heads : f.encode ++ stream frames =
            ahead ++ (f'.encode ++ ((⟨first, dropped⟩ :: parts).map Part.bytes).flatten) := by
          simpa [Part.bytes] using bytes
        obtain ⟨lag, tails, in_step⟩ := encode_lag args.1 heads
        obtain ⟨rfl, none, encodings⟩ := ihFirst args.2 tails
        have none_ahead := in_step rfl
        have head : f.encode = f'.encode := by
          rw [none_ahead, List.nil_append, tails] at heads
          exact List.append_cancel_right heads
        refine ⟨none_ahead, by simpa using none, ?_⟩
        simpa [served, head] using encodings

end Lag

/-! ## Connections -/

section Connections

variable [Platform] {D : Type} [Database D]

/-- One command on a connection. -/
def Conn.handle (c : Conn D) (args : List Bytes) : Conn D :=
  { c with
    db := (dispatch c.db args).2
    dispatched := c.dispatched ++ [args]
    written := c.written ++ (dispatch c.db args).1 }

/-- A connection that has been given the frames. -/
def Conn.handleAll (c : Conn D) (frames : List Frame) : Conn D :=
  frames.foldl (fun c f => c.handle f.args) c

theorem inbound_handleAll (c : Conn D) (frames : List Frame) : (c.handleAll frames).inbound = c.inbound := by
  induction frames generalizing c with
  | nil => rfl
  | cons f frames ih => exact ih (c.handle f.args)

theorem dispatched_handleAll (c : Conn D) (frames : List Frame) :
    (c.handleAll frames).dispatched = c.dispatched ++ frames.map Frame.args := by
  induction frames generalizing c with
  | nil => simp [Conn.handleAll]
  | cons f frames ih =>
    rw [Conn.handleAll, List.foldl_cons, ← Conn.handleAll, ih]
    simp [Conn.handle]

theorem handleAll_append (c : Conn D) (frames frames' : List Frame) :
    c.handleAll (frames ++ frames') = (c.handleAll frames).handleAll frames' := List.foldl_append

/-- The loop serves the frames the data starts with and stops at the first refusal. -/
theorem serve_stream {dropped : Bytes} (refused : ∀ result, parseRESPFrame dropped ≠ ok result)
    (frames : List Frame) {fuel : Nat} (enough : (stream frames ++ dropped).length ≤ fuel) (t : Traffic D) :
    serve fuel (stream frames ++ dropped) t = frames.foldl (fun t f => t.dispatch f.args) t := by
  induction frames generalizing fuel t with
  | nil =>
    cases fuel with
    | zero => rfl
    | succ fuel =>
      rw [serve, stream_nil, List.nil_append]
      split
      · split
        · rename_i parsed
          exact absurd parsed (refused _)
        · rfl
      · rfl
  | cons f frames ih =>
    rw [stream_cons, List.append_assoc, List.length_append] at enough
    have some_bytes : 0 < f.encode.length := List.length_pos_iff.mpr (encode_ne_nil f)
    have parsed : parseRESPFrame (f.encode ++ (stream frames ++ dropped)) = ok (f.args, f.encode.length) :=
      parseRESPFrame_eq_ok.mpr ⟨f, _, rfl, rfl, rfl⟩
    obtain ⟨fuel, rfl⟩ : ∃ fuel', fuel = fuel' + 1 := ⟨fuel - 1, by omega⟩
    rw [stream_cons, List.append_assoc, serve, if_pos (by rw [List.length_append]; omega), parsed]
    simp only [List.drop_left, List.foldl_cons]
    exact ih (by omega) _

/-- What a finished call of the traffic handler leaves. -/
def Conn.finish (c : Conn D) (t : Traffic D) : Conn D :=
  ⟨[], t.db, c.dispatched ++ t.dispatched, c.written ++ t.vecBuf.flatten⟩

omit [Platform] in
theorem finish_dispatch (c : Conn D) (t : Traffic D) (args : List Bytes) :
    c.finish (t.dispatch args) = (c.finish t).handle args := by
  by_cases reply : (dispatch t.db args).1.length > 0
  · simp [Conn.finish, Traffic.dispatch, Conn.handle, reply]
  · have silent : (dispatch t.db args).1 = [] := by simpa using reply
    simp [Conn.finish, Traffic.dispatch, Conn.handle, silent]

theorem finish_foldl (c : Conn D) (frames : List Frame) (t : Traffic D) :
    c.finish (frames.foldl (fun t f => t.dispatch f.args) t) = (c.finish t).handleAll frames := by
  induction frames generalizing t with
  | nil => rfl
  | cons f frames ih =>
    rw [List.foldl_cons, ih, finish_dispatch]
    rfl

/-- **One chunk**: the frames it starts with are handled, the rest is dropped. -/
theorem deliver_eq {c : Conn D} (idle : c.inbound = []) {p : Part}
    (refused : ∀ result, parseRESPFrame p.dropped ≠ ok result) : deliver c p.bytes = c.handleAll p.frames := by
  have finished : deliver c p.bytes = c.finish (serve p.bytes.length p.bytes ⟨c.db, [], [], []⟩) := by
    simp only [deliver, onTraffic, idle, List.nil_append, Conn.finish]
    split
    · rfl
    · rename_i silent
      have none := List.length_eq_zero_iff.mp (Nat.eq_zero_of_not_pos silent)
      simp [none]
  have fresh : c.finish ⟨c.db, [], [], []⟩ = c := by
    cases c
    simp_all [Conn.finish]
  rw [finished, Part.bytes, serve_stream refused _ le_rfl, finish_foldl, fresh]

/-- Every chunk is a part: it starts with some frames, and what follows is refused. -/
theorem exists_part (data : Bytes) :
    ∃ p : Part, p.bytes = data ∧ ∀ result, parseRESPFrame p.dropped ≠ ok result := by
  induction size : data.length using Nat.strong_induction_on generalizing data with
  | _ size ih =>
    by_cases parsed : ∃ result, parseRESPFrame data = ok result
    · obtain ⟨⟨args, read⟩, parsed⟩ := parsed
      obtain ⟨f, rest, _, rfl, _⟩ := parseRESPFrame_eq_ok.mp parsed
      have some_bytes : 0 < f.encode.length := List.length_pos_iff.mpr (encode_ne_nil f)
      rw [List.length_append] at size
      obtain ⟨p, rfl, refused⟩ := ih rest.length (by omega) rest rfl
      exact ⟨⟨f :: p.frames, p.dropped⟩, by simp [Part.bytes], refused⟩
    · exact ⟨⟨[], data⟩, rfl, fun result accepted => parsed ⟨result, accepted⟩⟩

/-- **Many chunks**: the frames at their starts are handled one after another. -/
theorem exists_parts (chunks : List Bytes) :
    ∃ parts : List Part, parts.map Part.bytes = chunks ∧
      ∀ c : Conn D, c.inbound = [] → runFrom deliver c chunks = c.handleAll (served parts) := by
  induction chunks with
  | nil => exact ⟨[], rfl, fun c _ => rfl⟩
  | cons chunk chunks ih =>
    obtain ⟨p, rfl, refused⟩ := exists_part chunk
    obtain ⟨parts, rfl, later⟩ := ih
    refine ⟨p :: parts, rfl, fun c idle => ?_⟩
    have idle' : (c.handleAll p.frames).inbound = [] := by rw [inbound_handleAll, idle]
    have split : served (p :: parts) = p.frames ++ served parts := List.flatMap_cons
    rw [runFrom, List.foldl_cons, ← runFrom, deliver_eq idle refused, later _ idle', split,
      handleAll_append]

theorem deliver_stream {c : Conn D} (idle : c.inbound = []) (frames : List Frame) :
    deliver c (stream frames) = c.handleAll frames := by
  have nothing : ∀ result, parseRESPFrame [] ≠ ok result := by simp [parseRESPFrame, parseHeader, check, Outcome.bind]
  have whole : (Part.mk frames []).bytes = stream frames := List.append_nil _
  rw [← whole]
  exact deliver_eq idle nothing

/-- Chunks of whole frames are handled in full. -/
theorem run_groups (groups : List (List Frame)) {c : Conn D} (idle : c.inbound = []) :
    runFrom deliver c (groups.map stream) = c.handleAll groups.flatten := by
  induction groups generalizing c with
  | nil => rfl
  | cons group groups ih =>
    have idle' : (c.handleAll group).inbound = [] := by rw [inbound_handleAll, idle]
    rw [List.map_cons, runFrom, List.foldl_cons, ← runFrom, deliver_stream idle, ih idle', List.flatten_cons,
      handleAll_append]

/-- Every chunk is made of whole frames: no cut falls inside one. -/
def CutBetweenFrames (frames : List Frame) (chunks : List Bytes) : Prop :=
  ∃ groups : List (List Frame), groups.flatten = frames ∧ groups.map stream = chunks

omit [Database D] in
/-- Frames with the bytes of the served ones can be grouped like them. -/
theorem exists_groups {parts : List Part} {frames : List Frame}
    (same : frames.map Frame.encode = (served parts).map Frame.encode) :
    ∃ groups : List (List Frame), groups.flatten = frames ∧
      groups.map stream = parts.map fun p => stream p.frames := by
  induction parts generalizing frames with
  | nil =>
    obtain rfl : frames = [] := by simpa [served] using same
    exact ⟨[], rfl, rfl⟩
  | cons p parts ih =>
    have split : served (p :: parts) = p.frames ++ served parts := List.flatMap_cons
    rw [split, List.map_append] at same
    obtain ⟨group, rest, rfl, here, later⟩ := List.map_eq_append_iff.mp same
    obtain ⟨groups, rfl, bytes⟩ := ih later
    refine ⟨group :: groups, rfl, ?_⟩
    have first : stream group = stream p.frames := by
      rw [stream, stream, List.flatMap_def, List.flatMap_def, here]
    rw [List.map_cons, List.map_cons, first, bytes]

/-- **Split streams**: a stream of frames that arrives in chunks is dispatched and
answered as in one chunk exactly when no cut falls inside a frame. -/
theorem split_iff (db : D) (frames : List Frame) (chunks : List Bytes) (cut : chunks.flatten = stream frames) :
    (runFrom deliver (onOpen db) chunks).dispatched = (deliver (onOpen db) (stream frames)).dispatched ∧
        (runFrom deliver (onOpen db) chunks).written = (deliver (onOpen db) (stream frames)).written ↔
      CutBetweenFrames frames chunks := by
  have idle : (onOpen db).inbound = [] := rfl
  rw [deliver_stream idle]
  constructor
  · rintro ⟨dispatched, _⟩
    obtain ⟨parts, rfl, run⟩ := exists_parts (D := D) chunks
    rw [run _ idle, dispatched_handleAll, dispatched_handleAll] at dispatched
    have args := (List.append_cancel_left dispatched).symm
    have bytes : stream frames = [] ++ (parts.map Part.bytes).flatten := cut.symm
    obtain ⟨_, none_dropped, encodings⟩ := served_eq_stream args bytes
    obtain ⟨groups, flatten, group_bytes⟩ := exists_groups encodings
    refine ⟨groups, flatten, group_bytes.trans (List.map_congr_left fun p member => ?_)⟩
    rw [Part.bytes, none_dropped p member, List.append_nil]
  · rintro ⟨groups, rfl, rfl⟩
    rw [run_groups groups idle]
    exact ⟨rfl, rfl⟩

end Connections

/-! ## A cut inside a frame -/

scoped instance amd64 : Platform := ⟨64, Or.inr rfl⟩

/-- A key-value store without errors. -/
scoped instance store : Database (List (Key × Bytes)) where
  get db key := (db.lookup key, db)
  set db key val := (none, (key, val) :: db)
  delete db key := (.ok (db.lookup key).isSome, db.filter (·.1 ≠ key))

/-- A bulk string whose length has one digit. -/
def bulk (payload : Bytes) (digit : UInt8) (length : parseFastInt [digit] = .ok payload.length) : Bulk :=
  ⟨[digit], payload, parseFastInt_eq_ok.mp length⟩

def setFrame : Frame where
  digits := [51]
  bulks := [bulk (ascii "SET") 51 rfl, bulk (ascii "k") 49 rfl, bulk (ascii "*1") 50 rfl]
  count := parseFastInt_eq_ok.mp rfl
  limit := by decide

def getFrame : Frame where
  digits := [50]
  bulks := [bulk (ascii "get") 51 rfl, bulk (ascii "k") 49 rfl]
  count := parseFastInt_eq_ok.mp rfl
  limit := by decide

/-- A write and the read of it in two chunks. -/
theorem split_iff_pipelined :
    (runFrom deliver (onOpen ([] : List (Key × Bytes))) [setFrame.encode, getFrame.encode]).written =
        (deliver (onOpen ([] : List (Key × Bytes))) (stream [setFrame, getFrame])).written ∧
      CutBetweenFrames [setFrame, getFrame] [setFrame.encode, getFrame.encode] := by
  have between : CutBetweenFrames [setFrame, getFrame] [setFrame.encode, getFrame.encode] :=
    ⟨[[setFrame], [getFrame]], rfl, by simp [stream]⟩
  exact ⟨((split_iff [] [setFrame, getFrame] _ (by simp [stream])).mpr between).2, between⟩

/-- The write in two chunks, cut inside its value: it never reaches the database and gets no reply. -/
theorem split_loses_write :
    let chunks := [setFrame.encode.take 25, setFrame.encode.drop 25]
    chunks.flatten = stream [setFrame] ∧ (∀ chunk ∈ chunks, chunk ≠ []) ∧
      (deliver (onOpen ([] : List (Key × Bytes))) (stream [setFrame])).written = respOK ∧
      (runFrom deliver (onOpen ([] : List (Key × Bytes))) chunks).written = [] ∧
      (runFrom deliver (onOpen ([] : List (Key × Bytes))) chunks).dispatched = [] := by
  decide +kernel

end Oryx.Server
