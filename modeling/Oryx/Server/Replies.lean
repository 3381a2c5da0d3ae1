import Mathlib.Data.List.TakeWhile
import Oryx.Server.Accepted
import Oryx.Server.Split

/-!
# One reply per command

The replies that `dispatchToBuffer` writes, as a client of the protocol reads them. A reply
is a line with a tag, or a string with its length in front; a line ends at the first CR LF.
The texts of the database's errors go into a line as they are.
-/

namespace Oryx.Server
set_option autoImplicit false

open Outcome Oryx.Library

/-! ## Replies -/

inductive Reply where
  | simple (text : Bytes)
  | error (text : Bytes)
  | int (n : Nat)
  | bulk (payload : Bytes)
  | nil
  deriving DecidableEq, Repr

/-- A byte that does not end a line. -/
def inLine (c : UInt8) : Bool := c ≠ 13 && c ≠ 10

/-- A text that fits in a line. -/
def Plain (text : Bytes) : Prop := ∀ c ∈ text, inLine c = true

instance (text : Bytes) : Decidable (Plain text) := List.decidableBAll _ text

namespace Reply

def encode : Reply → Bytes
  | simple text => 43 :: (text ++ crlf)
  | error text => 45 :: (text ++ crlf)
  | int n => 58 :: (decimal n ++ crlf)
  | bulk payload => 36 :: (decimal payload.length ++ crlf ++ payload ++ crlf)
  | nil => ascii "$-1" ++ crlf

def WellFormed : Reply → Prop
  | simple text => Plain text
  | error text => Plain text
  | _ => True

instance : (r : Reply) → Decidable r.WellFormed
  | simple text => inferInstanceAs (Decidable (Plain text))
  | error text => inferInstanceAs (Decidable (Plain text))
  | int _ => isTrue trivial
  | bulk _ => isTrue trivial
  | nil => isTrue trivial

end Reply

/-! ## The client -/

/-- The bytes up to the end of the line, and those after it. -/
def readLine (b : Bytes) : Option (Bytes × Bytes) :=
  match b.dropWhile inLine with
  | 13 :: 10 :: rest => some (b.takeWhile inLine, rest)
  | _ => none

def readNumber (line : Bytes) : Option Nat :=
  if line ≠ [] ∧ line.all (fun c => 48 ≤ c && c ≤ 57) then some (digitsValue 0 line) else none

/-- The first reply in the bytes, and what follows it. -/
def decodeReply : Bytes → Option (Reply × Bytes)
  | [] => none
  | tag :: b =>
    match readLine b with
    | none => none
    | some (line, rest) =>
      if tag = 43 then some (.simple line, rest)
      else if tag = 45 then some (.error line, rest)
      else if tag = 58 then (readNumber line).map fun n => (.int n, rest)
      else if tag = 36 then
        if line = ascii "-1" then some (.nil, rest)
        else match readNumber line with
          | none => none
          | some n =>
            if (rest.drop n).take 2 = crlf then some (.bulk (rest.take n), rest.drop (n + 2)) else none
      else none

/-- All replies in the bytes. Every reply is at least one byte long, so the length of the
bytes is fuel enough. -/
def decodeReplies : Nat → Bytes → Option (List Reply)
  | _, [] => some []
  | 0, _ :: _ => none
  | fuel + 1, c :: b =>
    match decodeReply (c :: b) with
    | none => none
    | some (reply, rest) => (decodeReplies fuel rest).map (reply :: ·)

theorem readLine_append {text : Bytes} (plain : Plain text) (rest : Bytes) :
    readLine (text ++ crlf ++ rest) = some (text, rest) := by
  have stops : (crlf ++ rest).takeWhile inLine = [] ∧ (crlf ++ rest).dropWhile inLine = 13 :: 10 :: rest := by
    simp [crlf, inLine]
  rw [readLine, List.append_assoc, List.dropWhile_append_of_pos plain, List.takeWhile_append_of_pos plain, stops.1,
    stops.2, List.append_nil]
  rfl

theorem plain_of_readLine {b line rest : Bytes} (read : readLine b = some (line, rest)) : Plain line := by
  unfold readLine at read
  split at read
  · cases read
    exact fun c member => List.mem_takeWhile_imp member
  · cases read

theorem plain_decimal (n : Nat) : Plain (decimal n) := by
  intro c member
  have low := ((decimal_spec n).2.1 c member).1
  have carriage : c ≠ 13 := by
    rintro rfl
    exact absurd low (by decide)
  have newline : c ≠ 10 := by
    rintro rfl
    exact absurd low (by decide)
  simp [inLine, carriage, newline]

theorem readNumber_decimal (n : Nat) : readNumber (decimal n) = some n := by
  obtain ⟨nonempty, digits, value⟩ := decimal_spec n
  have numeral : (decimal n).all (fun c => 48 ≤ c && c ≤ 57) = true := by simpa using digits
  rw [readNumber, if_pos ⟨nonempty, numeral⟩, value]

/-- A length is not taken for the one of nil. -/
theorem decimal_ne_minus (n : Nat) : decimal n ≠ ascii "-1" := by
  intro same
  have minus : (45 : UInt8) ∈ decimal n := by
    rw [same]
    decide
  exact absurd ((decimal_spec n).2.1 45 minus).1 (by decide)

/-- **A client reads a well-formed reply** and stops where it ends. -/
theorem decodeReply_encode {r : Reply} (wellFormed : r.WellFormed) (rest : Bytes) :
    decodeReply (r.encode ++ rest) = some (r, rest) := by
  cases r with
  | simple text =>
    rw [Reply.encode, List.cons_append, decodeReply, readLine_append wellFormed]
    rfl
  | error text =>
    rw [Reply.encode, List.cons_append, decodeReply, readLine_append wellFormed]
    rfl
  | int n =>
    rw [Reply.encode, List.cons_append, decodeReply, readLine_append (plain_decimal n)]
    simp [readNumber_decimal]
  | bulk payload =>
    have line : readLine (decimal payload.length ++ crlf ++ payload ++ crlf ++ rest) =
        some (decimal payload.length, payload ++ crlf ++ rest) := by
      rw [List.append_assoc, List.append_assoc, readLine_append (plain_decimal _), List.append_assoc]
    rw [Reply.encode, List.cons_append, decodeReply, line]
    simp [readNumber_decimal, decimal_ne_minus, crlf]
  | nil => rfl

theorem wellFormed_of_decodeReply {b rest : Bytes} {r : Reply} (decoded : decodeReply b = some (r, rest)) :
    r.WellFormed := by
  cases b with
  | nil => cases decoded
  | cons tag b =>
    rw [decodeReply] at decoded
    split at decoded
    · cases decoded
    · rename_i line after read
      have plain := plain_of_readLine read
      split at decoded
      · cases decoded
        exact plain
      split at decoded
      · cases decoded
        exact plain
      split at decoded
      · obtain ⟨n, _, same⟩ := Option.map_eq_some_iff.mp decoded
        cases same
        trivial
      split at decoded
      · split at decoded
        · cases decoded
          trivial
        · split at decoded
          · cases decoded
          · split at decoded
            · cases decoded
              trivial
            · cases decoded
      · cases decoded

theorem wellFormed_of_decodeReplies {fuel : Nat} {b : Bytes} {replies : List Reply}
    (decoded : decodeReplies fuel b = some replies) : ∀ r ∈ replies, r.WellFormed := by
  induction fuel generalizing b replies with
  | zero =>
    cases b with
    | nil =>
      cases decoded
      exact nofun
    | cons c b => cases decoded
  | succ fuel ih =>
    cases b with
    | nil =>
      cases decoded
      exact nofun
    | cons c b =>
      rw [decodeReplies] at decoded
      split at decoded
      · cases decoded
      · rename_i reply rest first
        obtain ⟨later, found, rfl⟩ := Option.map_eq_some_iff.mp decoded
        exact List.forall_mem_cons.mpr ⟨wellFormed_of_decodeReply first, ih found⟩

theorem encode_ne_nil_reply (r : Reply) : 0 < r.encode.length := by
  cases r <;> simp [Reply.encode, crlf, ascii]

theorem decodeReplies_encode {replies : List Reply} (wellFormed : ∀ r ∈ replies, r.WellFormed) {fuel : Nat}
    (enough : (replies.flatMap Reply.encode).length ≤ fuel) :
    decodeReplies fuel (replies.flatMap Reply.encode) = some replies := by
  induction replies generalizing fuel with
  | nil => cases fuel <;> rfl
  | cons r replies ih =>
    obtain ⟨here, later⟩ := List.forall_mem_cons.mp wellFormed
    have some_bytes := encode_ne_nil_reply r
    rw [List.flatMap_cons, List.length_append] at enough
    obtain ⟨fuel, rfl⟩ : ∃ fuel', fuel = fuel' + 1 := ⟨fuel - 1, by omega⟩
    have first := decodeReply_encode here (replies.flatMap Reply.encode)
    rw [List.flatMap_cons]
    cases bytes : r.encode ++ replies.flatMap Reply.encode with
    | nil => simp [List.append_eq_nil_iff.mp bytes] at some_bytes
    | cons c b =>
      rw [bytes] at first
      have rest : (replies.flatMap Reply.encode).length ≤ fuel := by omega
      rw [decodeReplies, first]
      simp only [ih later rest, Option.map_some]

/-- **A client reads back what was sent** exactly when every reply is well formed. -/
theorem decodeReplies_iff (replies : List Reply) :
    decodeReplies (replies.flatMap Reply.encode).length (replies.flatMap Reply.encode) = some replies ↔
      ∀ r ∈ replies, r.WellFormed :=
  ⟨wellFormed_of_decodeReplies, fun wellFormed => decodeReplies_encode wellFormed le_rfl⟩

/-! ## The server -/

section Dispatch

variable {D : Type} [Database D]

/-- The error at which the loop of `DEL` stops. -/
def deleteError (db : D) : List Bytes → Option Bytes
  | [] => none
  | key :: rest =>
    match Database.delete db key with
    | (.error err, _) => some err
    | (.ok _, db) => deleteError db rest

def setError (db : D) : List Bytes → Option Bytes
  | [key, val] => (Database.set db key val).1
  | _ => none

/-- The error that the database answers a command with. -/
def databaseError (db : D) : List Bytes → Option Bytes
  | [] => none
  | cmd :: rest =>
    if equalFold cmd "SET" then setError db rest
    else if equalFold cmd "DEL" then deleteError db rest
    else none

/-- The bytes are one reply, and it is well formed if the text of the error is a line. -/
def Replies (output : Bytes) (err : Option Bytes) : Prop :=
  ∃ r : Reply, output = r.encode ∧ (r.WellFormed ↔ ∀ text ∈ err, Plain text)

theorem Replies.of_wellFormed {output : Bytes} {r : Reply} (encoded : output = r.encode) (wellFormed : r.WellFormed) :
    Replies output none :=
  ⟨r, encoded, iff_of_true wellFormed nofun⟩

theorem replies_respErr (err : Bytes) : Replies (respErr err) (some err) := by
  refine ⟨.error (ascii "ERR " ++ err), by simp [respErr, Reply.encode, ascii], ?_⟩
  simp [Reply.WellFormed, Plain, ascii, inLine]

theorem replies_bulkBytes (val : Bytes) : Replies (bulkBytes val) none :=
  .of_wellFormed (r := .bulk val) (by simp [bulkBytes, Reply.encode, ascii]) trivial

theorem replies_deleteAll (db : D) (keys : List Bytes) (count : Nat) :
    Replies (deleteAll db keys count).1 (deleteError db keys) := by
  induction keys generalizing db count with
  | nil => exact .of_wellFormed (r := .int count) (by simp [deleteAll, intReply, Reply.encode, ascii]) trivial
  | cons key rest ih =>
    rw [deleteAll, deleteError]
    rcases Database.delete db key with ⟨err | existed, db⟩
    · exact replies_respErr err
    · exact ih db _

/-- A command has one spelling up to case. -/
theorem equalFold_false {cmd : Bytes} {word other : String} (same : equalFold cmd word = true)
    (differ : (ascii word).map lower ≠ (ascii other).map lower) : equalFold cmd other = false := by
  rw [equalFold, decide_eq_true_eq] at same
  rw [equalFold, same, decide_eq_false_iff_not]
  exact differ

theorem equalFold_of_length {cmd : Bytes} {word : String} (differ : cmd.length ≠ (ascii word).length) :
    equalFold cmd word = false := by
  rw [equalFold, decide_eq_false_iff_not]
  intro same
  exact differ (by simpa using congrArg List.length same)

/-- Only `SET` and `DEL` are answered with an error of the database. -/
theorem databaseError_eq_none {cmd : Bytes} (set : equalFold cmd "SET" = false) (del : equalFold cmd "DEL" = false)
    (db : D) (rest : List Bytes) : databaseError db (cmd :: rest) = none := by
  simp [databaseError, set, del]

theorem replies_respErrArgs : Replies respErrArgs none :=
  .of_wellFormed (r := .error (ascii "ERR wrong number of arguments")) rfl (by decide)

theorem replies_respErrCmd : Replies respErrCmd none :=
  .of_wellFormed (r := .error (ascii "ERR unknown command")) rfl (by decide)

theorem replies_respOK : Replies respOK none := .of_wellFormed (r := .simple (ascii "OK")) rfl (by decide)

theorem replies_respNil : Replies respNil none := .of_wellFormed (r := .nil) rfl trivial

/-- **One command**: what `dispatchToBuffer` appends is the encoding of one reply, and the
reply is well formed exactly when the text of the error that the database gave, if any, fits
in a line. -/
theorem replies_dispatch (db : D) (args : List Bytes) : Replies (dispatch db args).1 (databaseError db args) := by
  cases args with
  | nil => exact .of_wellFormed (r := .error (ascii "ERR empty command")) rfl (by decide)
  | cons cmd rest =>
    have quiet {n : Nat} (size : cmd.length = n) (other : n ≠ 3) : databaseError db (cmd :: rest) = none := by
      refine databaseError_eq_none (equalFold_of_length ?_) (equalFold_of_length ?_) db rest
      · rw [size]
        exact other
      · rw [size]
        exact other
    simp only [dispatch]
    split
    · by_cases get : equalFold cmd "GET" = true
      · rw [if_pos get, databaseError_eq_none (equalFold_false get (by decide)) (equalFold_false get (by decide))]
        split
        · rename_i key
          rcases Database.get db key with ⟨_ | val, db⟩
          · exact replies_respNil
          · exact replies_bulkBytes val
        · exact replies_respErrArgs
      rw [if_neg get]
      by_cases set : equalFold cmd "SET" = true
      · rw [if_pos set, databaseError, if_pos set]
        rcases rest with _ | ⟨key, _ | ⟨val, _ | ⟨more, rest⟩⟩⟩
        · exact replies_respErrArgs
        · exact replies_respErrArgs
        · simp only [setError]
          rcases Database.set db key val with ⟨_ | err, db⟩
          · exact replies_respOK
          · exact replies_respErr err
        · exact replies_respErrArgs
      rw [if_neg set]
      by_cases del : equalFold cmd "DEL" = true
      · rw [if_pos del, databaseError, if_neg set, if_pos del]
        split
        · rename_i empty
          rw [empty]
          exact replies_respErrArgs
        · exact replies_deleteAll db rest 0
      · rw [if_neg del, databaseError, if_neg set, if_neg del]
        exact replies_respErrCmd
    · rename_i four
      rw [quiet four (by decide)]
      split
      · split
        · rename_i msg _
          exact replies_bulkBytes msg
        · exact .of_wellFormed (r := .simple (ascii "PONG")) rfl (by decide)
      split
      · split
        · rename_i msg _
          exact replies_bulkBytes msg
        · exact replies_respNil
      split
      · exact replies_respOK
      · exact replies_respErrCmd
    · rename_i six
      rw [quiet six (by decide)]
      split
      · split
        · rename_i key
          rcases Database.get db key with ⟨_ | val, db⟩
          · exact .of_wellFormed (r := .int 0) rfl trivial
          · exact .of_wellFormed (r := .int 1) rfl trivial
        · exact replies_respErrArgs
      · exact replies_respErrCmd
    · rename_i three _ _
      rw [quiet rfl three]
      exact replies_respErrCmd

/-! ## Pipelines -/

/-- The database after a command. -/
def afterCommand (db : D) (args : List Bytes) : D := (dispatch db args).2

/-- What `dispatchToBuffer` appends, command by command. -/
def appended (db : D) (args : List Bytes) : List Bytes := [(dispatch db args).1]

/-- The command gets exactly one well-formed reply. -/
def OneReply (db : D) (args : List Bytes) : Prop := ∃ r : Reply, r.WellFormed ∧ (dispatch db args).1 = r.encode

/-- An error that the database answers with has a text without CR and LF. -/
def PlainError (db : D) (args : List Bytes) : Prop := ∀ text ∈ databaseError db args, Plain text

theorem wellFormed_of_encode_eq {r r' : Reply} (same : r.encode = r'.encode) (wellFormed : r.WellFormed) :
    r'.WellFormed := by
  cases r' with
  | simple text =>
    cases r <;> simp [Reply.encode, ascii] at same
    exact same ▸ wellFormed
  | error text =>
    cases r <;> simp [Reply.encode, ascii] at same
    exact same ▸ wellFormed
  | int n => trivial
  | bulk payload => trivial
  | nil => trivial

theorem oneReply_iff (db : D) (args : List Bytes) : OneReply db args ↔ PlainError db args := by
  obtain ⟨r, encoded, wellFormed⟩ := replies_dispatch db args
  constructor
  · rintro ⟨r', wellFormed', encoded'⟩
    exact wellFormed.mp (wellFormed_of_encode_eq (encoded'.symm.trans encoded) wellFormed')
  · exact fun plain => ⟨r, wellFormed.mpr plain, encoded⟩

theorem along_oneReply_iff (db : D) (cmds : List (List Bytes)) :
    Along afterCommand OneReply db cmds ↔ Along afterCommand PlainError db cmds := by
  induction cmds generalizing db with
  | nil => exact Iff.rfl
  | cons args rest ih => exact and_congr (oneReply_iff db args) (ih _)

/-- The replies to a pipeline, when each command gets one. -/
theorem along_oneReply_iff_exists (db : D) (cmds : List (List Bytes)) :
    Along afterCommand OneReply db cmds ↔
      ∃ replies : List Reply, (∀ r ∈ replies, r.WellFormed) ∧
        replies.map Reply.encode = emitted afterCommand appended db cmds := by
  induction cmds generalizing db with
  | nil => exact iff_of_true trivial ⟨[], nofun, rfl⟩
  | cons args rest ih =>
    rw [Along, ih, emitted]
    constructor
    · rintro ⟨⟨r, here, encoded⟩, replies, later, sent⟩
      exact ⟨r :: replies, List.forall_mem_cons.mpr ⟨here, later⟩, by rw [List.map_cons, sent, ← encoded]; rfl⟩
    · rintro ⟨replies, wellFormed, sent⟩
      rw [appended, List.singleton_append] at sent
      obtain ⟨r, replies, rfl, encoded, sent⟩ := List.map_eq_cons_iff.mp sent
      obtain ⟨here, later⟩ := List.forall_mem_cons.mp wellFormed
      exact ⟨⟨r, here, encoded.symm⟩, replies, later, sent⟩

theorem length_emitted_appended (db : D) (cmds : List (List Bytes)) :
    (emitted afterCommand appended db cmds).length = cmds.length := by
  induction cmds generalizing db with
  | nil => rfl
  | cons args rest ih => rw [emitted, appended, List.singleton_append, List.length_cons, ih, List.length_cons]

variable [Platform]

theorem written_handleAll (c : Conn D) (frames : List Frame) :
    (c.handleAll frames).written =
      c.written ++ (emitted afterCommand appended c.db (frames.map Frame.args)).flatten := by
  induction frames generalizing c with
  | nil => simp [Conn.handleAll, emitted]
  | cons f frames ih =>
    rw [Conn.handleAll, List.foldl_cons, ← Conn.handleAll, ih]
    simp [Conn.handle, emitted, appended, afterCommand]

/-- **One reply per command**: for a pipeline of commands, the server appends exactly one
well-formed reply for each, and a client reads from the output the replies to the commands
in their order, exactly when no error of the database has a text with CR or LF in it. -/
theorem one_reply_per_command_iff (db : D) (frames : List Frame) :
    let cmds := frames.map Frame.args
    let output := (deliver (onOpen db) (stream frames)).written
    let chunks := emitted afterCommand appended db cmds
    output = chunks.flatten ∧ chunks.length = frames.length ∧
      (Along afterCommand OneReply db cmds ↔ Along afterCommand PlainError db cmds) ∧
      ((∃ replies : List Reply, replies.map Reply.encode = chunks ∧
          decodeReplies output.length output = some replies) ↔
        Along afterCommand PlainError db cmds) := by
  intro cmds output chunks
  have sent : output = chunks.flatten := by
    show (deliver (onOpen db) (stream frames)).written = chunks.flatten
    rw [deliver_stream rfl, written_handleAll]
    rfl
  have count : chunks.length = frames.length := by rw [length_emitted_appended, List.length_map]
  refine ⟨sent, count, along_oneReply_iff db cmds, ?_⟩
  rw [← along_oneReply_iff, along_oneReply_iff_exists]
  refine exists_congr fun replies => ?_
  rw [and_comm]
  refine and_congr_left fun encoded => ?_
  have bytes : output = replies.flatMap Reply.encode := by
    rw [sent, ← encoded, List.flatMap_def]
  rw [bytes]
  exact decodeReplies_iff replies

end Dispatch

/-! ## A key with a line end -/

/-- A database whose ring has no members: its gateway finds no owners for any key. -/
structure Ownerless where
  deriving DecidableEq

instance : Database Ownerless where
  get db _ := (none, db)
  set db key _ := (some (ascii "no replica owners found for key: " ++ key), db)
  delete db key := (.error (ascii "no replica owners found for key: " ++ key), db)

/-- A `SET` of a key that holds CR LF gets two replies: an error that breaks off inside the
key, and the rest of the key. -/
theorem set_gets_two_replies :
    let db : Ownerless := ⟨⟩
    let set := [ascii "SET", ascii "a" ++ crlf ++ ascii "+OK", ascii "v"]
    ¬OneReply db set ∧
      decodeReplies 100 (dispatch db set).1 =
        some [.error (ascii "ERR no replica owners found for key: a"), .simple (ascii "OK")] := by
  refine ⟨fun one => ?_, by decide +kernel⟩
  have plain := (oneReply_iff _ _).mp one
  exact absurd (plain _ rfl) (by decide +kernel)

end Oryx.Server
