import Mathlib.Algebra.Group.Nat.Defs
import Mathlib.Data.List.Basic
import Oryx.Kv

/-!
# The RESP server

`server/resp.go`: the frame parser, the command dispatcher and the traffic handler of
a connection. The parser is kept index by index; an index out of range is the
outcome `panic`. The database is whatever implements `Database`, and the event loop
is what its documentation says: a call of the traffic handler finds all bytes that
have arrived and takes them out of the connection's buffer.
-/

namespace Oryx.Server
set_option autoImplicit false

/-- Go's `int` has 32 or 64 bits. -/
class Platform where
  wordSize : Nat
  word : wordSize = 32 ∨ wordSize = 64

def maxInt [Platform] : Nat := 2 ^ (Platform.wordSize - 1) - 1

def maxArgs : Nat := 1024

/-- What a piece of the parser comes to: a panic, `ok == false`, or a result. -/
inductive Outcome (α : Type) where
  | panic
  | refused
  | ok (a : α)
  deriving DecidableEq, Repr

namespace Outcome

variable {α β : Type}

def bind : Outcome α → (α → Outcome β) → Outcome β
  | panic, _ => panic
  | refused, _ => refused
  | ok a, f => f a

/-- A read at an index. -/
def ofIndex : Option α → Outcome α
  | none => panic
  | some a => ok a

/-- Go on if the condition holds. -/
def check (p : Prop) [Decidable p] : Outcome Unit := if p then ok () else refused

end Outcome

open Outcome

/-! ## The parser -/

section Parser

variable [Platform]

def parseDigits (n : Nat) : Bytes → Except Error Nat
  | [] => .ok n
  | c :: rest =>
    if c < 48 ∨ c > 57 then .error (ascii "invalid digit")
    else if n > (maxInt - (c.toNat - 48)) / 10 then .error (ascii "integer overflow")
    else parseDigits (n * 10 + (c.toNat - 48)) rest

def parseFastInt (b : Bytes) : Except Error Nat :=
  if b.length = 0 then .error (ascii "empty int") else parseDigits 0 b

/-- `data[lo:hi]`. -/
def slice (data : Bytes) (lo hi : Nat) : Outcome Bytes :=
  if lo ≤ hi ∧ hi ≤ data.length then ok ((data.take hi).drop lo) else panic

/-- The line at `read` that starts with `tag` and holds a number: the number, and where
the line ends. The array header and each bulk header are read this way. -/
def parseHeader (tag : UInt8) (data : Bytes) (read : Nat) : Outcome (Nat × Nat) :=
  (check (read < data.length)).bind fun _ =>
  (ofIndex data[read]?).bind fun first =>
  (check (first = tag)).bind fun _ =>
  match (data.drop read).findIdx? (· = 10) with
  | none => refused
  | some idx =>
    (check (¬idx < 2)).bind fun _ =>
    (ofIndex data[read + idx - 1]?).bind fun last =>
    (check (last = 13)).bind fun _ =>
    (slice data (read + 1) (read + idx - 1)).bind fun digits =>
    match parseFastInt digits with
    | .error _ => refused
    | .ok n => ok (n, read + idx + 1)

/-- One turn of the argument loop: the argument, and where the next one starts. -/
def parseBulk (data : Bytes) (read : Nat) : Outcome (Bytes × Nat) :=
  (parseHeader 36 data read).bind fun header =>
  (check (¬(data.length - header.2 < 2 ∨ header.1 > data.length - header.2 - 2))).bind fun _ =>
  (ofIndex data[header.2 + header.1]?).bind fun cr =>
  (check (cr = 13)).bind fun _ =>
  (ofIndex data[header.2 + header.1 + 1]?).bind fun lf =>
  (check (lf = 10)).bind fun _ =>
  (slice data header.2 (header.2 + header.1)).bind fun arg =>
  ok (arg, header.2 + header.1 + 2)

def parseBulks (data : Bytes) : Nat → Nat → List Bytes → Outcome (List Bytes × Nat)
  | 0, read, argBuf => ok (argBuf, read)
  | left + 1, read, argBuf =>
    (parseBulk data read).bind fun bulk => parseBulks data left bulk.2 (argBuf ++ [bulk.1])

/-- The arguments of the frame at the start of `data`, and its length. -/
def parseRESPFrame (data : Bytes) : Outcome (List Bytes × Nat) :=
  (parseHeader 42 data 0).bind fun header =>
  (check (¬header.1 > maxArgs)).bind fun _ => parseBulks data header.1 header.2 []

end Parser

/-! ## Commands -/

/-- `oryx.Database` as the server uses it; an error is its text. -/
class Database (D : Type) where
  get : D → Key → Option Bytes × D
  set : D → Key → Bytes → Option Bytes × D
  delete : D → Key → Except Bytes Bool × D

def crlf : Bytes := [13, 10]

def respOK : Bytes := ascii "+OK" ++ crlf

def respPONG : Bytes := ascii "+PONG" ++ crlf

def respNil : Bytes := ascii "$-1" ++ crlf

def respZeroInt : Bytes := ascii ":0" ++ crlf

def respOneInt : Bytes := ascii ":1" ++ crlf

def respErrCmd : Bytes := ascii "-ERR unknown command" ++ crlf

def respErrArgs : Bytes := ascii "-ERR wrong number of arguments" ++ crlf

/-- `-ERR %v`. -/
def respErr (err : Bytes) : Bytes := ascii "-ERR " ++ err ++ crlf

def bulkBytes (val : Bytes) : Bytes := ascii "$" ++ decimal val.length ++ crlf ++ val ++ crlf

def intReply (val : Nat) : Bytes := ascii ":" ++ decimal val ++ crlf

def lower (c : UInt8) : UInt8 := if 65 ≤ c ∧ c ≤ 90 then c + 32 else c

/-- `bytes.EqualFold` against an ASCII word of the same length: every other spelling of a
letter that Unicode folding knows takes more bytes. -/
def equalFold (cmd : Bytes) (word : String) : Bool := cmd.map lower = (ascii word).map lower

section Dispatch

variable {D : Type} [Database D]

/-- The loop of `DEL`; it stops at the first error. -/
def deleteAll (db : D) : List Bytes → Nat → Bytes × D
  | [], count => (intReply count, db)
  | key :: rest, count =>
    match Database.delete db key with
    | (.error err, db) => (respErr err, db)
    | (.ok existed, db) => deleteAll db rest (if existed then count + 1 else count)

/-- What `dispatchToBuffer` appends to the output, and the database after it. -/
def dispatch (db : D) (args : List Bytes) : Bytes × D :=
  match args with
  | [] => (ascii "-ERR empty command" ++ crlf, db)
  | cmd :: rest =>
    match cmd.length with
    | 3 =>
      if equalFold cmd "GET" then
        match rest with
        | [key] =>
          match Database.get db key with
          | (none, db) => (respNil, db)
          | (some val, db) => (bulkBytes val, db)
        | _ => (respErrArgs, db)
      else if equalFold cmd "SET" then
        match rest with
        | [key, val] =>
          match Database.set db key val with
          | (some err, db) => (respErr err, db)
          | (none, db) => (respOK, db)
        | _ => (respErrArgs, db)
      else if equalFold cmd "DEL" then
        if rest = [] then (respErrArgs, db) else deleteAll db rest 0
      else (respErrCmd, db)
    | 4 =>
      if equalFold cmd "PING" then
        match rest with
        | msg :: _ => (bulkBytes msg, db)
        | [] => (respPONG, db)
      else if equalFold cmd "ECHO" then
        match rest with
        | msg :: _ => (bulkBytes msg, db)
        | [] => (respNil, db)
      else if equalFold cmd "QUIT" then (respOK, db)
      else (respErrCmd, db)
    | 6 =>
      if equalFold cmd "EXISTS" then
        match rest with
        | [key] =>
          match Database.get db key with
          | (some _, db) => (respOneInt, db)
          | (none, db) => (respZeroInt, db)
        | _ => (respErrArgs, db)
      else (respErrCmd, db)
    | _ => (respErrCmd, db)

/-! ## Connections -/

/-- The local state of one call of the traffic handler, with the commands it has dispatched. -/
structure Traffic (D : Type) where
  db : D
  outBuf : Bytes
  vecBuf : List Bytes
  dispatched : List (List Bytes)

def Traffic.dispatch (t : Traffic D) (args : List Bytes) : Traffic D :=
  let reply := Server.dispatch t.db args
  { db := reply.2
    outBuf := t.outBuf ++ reply.1
    vecBuf := if reply.1.length > 0 then t.vecBuf ++ [reply.1] else t.vecBuf
    dispatched := t.dispatched ++ [args] }

/-- The frame loop. Every frame is at least one byte long, so the length of the data
is fuel enough; the parser does not panic, and anything it refuses ends the loop. -/
def serve [Platform] : Nat → Bytes → Traffic D → Traffic D
  | 0, _, t => t
  | fuel + 1, data, t =>
    if data.length > 0 then
      match parseRESPFrame data with
      | ok (args, read) => serve fuel (data.drop read) (t.dispatch args)
      | _ => t
    else t

/-- A connection: the inbound buffer of the event loop, the database, and what has been
dispatched and written back so far. -/
structure Conn (D : Type) where
  inbound : Bytes
  db : D
  dispatched : List (List Bytes)
  written : Bytes

def onOpen (db : D) : Conn D := ⟨[], db, [], []⟩

/-- `OnTraffic`: `c.Next(-1)` empties the inbound buffer, and what the loop leaves of it is dropped. -/
def onTraffic [Platform] (c : Conn D) : Conn D :=
  let data := c.inbound
  let t := serve data.length data ⟨c.db, [], [], []⟩
  { inbound := []
    db := t.db
    dispatched := c.dispatched ++ t.dispatched
    written := if t.vecBuf.length > 0 then c.written ++ t.vecBuf.flatten else c.written }

/-- A chunk arrives and the traffic handler is called. -/
def deliver [Platform] (c : Conn D) (chunk : Bytes) : Conn D :=
  onTraffic { c with inbound := c.inbound ++ chunk }

end Dispatch

end Oryx.Server
