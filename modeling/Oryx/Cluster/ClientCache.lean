import Oryx.Kv
import Oryx.Library.Threads

/-!
# The client cache

`ClientCache.Get` and `ClientCache.Close` of `cluster/gateway/clientcache.go`, one step for each
access to what the calls share: the `closed` flag, the mutex, the concurrent map, the singleflight
group and the connections. A singleflight call is named after the `Get` that runs its function, and
its result is kept for the calls that wait for it. `Range` visits the keys that are in the map when
it starts, in any order.
-/

namespace Oryx.Cluster
set_option autoImplicit false
open Oryx.Library

/-- What the calls share. Clients are numbered as they are dialled. -/
structure ClientCache (A I : Type) where
  closed : Bool
  /-- the call that holds `mu` -/
  owner : Option I
  clients : List (A × Nat)
  /-- the singleflight call for an address -/
  flights : A → Option I
  /-- the results of finished singleflight calls -/
  outcomes : I → Option (Except Error Nat)
  dialled : Nat
  /-- the clients whose `Close` was called -/
  hungUp : List Nat

/-- Where a call is: what it does next. -/
inductive Phase (A I : Type) where
  | idle
  /-- `Get`: `closed.Load` -/
  | check (addr : A)
  /-- `clients.Load` on the fast path -/
  | load (addr : A)
  /-- `dial.Do` -/
  | enter (addr : A)
  /-- the result of another call's function -/
  | wait (addr : A) (leader : I)
  /-- `clients.Load` in the function -/
  | inner (addr : A)
  /-- `newClient` -/
  | dial (addr : A)
  /-- `mu.Lock` -/
  | lock (addr : A) (client : Nat)
  /-- `closed.Load` under the lock -/
  | locked (addr : A) (client : Nat)
  /-- `mu.Unlock` in a closed cache -/
  | refuse (addr : A) (client : Nat)
  /-- `client.Close` in a closed cache -/
  | refused (addr : A) (client : Nat)
  /-- `clients.LoadOrStore` -/
  | store (addr : A) (client : Nat)
  /-- `mu.Unlock` after the client was stored -/
  | stored (addr : A) (client : Nat)
  /-- `mu.Unlock` after another client was found -/
  | beaten (addr : A) (client actual : Nat)
  /-- `client.Close` after another client was found -/
  | discard (addr : A) (client actual : Nat)
  /-- the function has returned -/
  | done (addr : A) (result : Except Error Nat)
  | returned (addr : A) (result : Except Error Nat)
  /-- `Close`: `closed.CompareAndSwap` -/
  | swap
  /-- `mu.Lock` -/
  | await
  /-- `clients.Range` starts -/
  | range
  /-- the keys that `Range` has still to visit -/
  | ranging (rest : List A)
  /-- `client.Close` in `Range` -/
  | visiting (addr : A) (client : Nat) (rest : List A)
  /-- `clients.Delete` -/
  | deleting (addr : A) (rest : List A)
  | closed

/-- What a call is given: a start, or a turn, with the order of `Range` and the outcome of a dial. -/
inductive CacheInput (A : Type) where
  | get (addr : A)
  | close
  | go (choice : Nat) (dialErr : Option Error)

def cacheClosed : Error := ascii "client cache is closed"

namespace ClientCache

variable {A I : Type}

/-- `NewClientCache`. -/
def new : ClientCache A I := ⟨false, none, [], fun _ => none, fun _ => none, 0, []⟩

def hangUp (m : ClientCache A I) (client : Nat) : ClientCache A I := { m with hungUp := client :: m.hungUp }

variable [DecidableEq A] [DecidableEq I]

/-- The next step of call `i`. A call that has to wait stays where it is. -/
def proceed (m : ClientCache A I) (i : I) (choice : Nat) (dialErr : Option Error) :
    Phase A I → ClientCache A I × Phase A I
  | .check addr => (m, if m.closed then .returned addr (.error cacheClosed) else .load addr)
  | .load addr =>
    match m.clients.lookup addr with
    | some client => (m, .returned addr (.ok client))
    | none => (m, .enter addr)
  | .enter addr =>
    match m.flights addr with
    | some leader => (m, .wait addr leader)
    | none => ({ m with flights := Function.update m.flights addr (some i) }, .inner addr)
  | .wait addr leader =>
    match m.outcomes leader with
    | some result => (m, .returned addr result)
    | none => (m, .wait addr leader)
  | .inner addr =>
    match m.clients.lookup addr with
    | some client => (m, .done addr (.ok client))
    | none => (m, .dial addr)
  | .dial addr =>
    match dialErr with
    | some err => (m, .done addr (.error err))
    | none => ({ m with dialled := m.dialled + 1 }, .lock addr m.dialled)
  | .lock addr client =>
    match m.owner with
    | some _ => (m, .lock addr client)
    | none => ({ m with owner := some i }, .locked addr client)
  | .locked addr client => (m, if m.closed then .refuse addr client else .store addr client)
  | .refuse addr client => ({ m with owner := none }, .refused addr client)
  | .refused addr client => (m.hangUp client, .done addr (.error cacheClosed))
  | .store addr client =>
    match m.clients.lookup addr with
    | some actual => (m, .beaten addr client actual)
    | none => ({ m with clients := m.clients ++ [(addr, client)] }, .stored addr client)
  | .stored addr client => ({ m with owner := none }, .done addr (.ok client))
  | .beaten addr client actual => ({ m with owner := none }, .discard addr client actual)
  | .discard addr client actual => (m.hangUp client, .done addr (.ok actual))
  | .done addr result =>
    ({ m with
        flights := Function.update m.flights addr none
        outcomes := Function.update m.outcomes i (some result) },
      .returned addr result)
  | .swap => if m.closed then (m, .closed) else ({ m with closed := true }, .await)
  | .await =>
    match m.owner with
    | some _ => (m, .await)
    | none => ({ m with owner := some i }, .range)
  | .range => (m, .ranging (m.clients.map Prod.fst))
  | .ranging rest =>
    match rest[choice % rest.length]? with
    | none => ({ m with owner := none }, .closed)
    | some addr =>
      match m.clients.lookup addr with
      | none => (m, .ranging (rest.eraseIdx (choice % rest.length)))
      | some client => (m, .visiting addr client (rest.eraseIdx (choice % rest.length)))
  | .visiting addr client rest => (m.hangUp client, .deleting addr rest)
  | .deleting addr rest => ({ m with clients := m.clients.filter fun e => e.1 ≠ addr }, .ranging rest)
  | p => (m, p)

/-- A call starts once. -/
def next (m : ClientCache A I) (i : I) (p : Phase A I) : CacheInput A → ClientCache A I × Phase A I
  | .get addr => (m, match p with | .idle => .check addr | p => p)
  | .close => (m, match p with | .idle => .swap | p => p)
  | .go choice dialErr => m.proceed i choice dialErr p

end ClientCache

/-- The cache and the calls. -/
abbrev CacheSystem (A I : Type) := Threads (ClientCache A I) I (Phase A I)

/-- Nothing was called yet. -/
def CacheSystem.start {A I : Type} : CacheSystem A I := ⟨ClientCache.new, fun _ => .idle⟩

end Oryx.Cluster
