import Codelab.Theory.Machine
import Mathlib.Data.Finset.Card

/-! The server of `echo_server.c`. Its memory is explicit: a `struct client` or a `struct event` is
a block that `calloc` hands out and `free` takes back, and an access to a block that has been freed
is a fault. Libevent is a parameter, with the properties of it that the server counts on. -/

namespace Codelab.EchoServer

inductive Callback
  | readCb
  | writeCb
  deriving DecidableEq

/-- What the turn of an event makes libevent call. -/
structure Call where
  callback : Callback
  fd : Int
  arg : ℕ
  deriving DecidableEq

/-- What the server uses of libevent. `Event` is what `event_set` stores in a `struct event`,
`zeroed` what `calloc` makes of one, and `Base` the rest that libevent keeps. `eventAdd` gives the
base after `event_add` of the event at this address has returned 0, if the flag is true, or -1, and
`take` the base once the turn of the event at this address has come. `calls` is what
`event_base_dispatch` calls then, and `added` are the events of the base, but for the one that
listens. -/
structure Libevent where
  Event : Type
  Base : Type
  zeroed : Event
  init : Base
  eventSet : Event → Int → Callback → ℕ → Event
  eventAdd : Base → ℕ → Event → Bool → Base
  take : Base → ℕ → Base
  calls : Event → Option Call
  added : Base → Finset ℕ

/-- A callback is called with the arguments of `event_set`. An event is added unless `event_add`
fails, and taken off before its callback is called: none has `EV_PERSIST`. -/
structure Libevent.Documented (L : Libevent) : Prop where
  set : ∀ event fd callback arg,
    L.calls (L.eventSet event fd callback arg) = some ⟨callback, fd, arg⟩
  init : L.added L.init = ∅
  add : ∀ base e event, L.added (L.eventAdd base e event true) = insert e (L.added base)
  fail : ∀ base e event, L.added (L.eventAdd base e event false) = L.added base
  take : ∀ base e, L.added (L.take base e) = (L.added base).erase e

/-- `struct client`. -/
structure Client where
  revent : Option ℕ
  wevent : Option ℕ
  deriving DecidableEq

inductive Fault
  | null
  | freed
  deriving DecidableEq

/-- What the calls of a callback return: `readCnt` what `read` does, `again` whether `errno` is
`EAGAIN` or `EWOULDBLOCK` then (at the end of the file it is what it was before), `block` what
`calloc` does, `ok` whether `event_add` returns 0. Of what `write` returns nothing depends. -/
inductive Answer
  | read (readCnt : Int) (again : Bool) (block : Option ℕ) (ok : Bool)
  | write
  deriving DecidableEq

structure State (L : Libevent) where
  clients : ℕ → Option Client
  events : ℕ → Option L.Event
  base : L.Base

variable {L : Libevent}

namespace State

/-- A block from `calloc` is zeroed. -/
def callocClient (s : State L) (c : ℕ) : State L :=
  { s with clients := Function.update s.clients c (some ⟨none, none⟩) }

def callocEvent (s : State L) (e : ℕ) : State L :=
  { s with events := Function.update s.events e (some L.zeroed) }

def loadClient (s : State L) (c : ℕ) : Except Fault Client :=
  match s.clients c with
  | none => .error .freed
  | some client => .ok client

def storeClient (s : State L) (c : ℕ) (client : Client) : Except Fault (State L) :=
  match s.clients c with
  | none => .error .freed
  | some _ => .ok { s with clients := Function.update s.clients c (some client) }

def freeClient (s : State L) (c : ℕ) : Except Fault (State L) :=
  match s.clients c with
  | none => .error .freed
  | some _ => .ok { s with clients := Function.update s.clients c none }

def freeEvent (s : State L) : Option ℕ → Except Fault (State L)
  | none => .ok s
  | some e =>
    match s.events e with
    | none => .error .freed
    | some _ => .ok { s with events := Function.update s.events e none }

def eventSet (s : State L) (e : Option ℕ) (fd : Int) (callback : Callback) (arg : ℕ) :
    Except Fault (State L) :=
  match e with
  | none => .error .null
  | some e =>
    match s.events e with
    | none => .error .freed
    | some event =>
      .ok { s with
        events := Function.update s.events e (some (L.eventSet event fd callback arg)) }

def eventAdd (s : State L) (e : Option ℕ) (ok : Bool) : Except Fault (State L) :=
  match e with
  | none => .error .null
  | some e =>
    match s.events e with
    | none => .error .freed
    | some event => .ok { s with base := L.eventAdd s.base e event ok }

def delClient (s : State L) (c : ℕ) : Except Fault (State L) := do
  let s ← s.freeEvent (← s.loadClient c).revent
  let s ← s.freeEvent (← s.loadClient c).wevent
  s.freeClient c

def writeCb (s : State L) (arg : ℕ) : Except Fault (State L) := s.delClient arg

/-- The last four arguments are those of `Answer.read`. What `event_add` returns is dropped. -/
def readCb (s : State L) (fd : Int) (arg : ℕ) (readCnt : Int) (again : Bool) (block : Option ℕ)
    (ok : Bool) : Except Fault (State L) :=
  if readCnt ≤ 0 then
    if again then .ok s else s.delClient arg
  else do
    let s := match block with
      | none => s
      | some e => s.callocEvent e
    let s ← s.storeClient arg { ← s.loadClient arg with wevent := block }
    let s ← match (← s.loadClient arg).wevent with
      | none => s.delClient arg
      | some _ => .ok s
    let s ← s.eventSet (← s.loadClient arg).wevent fd .writeCb arg
    s.eventAdd (← s.loadClient arg).wevent ok

/-- One round of the loop of `accept_cb` in which `accept` succeeds: `clientFd` is what it returns,
`client` and `event` are what the calls of `calloc` return, and `event_add` returns 0 if `ok`. -/
def acceptRound (s : State L) (clientFd : Int) (client event : Option ℕ) (ok : Bool) :
    Except Fault (State L) :=
  match client with
  | none => .ok s
  | some c => do
    let s := s.callocClient c
    match event with
    | none => s.freeClient c
    | some ev => do
      let s := s.callocEvent ev
      let s ← s.storeClient c { ← s.loadClient c with revent := some ev }
      let s ← s.eventSet (← s.loadClient c).revent clientFd .readCb c
      s.eventAdd (← s.loadClient c).revent ok

end State

/-- `fire e` is the turn of the added event `e` in `event_base_dispatch`. -/
inductive Action
  | accept (clientFd : Int) (client event : Option ℕ) (ok : Bool)
  | fire (e : ℕ) (answer : Answer)
  deriving DecidableEq

/-- Where `calloc` succeeds it returns a block that is not in use. -/
def fresh {β : Type*} (blocks : ℕ → Option β) : Option ℕ → Bool
  | none => true
  | some a => (blocks a).isNone

namespace State

/-- What libevent calls when the turn of event `e` comes. -/
def dispatch (s : State L) (e : ℕ) (answer : Answer) : Option (Except Fault (State L)) :=
  match s.events e with
  | none => some (.error .freed)
  | some event =>
    match L.calls event, answer with
    | none, _ => some (.error .null)
    | some ⟨.readCb, fd, arg⟩, .read readCnt again block ok =>
      if fresh s.events block then some (s.readCb fd arg readCnt again block ok) else none
    | some ⟨.readCb, _, _⟩, .write => none
    | some ⟨.writeCb, _, arg⟩, .write => some (s.writeCb arg)
    | some ⟨.writeCb, _, _⟩, .read .. => none

def act (s : State L) : Action → Option (Except Fault (State L))
  | .accept clientFd client event ok =>
    if fresh s.clients client ∧ fresh s.events event then
      some (s.acceptRound clientFd client event ok)
    else none
  | .fire e answer =>
    if e ∈ L.added s.base then { s with base := L.take s.base e }.dispatch e answer else none

end State

def initial (L : Libevent) : State L where
  clients _ := none
  events _ := none
  base := L.init

/-- A fault ends the run. -/
def machine (L : Libevent) : Machine (Except Fault (State L)) Action where
  init r := r = .ok (initial L)
  next
    | .ok s, a => s.act a
    | .error _, _ => none

end Codelab.EchoServer
