/-
# `InternetLabs.EventServer.EventLoop` — `http_server_run`

The loop that waits for events, hands them to the functions of `Server`, and sweeps the
clients that are idle; `get_new_client`, `free_client`, and the end of `main`.  What the
system answers is in the `Action`: which descriptors are ready, what `accept` gives, the
time of day.

The `Tables` are what the loop keeps in step: the client structures there are (`heap`),
the descriptors that are open, the `epoll` set, and `clients[]`.  A pointer is an
address, and may be given out again once it is free; the same goes for descriptors.
Connections are numbered in the order they are accepted; the numbers are in no variable
of the program, and tell what has been freed and closed (`freed`, `closed`).

Following or freeing a pointer to no client, or closing a descriptor that is not open, is
a `fault`.  A handler that is undefined ends the run (`stuck`), as does a failure after
which the process exits without cleaning up (`failed`).  The listening socket is in no
table: it stays open and registered as long as the loop runs.
-/
import InternetLabs.Lib.Slots
import InternetLabs.Lib.System
import InternetLabs.EventServer.Server
import Mathlib.Logic.Function.Basic

namespace InternetLabs.EventServer

open InternetLabs

/-- `MAX_EVENTS`. -/
abbrev maxEvents : Nat := 100

/-- `MAX_CLIENTS`. -/
abbrev maxClients : Nat := 100

/-- `EXPIRE_TIME`, in milliseconds. -/
abbrev expireTime : Int := 5000

/-! ## The tables

The heap of clients, the descriptors that are open, the `epoll` set, and `clients[]`, as
far as the loop uses them. -/

/-- A client structure with its descriptor, and the number of its connection. -/
structure Conn where
  fd : Nat
  serial : Nat
  client : Client

/-- What a client's socket is registered for, besides `EPOLLRDHUP` and `EPOLLET`. -/
inductive Interest where
  | epollin
  | epollout
deriving DecidableEq

/-- The structures, descriptors and arrays of the server. -/
structure Tables where
  heap : Nat → Option Conn
  opened : Nat → Option Nat
  epoll : Nat → Option (Nat × Interest)
  clients : List (Option Nat)
  serial : Nat
  freed : List Nat
  closed : List Nat

def Tables.init : Tables where
  heap _ := none
  opened _ := none
  epoll _ := none
  clients := List.replicate maxClients none
  serial := 0
  freed := []
  closed := []

/-- `get_new_client`, when `accept` has returned `fd` and `calloc` the address `p`. -/
def Tables.getNewClient (fd p : Nat) (now : Int) (t : Tables) : Tables :=
  { t with
    heap := Function.update t.heap p (some ⟨fd, t.serial, newClient now⟩)
    opened := Function.update t.opened fd (some t.serial)
    serial := t.serial + 1 }

/-- `EPOLL_CTL_ADD` and `EPOLL_CTL_MOD`. -/
def Tables.register (fd p : Nat) (interest : Interest) (t : Tables) : Tables :=
  { t with epoll := Function.update t.epoll fd (some (p, interest)) }

/-- `EPOLL_CTL_DEL`. -/
def Tables.unregister (fd : Nat) (t : Tables) : Tables :=
  { t with epoll := Function.update t.epoll fd none }

/-- `close`; a descriptor that is closed is in no `epoll` set. -/
def Tables.close (fd : Nat) (t : Tables) : Option Tables :=
  (t.opened fd).map fun serial => { t with
    opened := Function.update t.opened fd none
    epoll := Function.update t.epoll fd none
    closed := serial :: t.closed }

/-- `free_client`. -/
def Tables.freeClient (p : Nat) (t : Tables) : Option Tables :=
  (t.heap p).map fun conn => { t with
    heap := Function.update t.heap p none
    freed := conn.serial :: t.freed }

/-- `close(client->fd)` and `free_client(client)`. -/
def Tables.closeAndFree (p : Nat) (t : Tables) : Option Tables := do
  let conn ← t.heap p
  let t ← t.close conn.fd
  t.freeClient p

/-! ## Events -/

/-- `data.ptr` of an event. -/
inductive Data where
  | server
  | client (p : Nat)
deriving DecidableEq

/-- The flags of an event that the loop looks at. -/
structure Flags where
  epollin : Bool
  epollout : Bool
  epollrdhup : Bool
deriving DecidableEq

/-- `epoll_event`. -/
structure EpollEvent where
  data : Data
  flags : Flags
deriving DecidableEq

/-- The event of a descriptor that is ready; `none` is the listening socket. -/
def Tables.event (t : Tables) (ready : Option Nat × Flags) : Option EpollEvent :=
  match ready.1 with
  | none => some ⟨.server, ready.2⟩
  | some fd => (t.epoll fd).map fun (p, _) => ⟨.client p, ready.2⟩

/-- The calls on a client that its event stands for, and what its socket is registered
for after them, if that changes. -/
def handleEvent (flags : Flags) (recv : RecvEnv) (send : SendEnv) (c : Client) :
    Option (Client × Option Interest) := do
  let (c, interest) ←
    if flags.epollin then
      (receiveRequests recv c).map fun (ret, c) => (c, if ret = 0 then some .epollout else none)
    else some (c, none)
  let (c, interest) ←
    if flags.epollout then
      match (sendResponses send c).ending with
      | .returned ret c => some (c, if ret = 0 then some Interest.epollin else interest)
      | .sending => none
      | .undefined => none
    else some (c, interest)
  if flags.epollrdhup ∧ (c.state = .receivingHeaders ∨ c.state = .receivingBody) then
    some ({ c with state := .disconnected }, interest)
  else some (c, interest)

/-! ## The loop

The program goes on from phase to phase; every answer of the system is part of the
action. -/

/-- Where the program is. -/
inductive Phase where
  /-- at the head of the loop -/
  | running
  /-- in the batch, with these events still to be handled -/
  | handling (events : List EpollEvent)
  /-- in the sweep, at `clients[i]` -/
  | sweeping (i : Nat)
  /-- at the end of `main`, at `clients[n]` -/
  | cleanup (n : Nat)
  | finished
  | failed
  | stuck
  | fault
deriving DecidableEq

/-- The state of the program. -/
structure Loop where
  phase : Phase
  tables : Tables

/-- What `accept` and `getnameinfo` come to. -/
inductive Accepted where
  | failed
  | unnamed
  | client (fd p : Nat) (now : Int)

/-- What happens next.  `ctl` says whether the calls of `epoll_ctl` succeed. -/
inductive Action where
  | wait (ready : List (Option Nat × Flags))
  | stop
  | fail
  | accept (accepted : Accepted) (ctl : Bool)
  | client (recv : RecvEnv) (send : SendEnv) (ctl : Bool)
  | endBatch
  | sweep (now : Int)
  | cleanup

/-- The event of the listening socket, with `events` behind it. -/
def acceptClient (accepted : Accepted) (ctl : Bool) (events : List EpollEvent) (t : Tables) :
    Option Loop :=
  match accepted with
  | .failed => some ⟨.handling events, t⟩
  | .unnamed => some ⟨.handling events, t⟩
  | .client fd p now =>
      -- `accept` and `calloc` give what is not in use
      if (t.opened fd).isSome ∨ (t.heap p).isSome then none
      else
        let t := t.getNewClient fd p now
        if ctl then
          let t := t.register fd p .epollin
          some ⟨.handling events, { t with clients := Slots.insert p t.clients }⟩
        else some ⟨.failed, t⟩

/-- A client that is disconnected is unregistered, taken out of `clients[]`, closed and
freed. -/
def dropClient (p fd : Nat) (ctl : Bool) (events : List EpollEvent) (t : Tables) : Loop :=
  if ctl then
    let t := t.unregister fd
    let t := { t with clients := Slots.remove p t.clients }
    match t.closeAndFree p with
    | none => ⟨.fault, t⟩
    | some t => ⟨.handling events, t⟩
  else ⟨.failed, t⟩

/-- The event of the client at `p`, with `events` behind it. -/
def handleClient (p : Nat) (flags : Flags) (recv : RecvEnv) (send : SendEnv) (ctl : Bool)
    (events : List EpollEvent) (t : Tables) : Loop :=
  match t.heap p with
  | none => ⟨.fault, t⟩
  | some conn =>
      match handleEvent flags recv send conn.client with
      | none => ⟨.stuck, t⟩
      | some (c, interest) =>
          let t := { t with heap := Function.update t.heap p (some { conn with client := c }) }
          let registered := match interest with
            | none => some t
            | some interest => if ctl then some (t.register conn.fd p interest) else none
          match registered with
          | none => ⟨.failed, t⟩
          | some t =>
              if c.state = .disconnected then dropClient p conn.fd ctl events t
              else ⟨.handling events, t⟩

/-- A round of the sweep. -/
def sweepClient (now : Int) (i : Nat) (t : Tables) : Loop :=
  match t.clients[i]? with
  | none => ⟨.running, t⟩
  | some none => ⟨.sweeping (i + 1), t⟩
  | some (some p) =>
      match t.heap p with
      | none => ⟨.fault, t⟩
      | some conn =>
          if expireTime ≤ (now - conn.client.lastActive) * 1000 then
            match t.closeAndFree p with
            | none => ⟨.fault, t⟩
            | some t => ⟨.sweeping (i + 1), { t with clients := t.clients.set i none }⟩
          else ⟨.sweeping (i + 1), t⟩

/-- A round of the loop at the end of `main`. -/
def cleanupClient (n : Nat) (t : Tables) : Loop :=
  match t.clients[n]? with
  | none => ⟨.finished, t⟩
  | some none => ⟨.cleanup (n + 1), t⟩
  | some (some p) =>
      match t.closeAndFree p with
      | none => ⟨.fault, t⟩
      | some t => ⟨.cleanup (n + 1), { t with clients := t.clients.set n none }⟩

/-- A step of the program, if the action is one that can happen where it is.  A batch has
at most one event for each descriptor. -/
def step : Action → Loop → Option Loop
  | .wait ready, ⟨.running, t⟩ =>
      if ready.length ≤ maxEvents ∧ (ready.map Prod.fst).Nodup then
        (ready.mapM t.event).map fun events => ⟨.handling events, t⟩
      else none
  | .stop, ⟨.running, t⟩ => some ⟨.cleanup 0, t⟩
  | .fail, ⟨.running, t⟩ => some ⟨.failed, t⟩
  | .accept accepted ctl, ⟨.handling (⟨.server, _⟩ :: events), t⟩ =>
      acceptClient accepted ctl events t
  | .client recv send ctl, ⟨.handling (⟨.client p, flags⟩ :: events), t⟩ =>
      some (handleClient p flags recv send ctl events t)
  | .endBatch, ⟨.handling [], t⟩ => some ⟨.sweeping 0, t⟩
  | .sweep now, ⟨.sweeping i, t⟩ => some (sweepClient now i t)
  | .cleanup, ⟨.cleanup n, t⟩ => some (cleanupClient n t)
  | _, _ => none

def eventLoop : System Loop Action := System.ofStep (· = ⟨.running, .init⟩) step

end InternetLabs.EventServer
