/-
# `InternetLabs.EventServer.Server` — receiving requests and sending responses

`recv_data`, `receive_requests`, `send_data` and `send_responses`, the functions
the event loop calls when a client's socket is ready.  A call's environment
(`RecvEnv`, `SendEnv`) is what the system answers during the call.

`send` is told by a script of outcomes.  A call whose script is used up is still
sending: the states of a call under the beginnings of a script are the moments of
the call under the script.  What the socket has accepted, and what the builders
have built, is recorded beside the client (`Sent`).
-/
import InternetLabs.EventServer.Parse
import InternetLabs.EventServer.Respond

namespace InternetLabs.EventServer

open InternetLabs

/-! ## Receiving

A client receives until `recv` would block, and then looks for the end of a request. -/

/-- `recv_data`; there is nothing more to read when the script is used up. -/
def recvData : List RecvOutcome → Client → Option (Nat × Client)
  | [], c => some (0, c)
  | .wouldBlock :: _, c => some (0, c)
  | .interrupted serverRunning :: script, c =>
      if serverRunning then recvData script c else some (0, c)
  | .failed :: _, c => some (1, c)
  | .closed :: _, c => some (0, c)
  | .data bytes now :: script, c =>
      if c.recvBuf.length + bytes.length ≤ c.recvBuf.data.length then
        recvData script { c with
          lastActive := now
          recvBuf := { c.recvBuf with
            data := writeAt c.recvBuf.data c.recvBuf.length bytes
            length := c.recvBuf.length + bytes.length } }
      else none

/-- What the system answers during a call of `receive_requests`. -/
structure RecvEnv where
  script : List RecvOutcome
  heap : Nat → Blocks
  world : World

/-- The part of `receive_requests` that follows the search for a full request. -/
def takeRequests (heap : Nat → Blocks) (w : World) (c : Client) : Option Client := do
  let (status, c) ← requestToStruct heap c
  let c ← buildHeader w { c with status := status, sendBuf := c.sendBuf.clear }
  some { c with state := .sendingHeaders }

/-- `receive_requests`.  A buffer without a NUL is no string to search. -/
def receiveRequests (env : RecvEnv) (c : Client) : Option (Nat × Client) := do
  let (ret, c) ← recvData env.script c
  if ret ≠ 0 then some (1, { c with state := .disconnected })
  else if (0 : UInt8) ∉ c.recvBuf.data then none
  else if strstr crlfcrlf c.recvBuf.data = none then some (1, c)
  else (takeRequests env.heap env.world c).map fun c => (0, c)

/-! ## Sending

A client sends until `send` would block, and builds the next part when the last is sent. -/

/-- What `send_data` did: the value returned, unless it is still sending; the client;
the bytes accepted; and the outcomes left. -/
structure SendData where
  ret : Option Nat
  client : Client
  accepted : Bytes
  script : List SendOutcome

/-- `n` more bytes are sent. -/
def Client.advance (c : Client) (n : Nat) : Client :=
  { c with sendBuf := { c.sendBuf with position := c.sendBuf.position + n } }

theorem Client.advance_advance (c : Client) (m n : Nat) :
    (c.advance m).advance n = c.advance (m + n) := by
  simp only [Client.advance, Nat.add_assoc]

/-- `send_data`. -/
def sendData : List SendOutcome → Client → SendData
  | script, c =>
      let bytesLeft := c.sendBuf.length - c.sendBuf.position
      if bytesLeft = 0 then ⟨some 0, c, [], script⟩
      else match script with
        | [] => ⟨none, c, [], []⟩
        | .accepted k :: script =>
            let bytesSent := min (k + 1) bytesLeft
            let rest := sendData script (c.advance bytesSent)
            { rest with
              accepted := (c.sendBuf.data.drop c.sendBuf.position).take bytesSent ++ rest.accepted }
        | .wouldBlock :: script => ⟨some 1, c, [], script⟩
        | .interrupted serverRunning :: script =>
            if serverRunning then sendData script c else ⟨some 0, c, [], script⟩
        | .reset :: script => ⟨some 1, { c with state := .disconnected }, [], script⟩
        | .failed :: script => ⟨some 1, { c with state := .disconnected }, [], script⟩

section SendData
variable {c : Client}

theorem sendData_done (h : c.sendBuf.length - c.sendBuf.position = 0)
    (script : List SendOutcome) : sendData script c = ⟨some 0, c, [], script⟩ := by
  unfold sendData
  exact if_pos h

variable (h : c.sendBuf.length - c.sendBuf.position ≠ 0) (script : List SendOutcome)
include h

theorem sendData_nil : sendData [] c = ⟨none, c, [], []⟩ := by
  simp only [sendData, if_neg h]

theorem sendData_accepted (k : Nat) :
    sendData (.accepted k :: script) c =
      let bytesSent := min (k + 1) (c.sendBuf.length - c.sendBuf.position)
      let rest := sendData script (c.advance bytesSent)
      { rest with
        accepted := (c.sendBuf.data.drop c.sendBuf.position).take bytesSent ++ rest.accepted } := by
  simp only [sendData, if_neg h]

theorem sendData_wouldBlock :
    sendData (.wouldBlock :: script) c = ⟨some 1, c, [], script⟩ := by
  simp only [sendData, if_neg h]

theorem sendData_interrupted (serverRunning : Bool) :
    sendData (.interrupted serverRunning :: script) c =
      if serverRunning then sendData script c else ⟨some 0, c, [], script⟩ := by
  rw [sendData]
  simp only [if_neg h]

theorem sendData_reset :
    sendData (.reset :: script) c = ⟨some 1, { c with state := .disconnected }, [], script⟩ := by
  simp only [sendData, if_neg h]

theorem sendData_failed :
    sendData (.failed :: script) c = ⟨some 1, { c with state := .disconnected }, [], script⟩ := by
  simp only [sendData, if_neg h]

end SendData

/-- What the system answers during a call of `send_responses`: to `send`, to the
builder of a body, and to the builder of the header after it. -/
structure SendEnv where
  script : List SendOutcome
  body : World
  header : World

/-- Header or body. -/
inductive Part where
  | header
  | body
deriving DecidableEq

/-- What the builder of a part left in the buffer, for the request `request`. -/
structure Built where
  part : Part
  request : Nat
  bytes : Bytes
deriving DecidableEq

/-- How a call of `send_responses` ends. -/
inductive Ending where
  | returned (ret : Nat) (client : Client)
  | sending
  | undefined

/-- The call has returned something that passes the test. -/
def Ending.returnedWith (test : Nat → Client → Bool) : Ending → Bool
  | .returned ret c => test ret c
  | .sending => false
  | .undefined => false

theorem Ending.returnedWith_iff {test : Nat → Client → Bool} {e : Ending} :
    e.returnedWith test = true ↔ ∃ ret c, e = .returned ret c ∧ test ret c = true := by
  cases e with
  | returned ret c =>
      constructor
      · intro htest
        exact ⟨ret, c, rfl, htest⟩
      · rintro ⟨ret', c', heq, htest⟩
        cases heq
        exact htest
  | sending => simp [Ending.returnedWith]
  | undefined => simp [Ending.returnedWith]

/-- What a call of `send_responses` did. -/
structure Sent where
  accepted : Bytes
  built : List Built
  ending : Ending

/-- All responses are sent: the requests and the receive buffer are cleared. -/
def Client.finish (c : Client) : Client :=
  { c with
    curRequest := 0
    numRequests := 0
    recvBuf := { c.recvBuf with
      data := writeAt c.recvBuf.data 0 (List.replicate bufferMax 0)
      length := 0 }
    requests := List.replicate maxRequests .zero
    state := .receivingHeaders }

/-- `send_responses` from the test for `SENDING_BODY` on. -/
def sendBody (env : SendEnv) (script : List SendOutcome) (c : Client) : Sent :=
  if c.state = .sendingBody then
    let sent := sendData script c
    match sent.ret with
    | none => ⟨sent.accepted, [], .sending⟩
    | some (_ + 1) => ⟨sent.accepted, [], .returned 1 sent.client⟩
    | some 0 =>
        let c : Client := { sent.client with curRequest := sent.client.curRequest + 1 }
        if c.curRequest < c.numRequests then
          let c : Client := { c with state := .sendingHeaders, sendBuf := c.sendBuf.rewind }
          match buildHeader env.header c with
          | none => ⟨sent.accepted, [], .undefined⟩
          | some c =>
              ⟨sent.accepted, [⟨.header, c.curRequest, c.sendBuf.contents⟩], .returned 1 c⟩
        else ⟨sent.accepted, [], .returned 0 c.finish⟩
  else ⟨[], [], .returned 1 c⟩

/-- `send_responses`. -/
def sendResponses (env : SendEnv) (c : Client) : Sent :=
  if c.state = .sendingHeaders then
    let sent := sendData env.script c
    match sent.ret with
    | none => ⟨sent.accepted, [], .sending⟩
    | some (_ + 1) =>
        let rest := sendBody env sent.script sent.client
        { rest with accepted := sent.accepted ++ rest.accepted }
    | some 0 =>
        let c : Client := { sent.client with sendBuf := sent.client.sendBuf.clear }
        match buildBody env.body c with
        | none => ⟨sent.accepted, [], .undefined⟩
        | some c =>
            let rest := sendBody env sent.script { c with state := .sendingBody }
            { accepted := sent.accepted ++ rest.accepted
              built := ⟨.body, c.curRequest, c.sendBuf.contents⟩ :: rest.built
              ending := rest.ending }
  else sendBody env env.script c

end InternetLabs.EventServer
