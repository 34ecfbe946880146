/-
# `InternetLabs.ThreadedServer.Close` — when `handle_client` closes its socket

A session is a call of `handle_client` whose parses are a parameter: each text that was
passed on is answered as its parse came out.  What is sent depends on the parses; whether
a call that returns has closed the socket does not (`receiveLoop_closes`).

There are four ways out of `handle_client`, and one of them leads past the `close`: the
interruption of `recv` when the server is to stop (`closedOnce_iff`).
-/
import InternetLabs.ThreadedServer.Connection
import InternetLabs.ThreadedServer.Respond
import InternetLabs.ForkingServer.Client

namespace InternetLabs.ThreadedServer

open InternetLabs InternetLabs.HttpServer
open InternetLabs.ForkingServer (freeRequestStruct)

/-! ## Sessions

`handle_client` from the name of the peer to its return. -/

/-- The response to a request that was parsed; one that was accepted is freed. -/
def answer (w : World) (p : Parsed) : Except Fault (List Bytes) :=
  if p.status = .ok then do
    let sent ← sendResponse w p.httpr p.heap
    let _ ← freeRequestStruct p.httpr p.heap
    pure sent
  else sendErrorResponse w p.status

section Session
variable (worlds : Nat → World) (parses : Nat → Bytes → Except Fault Parsed)

/-- A text that was passed on as number `k`: the system is `worlds k`, and
`request_to_struct` comes to `parses k`. -/
def answerParse (k : Nat) (text : Bytes) : Except Progress (List Bytes × Nat) :=
  match parses k text >>= answer (worlds k) with
  | .error _ => .error .undefined
  | .ok sent => .ok (sent, k + 1)

/-- `handle_client`; `named` is whether `getnameinfo` succeeds, and `stack` what the block
holds before. -/
def session (named : Bool) (stack : Bytes) (script : List RecvOutcome) : Connection :=
  handleClient (answerParse worlds parses) named stack script 0

end Session

/-! ## How a session ends

There are three ways out of the loop, and only one of them closes the socket. -/

/-- A piece of the stream. -/
def RecvOutcome.isData : RecvOutcome → Bool
  | .data _ => true
  | _ => false

/-- The first call of `recv` that delivers nothing. -/
def firstEnd (script : List RecvOutcome) : Option RecvOutcome :=
  (script.dropWhile RecvOutcome.isData).head?

section Ends
variable {σ : Type*} {handle : σ → Bytes → Except Progress (List Bytes × σ)}

theorem count_close_send (sent : List Bytes) : (sent.map SocketCall.send).count .close = 0 :=
  List.count_eq_zero.mpr fun hmem => by
    obtain ⟨bytes, -, hbytes⟩ := List.mem_map.mp hmem
    cases hbytes

/-- **The loop closes the socket on its way out of an interruption only**, whatever the
requests come to. -/
theorem receiveLoop_closes (hstuck : ∀ s text progress, handle s text = .error progress →
      progress ≠ .returned) {script : List RecvOutcome} {request : Bytes} {bytesRead : Nat} {s : σ}
    (h : (receiveLoop handle script request bytesRead s).progress = .returned) :
    (receiveLoop handle script request bytesRead s).calls.count .close
      = if firstEnd script = some (.interrupted false) then 1 else 0 := by
  induction script generalizing request bytesRead s with
  | nil => cases h
  | cons o script ih =>
      cases o with
      | closed => rfl
      | failed => rfl
      | interrupted serverRunning => cases serverRunning <;> rfl
      | data bytes =>
          have hend : firstEnd (.data bytes :: script) = firstEnd script := rfl
          rw [hend]
          rw [receiveLoop] at h ⊢
          split at h
          · cases h
          next hfits =>
          rw [if_neg hfits]
          simp only at h ⊢
          split at h
          · split at h
            next h0 =>
              rw [if_pos h0]
              exact ih h
            · cases h
          · split at h
            next progress hhandle => exact (hstuck _ _ _ hhandle h).elim
            next sent s' hhandle =>
              rw [List.count_append, count_close_send, Nat.zero_add]
              exact ih h

theorem answerParse_error {worlds : Nat → World} {parses : Nat → Bytes → Except Fault Parsed}
    (k : Nat) (text : Bytes) (progress : Progress)
    (h : answerParse worlds parses k text = .error progress) : progress ≠ .returned := by
  rw [answerParse] at h
  split at h
  · cases h
    exact Progress.noConfusion
  · cases h

end Ends

/-- **The socket is closed once exactly if** the client has a name and the first `recv`
that delivers nothing is interrupted when the server is to stop. -/
theorem closedOnce_iff (worlds : Nat → World) (parses : Nat → Bytes → Except Fault Parsed)
    (named : Bool) (stack : Bytes) (script : List RecvOutcome)
    (hret : (session worlds parses named stack script).progress = .returned) :
    (session worlds parses named stack script).calls.count .close = 1 ↔
      named = true ∧ firstEnd script = some (.interrupted false) := by
  cases named with
  | false =>
      have hnone : (session worlds parses false stack script).calls.count .close = 0 := rfl
      rw [hnone]
      exact iff_of_false (by decide) (by rintro ⟨⟨⟩, -⟩)
  | true =>
      rw [session, handleClient, if_pos rfl] at hret ⊢
      rw [receiveLoop_closes answerParse_error hret]
      by_cases hend : firstEnd script = some (.interrupted false)
      · rw [if_pos hend]
        exact iff_of_true rfl ⟨rfl, hend⟩
      · rw [if_neg hend]
        exact iff_of_false (by decide) fun h => hend h.2

/-- The parses of the server's own `request_to_struct`. -/
def ownParses (_ : Nat) (text : Bytes) : Except Fault Parsed :=
  requestToStruct zeroBlocks text .zero .empty

/-- A request is answered before the server is stopped. -/
def servedScript : List RecvOutcome :=
  [.data (ascii "GET / HTTP/1.1" ++ crlfcrlf), .interrupted false]

theorem closedOnce_served : (session (fun _ => noFiles) ownParses true
    (List.replicate bufferMax 0) servedScript).calls.count .close = 1 :=
  (closedOnce_iff _ _ true _ servedScript (by decide +kernel)).mpr ⟨rfl, rfl⟩

/-- A client that sends nothing and disconnects is not disconnected from. -/
theorem closed_not_closed : ¬ ∀ (worlds : Nat → World)
    (parses : Nat → Bytes → Except Fault Parsed) (named : Bool) (stack : Bytes)
    (script : List RecvOutcome), (session worlds parses named stack script).progress = .returned →
      (session worlds parses named stack script).calls.count .close = 1 := by
  intro hall
  have hcount := hall (fun _ => noFiles) (fun _ _ => .error .overrun) true [] [.closed] rfl
  exact absurd hcount (by decide)

end InternetLabs.ThreadedServer
