/-
# `InternetLabs.ThreadedServer.Respond` — the responses of the threaded server

`send_response` and `send_error_response`: what they hand to `send`, piece by piece.
Unlike the forking server's, an error has a head of its own, whose version is not that of
the request and whose last change is now.
-/
import InternetLabs.HttpServer.Respond

namespace InternetLabs.ThreadedServer

open InternetLabs.HttpServer
open InternetLabs.EventServer (Status errorText intOfSize)

/-- `send_error_response`; its `switch`es have no case for the other statuses, and then
`data` is not set. -/
def sendErrorResponse (w : World) (status : Status) : Except Fault (List Bytes) :=
  match errorText status with
  | none => .error .dangling
  | some (line, data) => do
      let head ← responseHead w (ascii "HTTP/1.1") line (ascii "text/html") data.length w.now
      if head.length + data.length < HttpServer.bufferMax then .ok [head ++ data]
      else .error .overrun

/-- `send_response`. -/
def sendResponse (w : World) (request : HttpRequest) (heap : Heap Contents) :
    Except Fault (List Bytes) := do
  let uri ← field heap request.uri
  let path ← filepath uri
  match w.openFile path with
  | .error errno => sendErrorResponse w errno.status
  | .ok file => do
      let version ← field heap request.version
      let type ← field heap request.filetype
      let head ← responseHead w version (ascii "200 OK") type (intOfSize file.size) file.ctime
      .ok (head :: file.reads)

end InternetLabs.ThreadedServer
