/-
# `InternetLabs.HttpServer.Parse` — `request_to_struct` of the blocking servers

The forking and the threaded server have the same parser but for two places: which
methods pass the test, and whether `version` is freed when the parse fails.  Both are
parameters here (`accepts`, `freesVersion`); `ForkingServer.requestToStruct` and
`ThreadedServer.requestToStruct` set them.

The fields of a request are pointers to blocks of a heap.  A block is put there with
what it holds at the end of the round that allocates it.  `Blocks` is what the blocks for
the words of a request line hold before `sscanf` writes to them.
-/
import InternetLabs.Lib.Heap
import InternetLabs.EventServer.Lines

namespace InternetLabs.HttpServer

open InternetLabs.EventServer (Status methods http11 filetypeOf isCrlf strReplace)

/-! ## Requests on the heap

Every field is a block of its own, and what is passed on are pointers. -/

/-- `BUFFER_MAX`. -/
abbrev bufferMax : Nat := 1024

/-- `HEADER_MAX`. -/
abbrev headerMax : Nat := 12

/-- `http_header`: the blocks of an entry that is set. -/
structure HttpHeader where
  name : Nat
  value : Nat
deriving DecidableEq

/-- What a block holds: a string, or the entries that are set of an array of headers. -/
inductive Contents where
  | chars (text : Bytes)
  | headers (entries : List HttpHeader)
deriving DecidableEq

/-- The string in a block. -/
def Contents.text : Contents → Bytes
  | .chars text => text
  | .headers _ => []

/-- The headers in a block. -/
def Contents.entries : Contents → List HttpHeader
  | .chars _ => []
  | .headers entries => entries

/-- `http_request`. -/
structure HttpRequest where
  method : Ptr
  uri : Ptr
  filetype : Ptr
  version : Ptr
  host : Ptr
  headers : Ptr
deriving DecidableEq

def HttpRequest.zero : HttpRequest := ⟨none, none, none, none, none, none⟩

/-- The blocks for the words of a request line, as `malloc` returns them. -/
structure Blocks where
  method : Bytes
  uri : Bytes
  version : Bytes
  method_length : method.length = 16
  uri_length : uri.length = bufferMax
  version_length : version.length = 32

/-- Blocks that hold the byte `b` throughout. -/
def Blocks.fill (b : UInt8) : Blocks where
  method := List.replicate 16 b
  uri := List.replicate bufferMax b
  version := List.replicate 32 b
  method_length := List.length_replicate
  uri_length := List.length_replicate
  version_length := List.length_replicate

def zeroBlocks : Blocks := .fill 0

/-- What `request_to_struct` returns, and what it leaves. -/
structure Parsed where
  status : Status
  httpr : HttpRequest
  heap : Heap Contents
deriving DecidableEq

/-- What ends the parse early. -/
inductive Stop where
  | returned (p : Parsed)
  | fault (fault : Fault)
deriving DecidableEq

/-- The variables of the loop. -/
structure Lines where
  first : Bool
  httpr : HttpRequest
  headers : List HttpHeader
  heap : Heap Contents

/-! ## The parser

The parsers of the two servers differ in how they test the method. -/

/-- The `%s` that stores a word, if there is one, in a block. -/
def scanWord (block : Bytes) (w : Option Bytes) : Except Stop Bytes :=
  (EventServer.scanWord block w).mapError fun _ => .fault .overrun

/-- `free`s and a `return`. -/
def leave (status : Status) (httpr : HttpRequest) (heap : Heap Contents) (ps : List Ptr) : Stop :=
  match heap.freeAll ps with
  | .ok heap => .returned ⟨status, httpr, heap⟩
  | .error fault => .fault fault

section Parser
variable (accepts : Bytes → Bool) (freesVersion : Bool) (blocks : Blocks)

/-- The first line: method, URI and version. -/
def requestLine (line : Bytes) (s : Lines) : Except Stop Lines := do
  let method ← scanWord blocks.method (words line)[0]?
  let uri ← scanWord blocks.uri (words line)[1]?
  let version ← scanWord blocks.version (words line)[2]?
  let methodPtr := some s.heap.fresh
  let heap := s.heap.malloc (.chars (cstr method))
  let uriPtr := some heap.fresh
  let heap := heap.malloc (.chars (cstr uri))
  let versionPtr := some heap.fresh
  let heap := heap.malloc (.chars (cstr version))
  let failed := if freesVersion then [methodPtr, uriPtr, versionPtr] else [methodPtr, uriPtr]
  if accepts (cstr method) = false then throw (leave .notImplemented s.httpr heap failed)
  else
    let httpr := { s.httpr with method := methodPtr, uri := uriPtr }
    if cstr version ≠ http11 then throw (leave .internalError httpr heap failed)
    else if (0 : UInt8) ∉ uri then throw (.fault .overrun)
    else pure { s with
      first := false
      httpr := { httpr with version := versionPtr, filetype := some heap.fresh }
      heap := heap.malloc (.chars (filetypeOf (cstr uri))) }

/-- A line after the first. -/
def headerLine (line : Bytes) (s : Lines) : Except Stop Lines := do
  let name ← scanWord (List.replicate bufferMax 0) (words line)[0]?
  let value ← scanWord (List.replicate bufferMax 0) (words line)[1]?
  let namePtr := s.heap.fresh
  if cstr name = ascii "Host:" then
    let heap := s.heap.malloc (.chars (cstr name))
    let valuePtr := heap.fresh
    let heap := heap.malloc (.chars (cstr value))
    match heap.free (some namePtr) with
    | .error fault => throw (.fault fault)
    | .ok heap => pure { s with httpr := { s.httpr with host := some valuePtr }, heap := heap }
  else match strReplace (cstr name) (ascii ":") [] with
    | none => throw (.fault .overrun)
    | some name =>
        let heap := s.heap.malloc (.chars name)
        let valuePtr := heap.fresh
        let heap := heap.malloc (.chars (cstr value))
        if s.headers.length < headerMax then
          pure { s with headers := s.headers ++ [⟨namePtr, valuePtr⟩], heap := heap }
        else throw (.fault .overrun)

/-- The body of the loop. -/
def lineStep (s : Lines) (line : Bytes) : Except Stop Lines :=
  if s.first then requestLine accepts freesVersion blocks line s else headerLine line s

/-- What is returned behind the loop. -/
def returned : Except Stop Lines → Except Fault Parsed
  | .error (.fault fault) => .error fault
  | .error (.returned p) => .ok p
  | .ok s => .ok {
      status := .ok
      httpr := { s.httpr with headers := some s.heap.fresh }
      heap := s.heap.malloc (.headers s.headers) }

/-- `request_to_struct`: `memcpy` of `BUFFER_MAX` bytes, and the loop over the lines. -/
def requestToStruct (request : Bytes) (httpr : HttpRequest) (heap : Heap Contents) :
    Except Fault Parsed :=
  if request.length < bufferMax then .error .overrun
  else
    let buffer := request.take bufferMax
    match Loop.run (tokenLoop isCrlf (lineStep accepts freesVersion blocks)) (bufferMax + 1)
        (strtok isCrlf buffer 0, ⟨true, httpr, [], heap⟩) with
    | none => .error .overrun
    | some lines => returned lines

end Parser

end InternetLabs.HttpServer

namespace InternetLabs.ForkingServer

open InternetLabs.HttpServer

/-- The test of the method; of its three comparisons only the first is with 0. -/
def accepts (method : Bytes) : Bool :=
  method == ascii "GET" || method != ascii "POST" || method != ascii "HEAD"

theorem accepts_all (method : Bytes) : accepts method = true := by
  by_cases hpost : method = ascii "POST"
  · rw [hpost]
    decide
  · rw [accepts, bne_iff_ne.mpr hpost, Bool.or_true, Bool.true_or]

/-- `request_to_struct` of the forking server, which never frees `version`. -/
def requestToStruct : Blocks → Bytes → HttpRequest → Heap Contents → Except Fault Parsed :=
  HttpServer.requestToStruct accepts false

end InternetLabs.ForkingServer

namespace InternetLabs.ThreadedServer

open InternetLabs.HttpServer

/-- The test of the method. -/
def accepts (method : Bytes) : Bool :=
  method == ascii "GET" || method == ascii "POST" || method == ascii "HEAD"

/-- `request_to_struct` of the threaded server. -/
def requestToStruct : Blocks → Bytes → HttpRequest → Heap Contents → Except Fault Parsed :=
  HttpServer.requestToStruct accepts true

end InternetLabs.ThreadedServer
