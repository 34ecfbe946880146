/-
# `InternetLabs.EventServer.Client` — the clients of the event server

`client_t` and what hangs off it, and what the functions on it ask of the system:
the files, the clock and the C library's dates (`World`), and what `recv` and
`send` come to (`RecvOutcome`, `SendOutcome`).

A client's descriptor only names its socket and is left out.  `free` has no effect
a later step could see, so `freeRequestStruct` is left out too.  A pointer that may
be `NULL` is an `Option`.  The `int`s that count bytes are natural numbers: each
function that could overflow one, or leave a block, is undefined there (`none`).
-/
import InternetLabs.Lib.CText

namespace InternetLabs.EventServer

/-! ## Constants

The sizes and the texts of `http_server.h`. -/

/-- `BUFFER_MAX`. -/
abbrev bufferMax : Nat := 2048

/-- `HEADER_MAX`. -/
abbrev headerMax : Nat := 12

/-- `MAX_REQUESTS`. -/
abbrev maxRequests : Nat := 10

/-- `CRLF`. -/
def crlf : Bytes := [13, 10]

/-- What ends a request. -/
def crlfcrlf : Bytes := [13, 10, 13, 10]

/-- `STATUS_OK` and its siblings; `unset` is the 0 that `calloc` leaves. -/
inductive Status where
  | unset
  | ok
  | badRequest
  | forbidden
  | notFound
  | notImplemented
  | internalError
deriving DecidableEq

/-- `enum state`. -/
inductive State where
  | receivingHeaders
  | receivingBody
  | sendingHeaders
  | sendingBody
  | disconnected
deriving DecidableEq

/-! ## Requests and clients -/

/-- `http_header`. -/
structure HttpHeader where
  name : Bytes
  value : Bytes
deriving DecidableEq

/-- `http_request`; of the array `headers` points to, the entries that are set. -/
structure HttpRequest where
  method : Option Bytes
  uri : Option Bytes
  filetype : Option Bytes
  version : Option Bytes
  host : Option Bytes
  headers : Option (List HttpHeader)
deriving DecidableEq

def HttpRequest.zero : HttpRequest := ⟨none, none, none, none, none, none⟩

/-- `buffer_t`. -/
structure Buffer where
  data : Bytes
  length : Nat
  maxLength : Nat
  position : Nat
deriving DecidableEq

/-- A buffer fresh from `calloc(1, BUFFER_MAX)`. -/
def Buffer.init : Buffer :=
  { data := List.replicate bufferMax 0, length := 0, maxLength := bufferMax, position := 0 }

/-- What a builder has left in the buffer. -/
def Buffer.contents (b : Buffer) : Bytes := b.data.take b.length

/-- What `send_data` has still to send. -/
def Buffer.unsent (b : Buffer) : Bytes := b.contents.drop b.position

/-- `memset(data, 0, max_length)`, and the position back to the start. -/
def Buffer.rewind (b : Buffer) : Buffer :=
  { b with data := writeAt b.data 0 (List.replicate b.maxLength 0), position := 0 }

def Buffer.clear (b : Buffer) : Buffer := { b.rewind with length := 0 }

/-- `client_t`. -/
structure Client where
  state : State
  sendBuf : Buffer
  recvBuf : Buffer
  status : Status
  lastActive : Int
  requests : List HttpRequest
  numRequests : Nat
  curRequest : Nat
deriving DecidableEq

/-- The client `get_new_client` makes of an accepted connection at the time `now`. -/
def newClient (now : Int) : Client where
  state := .receivingHeaders
  sendBuf := .init
  recvBuf := .init
  status := .unset
  lastActive := now
  requests := List.replicate maxRequests .zero
  numRequests := 0
  curRequest := 0

/-- The requests parsed, the ones `client->requests` counts. -/
def Client.parsed (c : Client) : List HttpRequest := c.requests.take c.numRequests

/-! ## The system

What the calls of the operating system come to is part of the input, as a script that is
used up call by call. -/

/-- Why `open` fails. -/
inductive OpenError where
  | enoent
  | eacces
  | other
deriving DecidableEq

/-- An open file: `st_size`, `st_ctime`, and what the calls of `read` return one
after the other, up to the one that returns 0 or fails. -/
structure File where
  size : Int
  ctime : Int
  reads : List Bytes
  reads_le : ∀ r ∈ reads, r.length ≤ bufferMax

/-- The system as one call sees it.  `date` is `strftime` of `localtime`: printable
text in a buffer of 80 bytes. -/
structure World where
  openFile : Bytes → Except OpenError File
  now : Int
  date : Int → Bytes
  date_length : ∀ t, (date t).length < 80
  date_printable : ∀ t, ∀ b ∈ date t, 32 ≤ b

/-- What a call of `recv` comes to: it hands over a piece of the stream at some
time, fails, or reports the end of the stream.  `interrupted` comes with the value
of `server_running`. -/
inductive RecvOutcome where
  | data (bytes : Bytes) (now : Int)
  | wouldBlock
  | interrupted (serverRunning : Bool)
  | closed
  | failed
deriving DecidableEq

/-- What a call of `send` comes to: it takes `k + 1` of the bytes offered, or all of
them if they are fewer, or fails. -/
inductive SendOutcome where
  | accepted (k : Nat)
  | wouldBlock
  | interrupted (serverRunning : Bool)
  | reset
  | failed
deriving DecidableEq

/-! ## Buffers -/

section Buffers
variable {b : Buffer}

@[simp] theorem Buffer.rewind_length (b : Buffer) : b.rewind.length = b.length := rfl

@[simp] theorem Buffer.rewind_position (b : Buffer) : b.rewind.position = 0 := rfl

@[simp] theorem Buffer.rewind_maxLength (b : Buffer) : b.rewind.maxLength = b.maxLength := rfl

@[simp] theorem Buffer.clear_length (b : Buffer) : b.clear.length = 0 := rfl

@[simp] theorem Buffer.clear_position (b : Buffer) : b.clear.position = 0 := rfl

@[simp] theorem Buffer.clear_maxLength (b : Buffer) : b.clear.maxLength = b.maxLength := rfl

@[simp] theorem Buffer.clear_contents (b : Buffer) : b.clear.contents = [] := List.take_zero

end Buffers

end InternetLabs.EventServer
