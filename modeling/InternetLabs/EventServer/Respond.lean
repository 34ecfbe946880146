/-
# `InternetLabs.EventServer.Respond` — the builders of headers and bodies

`build_ok_header`, `build_ok_body`, `build_error_header` and `build_error_body`.
A builder is undefined (`none`) where the source follows a `NULL` pointer, reads a
variable it has not set, writes past a block, or overflows an `int`.

`sprintf(response + length, …)` is `Response.sprintf`; the buffer is not checked
for room by the source, and `Buffer.contents` of what a builder leaves is the text
(`buildErrorHeader_page`, `buildOkHeader_page`).
-/
import InternetLabs.EventServer.Client

namespace InternetLabs.EventServer

open InternetLabs

/-! ## Headers

Each header is written behind the others with a call of `sprintf`, into the send buffer. -/

/-- `response` and `length` of the header builders. -/
structure Response where
  data : Bytes
  length : Nat

/-- `length += sprintf(response + length, …)`. -/
def Response.sprintf (r : Response) (text : Bytes) : Response :=
  { data := writeAt r.data r.length (text ++ [0]), length := r.length + text.length }

/-- `set_header`. -/
def setHeader (name value : Bytes) (r : Response) : Response :=
  r.sprintf (name ++ ascii ": " ++ value ++ crlf)

/-- `set_date_header`. -/
def setDateHeader (w : World) : Response → Response := setHeader (ascii "Date") (w.date w.now)

/-- `set_servername_header` with `SERVER_NAME`. -/
def setServernameHeader : Response → Response :=
  setHeader (ascii "Server") (ascii "Prestige/CS360 (Ubuntu 64-bit)")

/-- `set_content_type_header`. -/
def setContentTypeHeader : Bytes → Response → Response := setHeader (ascii "Content-Type")

/-- `set_content_length_header`; the number goes through a block of 10 bytes. -/
def setContentLengthHeader (contentLength : Int) (r : Response) : Option Response :=
  if (decimal contentLength).length < 10 then
    some (setHeader (ascii "Content-Length") (decimal contentLength) r)
  else none

/-- `set_modified_date_header`. -/
def setModifiedDateHeader (w : World) (date : Int) : Response → Response :=
  setHeader (ascii "Last-Modified") (w.date date)

/-- The status line and the page of `build_error_header`; its `switch`es have no case
for the other statuses. -/
def errorText : Status → Option (Bytes × Bytes)
  | .badRequest => some (ascii "400 Bad Request", ascii "<h1>400 - Bad Request</h1>")
  | .forbidden => some (ascii "403 Forbidden", ascii "<h1>403 - Forbidden</h1>")
  | .notFound => some (ascii "404 Not Found", ascii "<h1>404 - Not Found</h1>")
  | .notImplemented => some (ascii "501 Not Implemented", ascii "<h1>501 - Not Implemented</h1>")
  | .internalError =>
      some (ascii "500 Internal Server Error", ascii "<h1>500 - Internal Server Error</h1>")
  | .ok => none
  | .unset => none

/-- `build_error_header`. -/
def buildErrorHeader (w : World) (c : Client) : Option Client := do
  let (line, data) ← errorText c.status
  let r : Response := { data := c.sendBuf.data, length := 0 }
  let r := r.sprintf (ascii "HTTP/1.1 ")
  let r := r.sprintf (line ++ crlf)
  let r := setDateHeader w r
  let r := setServernameHeader r
  let r := setContentTypeHeader (ascii "text/html") r
  let r ← setContentLengthHeader data.length r
  let r := setModifiedDateHeader w w.now r
  let r := r.sprintf crlf
  let r := r.sprintf data
  some { c with
    sendBuf := { c.sendBuf with data := r.data, length := r.length }
    lastActive := w.now }

/-- `build_error_body`. -/
def buildErrorBody (c : Client) : Client := { c with sendBuf := { c.sendBuf with length := 0 } }

/-- `filepath`; the URI has to fit a block of `BUFFER_MAX` bytes with what goes before it. -/
def filepath (uri : Bytes) : Option Bytes :=
  let path := ascii "www" ++ (if uri = ascii "/" then ascii "/index.html" else uri)
  if path.length < bufferMax then some path else none

/-- The status that says why `open` failed. -/
def OpenError.status : OpenError → Status
  | .enoent => .notFound
  | .eacces => .forbidden
  | .other => .internalError

/-- A value of type `off_t` as an `int`. -/
def intOfSize (size : Int) : Int := (Int32.ofInt size).toInt

/-- `build_ok_header`. -/
def buildOkHeader (w : World) (c : Client) : Option Client := do
  let request ← c.requests[c.curRequest]?
  let uri ← request.uri
  let path ← filepath uri
  match w.openFile path with
  | .error errno => buildErrorHeader w { c with status := errno.status }
  | .ok file =>
      let version ← request.version
      let filetype ← request.filetype
      let r : Response := { data := c.sendBuf.data, length := 0 }
      let r := r.sprintf (version ++ ascii " ")
      let r := r.sprintf (ascii "200 OK" ++ crlf)
      let r := setDateHeader w r
      let r := setServernameHeader r
      let r := setContentTypeHeader filetype r
      let r ← setContentLengthHeader (intOfSize file.size) r
      let r := setModifiedDateHeader w file.ctime r
      let r := r.sprintf crlf
      some { c with
        sendBuf := { c.sendBuf with data := r.data, length := r.length }
        lastActive := w.now }

/-! ## Bodies -/

/-- The body of the loop of `build_ok_body`: the buffer grows if it has to, and takes
the bytes read. -/
def appendRead (bytes : Bytes) (b : Buffer) : Option Buffer :=
  let newLength := b.length + bytes.length
  if b.maxLength < newLength then
    -- `realloc` to twice the length needed, cleared from `length` on
    if newLength * 2 < 2 ^ 31 then
      let data := b.data.take b.length ++ List.replicate (newLength * 2 - b.length) 0
      some { b with
        data := writeAt data b.length bytes
        length := newLength
        maxLength := newLength * 2 }
    else none
  else some { b with data := writeAt b.data b.length bytes, length := newLength }

/-- The loop of `build_ok_body` over what `read` returns. -/
def readLoop : List Bytes → Buffer → Option Buffer
  | [], b => some b
  | bytes :: rest, b => if bytes = [] then some b else (appendRead bytes b).bind (readLoop rest)

/-- `build_ok_body`; reads of a file that could not be opened fail. -/
def buildOkBody (w : World) (c : Client) : Option Client := do
  let request ← c.requests[c.curRequest]?
  let uri ← request.uri
  let path ← filepath uri
  let reads := match w.openFile path with
    | .error _ => []
    | .ok file => file.reads
  let sendBuf ← readLoop reads c.sendBuf
  some { c with sendBuf := sendBuf, lastActive := w.now }

/-! ## The builder the status calls for

`receive_requests` and `send_responses` choose between the builders in the same way. -/

/-- The test for `STATUS_OK` before a header is built. -/
def buildHeader (w : World) (c : Client) : Option Client :=
  if c.status = .ok then buildOkHeader w c else buildErrorHeader w c

/-- The test before a body is built. -/
def buildBody (w : World) (c : Client) : Option Client :=
  if c.status = .ok then buildOkBody w c else some (buildErrorBody c)

/-! ## What the builders leave alone -/

/-- Everything but the text in the send buffer, the status and the time. -/
structure Frame (c c' : Client) : Prop where
  state : c'.state = c.state
  recvBuf : c'.recvBuf = c.recvBuf
  requests : c'.requests = c.requests
  numRequests : c'.numRequests = c.numRequests
  curRequest : c'.curRequest = c.curRequest
  position : c'.sendBuf.position = c.sendBuf.position

variable {w : World} {c c' : Client}

theorem buildErrorHeader_frame (h : buildErrorHeader w c = some c') :
    Frame c c' ∧ c'.status = c.status := by
  obtain ⟨⟨line, data⟩, -, h⟩ := Option.bind_eq_some_iff.mp h
  obtain ⟨r, -, h⟩ := Option.bind_eq_some_iff.mp h
  cases h
  exact ⟨⟨rfl, rfl, rfl, rfl, rfl, rfl⟩, rfl⟩

theorem buildOkHeader_frame (h : buildOkHeader w c = some c') : Frame c c' := by
  obtain ⟨request, -, h⟩ := Option.bind_eq_some_iff.mp h
  obtain ⟨uri, -, h⟩ := Option.bind_eq_some_iff.mp h
  obtain ⟨path, -, h⟩ := Option.bind_eq_some_iff.mp h
  cases hopen : w.openFile path with
  | error errno =>
      rw [hopen] at h
      obtain ⟨hframe, -⟩ := buildErrorHeader_frame h
      exact ⟨hframe.state, hframe.recvBuf, hframe.requests, hframe.numRequests, hframe.curRequest,
        hframe.position⟩
  | ok file =>
      rw [hopen] at h
      obtain ⟨version, -, h⟩ := Option.bind_eq_some_iff.mp h
      obtain ⟨filetype, -, h⟩ := Option.bind_eq_some_iff.mp h
      obtain ⟨r, -, h⟩ := Option.bind_eq_some_iff.mp h
      cases h
      exact ⟨rfl, rfl, rfl, rfl, rfl, rfl⟩

theorem appendRead_position {bytes : Bytes} {b b' : Buffer} (h : appendRead bytes b = some b') :
    b'.position = b.position := by
  simp only [appendRead] at h
  split at h
  · split at h
    · cases h; rfl
    · cases h
  · cases h; rfl

theorem readLoop_position {reads : List Bytes} {b b' : Buffer} (h : readLoop reads b = some b') :
    b'.position = b.position := by
  induction reads generalizing b with
  | nil => cases h; rfl
  | cons bytes rest ih =>
      rw [readLoop] at h
      split at h
      · cases h; rfl
      · obtain ⟨b₁, happend, h⟩ := Option.bind_eq_some_iff.mp h
        rw [ih h, appendRead_position happend]

theorem buildOkBody_frame (h : buildOkBody w c = some c') :
    Frame c c' ∧ c'.status = c.status := by
  obtain ⟨request, -, h⟩ := Option.bind_eq_some_iff.mp h
  obtain ⟨uri, -, h⟩ := Option.bind_eq_some_iff.mp h
  obtain ⟨path, -, h⟩ := Option.bind_eq_some_iff.mp h
  obtain ⟨sendBuf, hread, h⟩ := Option.bind_eq_some_iff.mp h
  cases h
  exact ⟨⟨rfl, rfl, rfl, rfl, rfl, readLoop_position hread⟩, rfl⟩

theorem buildHeader_frame (h : buildHeader w c = some c') : Frame c c' := by
  unfold buildHeader at h
  split at h
  · exact buildOkHeader_frame h
  · exact (buildErrorHeader_frame h).1

theorem buildBody_frame (h : buildBody w c = some c') : Frame c c' ∧ c'.status = c.status := by
  unfold buildBody at h
  split at h
  · exact buildOkBody_frame h
  · cases h
    exact ⟨⟨rfl, rfl, rfl, rfl, rfl, rfl⟩, rfl⟩

end InternetLabs.EventServer
