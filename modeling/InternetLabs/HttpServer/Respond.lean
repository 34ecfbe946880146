/-
# `InternetLabs.HttpServer.Respond` — what the two servers respond with

The system as a call of `send_response` sees it (`World`), the path it opens, and the head
of a response.  A head is put together in a block of `BUFFER_MAX` bytes, which no `sprintf`
checks: leaving it is a fault.  What the fields of the request hold is read through the
heap.
-/
import InternetLabs.EventServer.Respond
import InternetLabs.HttpServer.Parse

namespace InternetLabs.HttpServer

open InternetLabs.EventServer (OpenError crlf)

/-- An open file: `st_size`, `st_ctime`, and what the calls of `read` return one after the
other, up to the one that returns 0. -/
structure File where
  size : Int
  ctime : Int
  reads : List Bytes
  reads_le : ∀ r ∈ reads, r.length ≤ bufferMax

/-- The system as one call sees it.  `ctime` is what `attrib` holds where `fstat` fails. -/
structure World where
  openFile : Bytes → Except OpenError File
  ctime : Int
  now : Int
  date : Int → Bytes

def noFiles : World where
  openFile _ := .error .enoent
  ctime := 0
  now := 0
  date _ := []

/-- `SERVER_ROOT_DIR`. -/
def serverRootDir : Bytes := ascii "www"

/-- `filepath`; the URI has to fit a block of `BUFFER_MAX` bytes with what goes before it. -/
def filepath (uri : Bytes) : Except Fault Bytes :=
  let path := serverRootDir ++ (if uri = ascii "/" then ascii "/index.html" else uri)
  if path.length < bufferMax then .ok path else .error .overrun

/-- A string of the request. -/
def field (heap : Heap Contents) (p : Ptr) : Except Fault Bytes := (heap.load p).map Contents.text

/-- `set_header`. -/
def setHeader (name value : Bytes) : Bytes := name ++ ascii ": " ++ value ++ crlf

/-- The head of a response: the status line, the date, the server, the type, the length, the
date of the last change, and an empty line.  The length goes through a block of 10 bytes. -/
def responseHead (w : World) (version line type : Bytes) (length modified : Int) :
    Except Fault Bytes :=
  let head := version ++ ascii " " ++ line ++ crlf
    ++ setHeader (ascii "Date") (w.date w.now)
    ++ setHeader (ascii "Server") (ascii "Prestige/CS360 (Ubuntu 64-bit)")
    ++ setHeader (ascii "Content-Type") type
    ++ setHeader (ascii "Content-Length") (decimal length)
    ++ setHeader (ascii "Last-Modified") (w.date modified)
    ++ crlf
  if (decimal length).length < 10 ∧ head.length < bufferMax then .ok head else .error .overrun

theorem filepath_noMisuse (uri : Bytes) : NoMisuse (filepath uri) :=
  noMisuse_ite (noMisuse_ok _) noMisuse_overrun

theorem responseHead_noMisuse (w : World) (version line type : Bytes) (length modified : Int) :
    NoMisuse (responseHead w version line type length modified) :=
  noMisuse_ite (noMisuse_ok _) noMisuse_overrun

end InternetLabs.HttpServer
