/-
# `InternetLabs.Dns.Server` — the DNS server of `dnsserverlab`

The request check, the question, the cache table and `get_response`, as
`server.c` has them.  The clock is read in every round of the search, but the
results below hold it fixed, so it is one argument, `now`.

`response` is the memory from the response pointer on.  `get_response` does not
know how long the caller's buffer is, and neither does the model: a response
that does not fit makes the memory longer than the buffer was.

The search over the cache is a loop that restarts itself; its variables are a
`Search`, and one round of it is `searchBody`.
-/
import InternetLabs.Dns.Record

namespace InternetLabs.Dns.Server

open InternetLabs InternetLabs.Dns

/-! ## Flags -/

/-- `IS_QUERY`. -/
def isQuery (s : UInt16) : Bool := s &&& 0x8000 == 0

/-- `SET_RESPONSE`. -/
def setResponse (s : UInt16) : UInt16 := s ||| 0x8000

/-- `OPCODE`. -/
def opcode (s : UInt16) : UInt16 := (s &&& (0x7800 : UInt16)) >>> 11

/-- `RD_SET`. -/
def rdSet (f : UInt16) : Bool := f &&& 0x0100 != 0

/-- `SET_RD`. -/
def setRD (f : UInt16) : UInt16 := f ||| 0x0100

/-- `SET_FORMERR`. -/
def setFormerr (c : UInt16) : UInt16 := c ||| 0x0001

/-- `SET_NXDOMAIN`. -/
def setNxdomain (c : UInt16) : UInt16 := c ||| 0x0003

/-- A response's flags: QR set, RD as in the request, and the response code. -/
def replyFlags (reqFlags rcode : UInt16) : UInt16 :=
  0x8000 ||| (reqFlags &&& 0x0100) ||| rcode

theorem and_0x0100 (f : UInt16) : f &&& 0x0100 = 0 ∨ f &&& 0x0100 = 0x0100 := by
  cases h : f.toBitVec[8] with
  | false =>
      left
      apply UInt16.toBitVec_inj.mp
      simp only [UInt16.toBitVec_and]
      ext i hi
      interval_cases i <;> simp [h]
  | true =>
      right
      apply UInt16.toBitVec_inj.mp
      simp only [UInt16.toBitVec_and]
      ext i hi
      interval_cases i <;> simp [h]

theorem replyFlags_zero (f : UInt16) :
    (if rdSet f then setRD (setResponse 0) else setResponse 0) = replyFlags f 0 := by
  rcases and_0x0100 f with h | h <;> simp [rdSet, replyFlags, h, setRD, setResponse]

theorem setNxdomain_replyFlags (f : UInt16) : setNxdomain (replyFlags f 0) = replyFlags f 3 := by
  simp [setNxdomain, replyFlags]

/-! ## The request

The buffer is cleared before each request, so what lies behind a datagram is zero. -/

/-- The buffer `serve_udp` receives into. -/
structure RequestBuffer where
  bytes : Bytes
  len : bytes.length = bufferMax

/-- `memset` and `recvfrom`: the datagram, followed by zeros. -/
def RequestBuffer.ofDatagram (d : Bytes) : RequestBuffer where
  bytes := d.take bufferMax ++ List.replicate (bufferMax - d.length) 0
  len := by simp only [List.length_append, List.length_take, List.length_replicate]; omega

/-- The 16-bit field at offset `i` of the request, in host order. -/
def field16 (request : Bytes) (i : Nat) : UInt16 :=
  ntohs ((read16 request i).getD 0)

/-- `is_valid_request`. -/
def isValidRequest (request : Bytes) : Bool :=
  let codeNFlags := field16 request 2
  if !isQuery codeNFlags then false
  else if opcode codeNFlags != 0 then false
  else
    let totalQuestions := field16 request 4
    if totalQuestions != 1 then false else true

/-- `get_question`: the record that follows the 12-byte header. -/
def getQuestion (request : Bytes) : Option DnsRr :=
  (Server.rrFromWire request 12 true).map Prod.fst

/-! ## The cache table

A global array of entries.  Every loop over it stops at the first entry without a name. -/

/-- `MAX_ENTRIES`. -/
def maxEntries : Nat := 1024

/-- `dns_db_entry`. -/
structure DnsDbEntry where
  rr : DnsRr
  expires : Int
deriving DecidableEq

/-- `cachedb`: the entries in front of the first one whose name is `NULL`. -/
structure CacheDb where
  entries : List DnsDbEntry
  fits : entries.length ≤ maxEntries

/-- `cachedb[i]`, if `i < MAX_ENTRIES && cachedb[i].rr.name != NULL`. -/
def CacheDb.get (db : CacheDb) (i : Nat) : Option DnsDbEntry := db.entries[i]?

def noEntries : CacheDb := ⟨[], Nat.zero_le _⟩

/-! ## The search

A name is looked for from the index the loop has come to.  An alias sets the index to 0,
and the end of the round adds one to it. -/

/-- The variables of the search loop of `get_response`. -/
structure Search where
  i : Nat
  qname : Bytes
  numAnswers : UInt16
  index : Nat
  response : Bytes
  found : Bool

/-- `cur.rr` with the TTL the search gives it. -/
def DnsDbEntry.answer (now : Int) (cur : DnsDbEntry) : DnsRr :=
  { cur.rr with ttl := UInt32.ofInt (cur.expires - now) }

/-- `strcmp(cur.rr.name, qname) == 0 && remaining > 0`. -/
def DnsDbEntry.matches (now : Int) (qname : Bytes) (cur : DnsDbEntry) : Bool :=
  cstr cur.rr.name = cstr qname ∧ cur.expires - now > 0

/-- One round of the search loop. -/
def searchBody (db : CacheDb) (now : Int) (qtype : UInt16) (s : Search) : Step Search Search :=
  match db.get s.i with
  | none => .ret s
  | some cur =>
      if cur.matches now s.qname then
        if cur.rr.type = qtype then
          let (response, rrLen) := Server.rrToWire (cur.answer now) s.response s.index
          .ret { s with found := true, numAnswers := s.numAnswers + 1, response := response,
                        index := s.index + rrLen }
        else if cur.rr.type = cname then
          let (response, rrLen) := Server.rrToWire (cur.answer now) s.response s.index
          match Server.nameAsciiFromWire cur.rr.rdata 0 with
          | none => .fault
          | some (qname, _) =>
              -- `i = 0`, and then the `i++` of the `for`
              .next { s with i := 0 + 1, qname := qname, numAnswers := s.numAnswers + 1,
                             response := response, index := s.index + rrLen }
        else .next { s with i := s.i + 1 }
      else .next { s with i := s.i + 1 }

def searchStart (qname response : Bytes) (index : Nat) : Search :=
  { i := 0, qname := qname, numAnswers := 0, index := index, response := response,
    found := false }

/-- As many rounds as there are indices and names to look for. -/
def searchFuel (db : CacheDb) : Nat := (db.entries.length + 1) * (db.entries.length + 1)

/-- `get_response`: the memory at `response` afterwards and the length returned;
`none` if the question name or an alias cannot be decoded, or the search does
not end. -/
def getResponse (db : CacheDb) (now : Int) (request response : Bytes) :
    Option (Bytes × Nat) :=
  let response := writeAt response 0 (request.take 2)
  let reqCodeNFlags := field16 request 2
  let codeNFlags := setResponse 0
  let codeNFlags := if rdSet reqCodeNFlags then setRD codeNFlags else codeNFlags
  if !isValidRequest request then
    some (writeAt response 2 (le16 (setFormerr codeNFlags)), 12)
  else
    let codeNFlags := htons codeNFlags
    let cnfIndex := 2
    let response := writeAt response cnfIndex (le16 codeNFlags)
    let response := writeAt response 4 (le16 (htons 1))
    let answerRrCountIndex := 6
    let response := writeAt response answerRrCountIndex (List.replicate 6 0)
    let index := 12
    match getQuestion request with
    | none => none
    | some question =>
        let (response, nameLen) := Server.nameAsciiToWire question.name response index
        let index := index + nameLen
        let response := writeAt response index (le16 (htons question.type))
        let index := index + 2
        let response := writeAt response index (le16 (htons question.cls))
        let index := index + 2
        match Loop.run (searchBody db now question.type) (searchFuel db)
            (searchStart question.name response index) with
        | none => none
        | some s =>
            let response :=
              if !s.found then
                writeAt s.response cnfIndex (le16 (htons (setNxdomain (ntohs codeNFlags))))
              else s.response
            let response :=
              if s.numAnswers ≠ 0 then
                writeAt response answerRrCountIndex (le16 (htons s.numAnswers))
              else response
            some (response, s.index)

end InternetLabs.Dns.Server
