/-
# `InternetLabs.Dns.Resolver` — the resolver of `dnsresolverlab`

`create_dns_query` and `get_answer_address` as `resolver.c` has them, with the
lab's own copies of the codecs: the encoder adds nothing for a length byte and
four at the end, and the record reader leaves the TTL in network order.  What is
printed in debug mode is left out.
-/
import InternetLabs.Dns.Record

namespace InternetLabs.Dns.Resolver

open InternetLabs InternetLabs.Dns

/-- A name without its trailing dot and in lower case; the root is left alone. -/
def canonicalForm (name : Bytes) : Bytes :=
  if name = [dot] then name
  else
    let name := if name.getLast? = some dot then name.dropLast else name
    name.map fun c => if 65 ≤ c.toNat ∧ c.toNat ≤ 90 then c + 32 else c

/-- `canonicalize_name`, on the string the block denotes; `none` for the empty string,
of which it looks at `name[-1]`. -/
def canonicalizeName (name : Bytes) : Option Bytes :=
  if name = [] then none else some (canonicalForm name)

/-- `name_ascii_to_wire` of the resolver. -/
def nameAsciiToWire (name wire : Bytes) (off : Nat) : Bytes × Nat :=
  nameToWire 0 4 name wire off

/-- `name_ascii_from_wire` of the resolver; `malloc` finds a cleared block. -/
def nameAsciiFromWire (wire : Bytes) (indexp : Nat) : Option (Bytes × Nat) :=
  nameFromWire (List.replicate bufferMax 0) wire indexp

/-- `rr_from_wire` of the resolver. -/
def rrFromWire (wire : Bytes) (indexp : Nat) (queryOnly : Bool) : Option (DnsRr × Nat) :=
  rrFromWireWith id (List.replicate bufferMax 0) wire indexp queryOnly

/-- `preset_data`: recursion desired and one question. -/
def presetData : Bytes := [0x01, 0x00, 0x00, 0x01, 0x00, 0x00, 0x00, 0x00, 0x00, 0x00]

/-- `create_dns_query`: the memory at `wire` afterwards and the length returned;
`randId` is what `rand()` gave. -/
def createDnsQuery (randId : UInt16) (qname : Bytes) (qtype : UInt16) (wire : Bytes) :
    Bytes × UInt16 :=
  let wirePtr := 0
  let wireLen : UInt16 := 0
  let wire := writeAt wire wirePtr (le16 randId)
  let wirePtr := wirePtr + 2
  let wireLen := wireLen + 2
  let wire := writeAt wire wirePtr presetData
  let wirePtr := wirePtr + presetData.length
  let wireLen := wireLen + UInt16.ofNat presetData.length
  let (wire, nameLength) := nameAsciiToWire qname wire wirePtr
  let wirePtr := wirePtr + nameLength
  let wireLen := wireLen + UInt16.ofNat nameLength
  let wire := writeAt wire wirePtr (le16 (htons qtype))
  let wirePtr := wirePtr + 2
  let wireLen := wireLen + 2
  let wire := writeAt wire wirePtr (le16 (htons 1))
  let wireLen := wireLen + 2
  (wire, wireLen)

/-! ## The answer -/

/-- What one call of `get_answer_address` comes to: the four bytes given to
`inet_ntoa`, or `NULL`. -/
inductive Address where
  | found (addr : Bytes)
  | null
deriving DecidableEq

/-- The variables of the loop of `get_answer_address`. -/
structure AnswerScan where
  qname : Bytes
  offset : Nat
  rrLeft : Nat

/-- One round of the loop of `get_answer_address`; `stack` is what the four bytes
of `addr` hold before. -/
def answerBody (stack : Bytes) (qtype : UInt16) (wire : Bytes) (s : AnswerScan) :
    Step AnswerScan Address :=
  if s.rrLeft = 0 then .ret .null
  else
    match rrFromWire wire s.offset false with
    | none => .fault
    | some (rr, offset) =>
        let rrLeft := s.rrLeft - 1
        if cstr rr.name = cstr s.qname then
          if rr.type = qtype then
            -- `memcpy(&addr.s_addr, rr.rdata, rr.rdata_len)` into four bytes
            if rr.rdataLen.toNat > 4 ∨ rr.rdata.length < rr.rdataLen.toNat then .fault
            else .ret (.found (writeAt stack 0 (rr.rdata.take rr.rdataLen.toNat)))
          else if rr.type = cname then
            match nameAsciiFromWire wire (offset - rr.rdataLen.toNat) with
            | none => .fault
            | some (nextQname, _) =>
                match canonicalizeName (cstr nextQname) with
                | none => .fault
                | some nextQname =>
                    .next { qname := nextQname, offset := offset, rrLeft := rrLeft }
          else .next { s with offset := offset, rrLeft := rrLeft }
        else .ret .null

/-- The variables of `get_answer_address` before the loop: the three counts are
added up, and the question is stepped over. -/
def scanStart (qname wire : Bytes) : Option AnswerScan := do
  let numAnswerRr ← read16 wire 6
  let numAuthRr ← read16 wire 8
  let numAddRr ← read16 wire 10
  let (_, offset) ← rrFromWire wire 12 true
  return { qname := qname, offset := offset,
           rrLeft := (ntohs numAnswerRr).toNat + (ntohs numAuthRr).toNat + (ntohs numAddRr).toNat }

/-- `get_answer_address`; `none` if it reads outside the memory at `wire` or before an
alias, copies more than an address into `addr`, or a name does not end. -/
def getAnswerAddress (stack qname : Bytes) (qtype : UInt16) (wire : Bytes) : Option Address := do
  let s ← scanStart qname wire
  Loop.run (answerBody stack qtype wire) (s.rrLeft + 1) s

end InternetLabs.Dns.Resolver
