/-
# `InternetLabs.Dns.Query` — well-formed requests and what the server reads in them

A `Query` is a request with QR clear, opcode 0, one question, and an
uncompressed question name; the other header bytes and whatever follows the
question are free.  `getQuestion_bytes` says the server reads the question as it
was put.
-/
import InternetLabs.Dns.Server

namespace InternetLabs.Dns

theorem field16_be16 (pre post : Bytes) (x : UInt16) :
    Server.field16 (pre ++ be16 x ++ post) pre.length = x := by
  obtain ⟨y, hy, hx⟩ := read16_be16_eq pre post x
  rw [Server.field16, hy]
  exact hx

/-- A request the server accepts, its question name uncompressed. -/
structure Query where
  id : UInt16
  flags : UInt16
  isQuery : Server.isQuery flags = true
  opcode : Server.opcode flags = 0
  counts : Bytes
  counts_length : counts.length = 6
  name : Name
  qtype : UInt16
  qclass : UInt16
  tail : Bytes

/-- A query with recursion desired and nothing after the question. -/
def Query.plain (n : Name) (qtype : UInt16) : Query where
  id := 0x27d6
  flags := 0x0100
  isQuery := by decide
  opcode := by decide
  counts := [0, 0, 0, 0, 0, 0]
  counts_length := rfl
  name := n
  qtype := qtype
  qclass := 1
  tail := []

namespace Query

def question (q : Query) : Bytes := q.name.wire ++ be16 q.qtype ++ be16 q.qclass

def bytes (q : Query) : Bytes :=
  be16 q.id ++ be16 q.flags ++ be16 1 ++ q.counts ++ q.question ++ q.tail

variable (q : Query)

theorem take_two_bytes : q.bytes.take 2 = be16 q.id := by
  simp [bytes, be16]

theorem field16_flags : Server.field16 q.bytes 2 = q.flags := by
  have := field16_be16 (be16 q.id) (be16 1 ++ q.counts ++ q.question ++ q.tail) q.flags
  simpa [bytes, List.append_assoc] using this

theorem field16_qdcount : Server.field16 q.bytes 4 = 1 := by
  have := field16_be16 (be16 q.id ++ be16 q.flags) (q.counts ++ q.question ++ q.tail) 1
  simpa [bytes, List.append_assoc] using this

theorem isValidRequest_bytes : Server.isValidRequest q.bytes = true := by
  simp [Server.isValidRequest, q.field16_flags, q.field16_qdcount, q.isQuery, q.opcode]

/-- What the server makes of the question. -/
def questionRr : DnsRr :=
  { name := nameBlock q.name.text, type := q.qtype, cls := q.qclass, ttl := 0, rdataLen := 0,
    rdata := [] }

/-- **The server reads the question as it was put.** -/
theorem getQuestion_bytes : Server.getQuestion q.bytes = some q.questionRr := by
  obtain ⟨hdr, hhdr⟩ : ∃ hdr, hdr = be16 q.id ++ be16 q.flags ++ be16 1 ++ q.counts := ⟨_, rfl⟩
  have hlen : hdr.length = 12 := by
    rw [hhdr]; simp [q.counts_length]
  have hread := readRr_question swapEndian32 (List.replicate bufferMax 0) hdr q.tail q.name
    q.qtype q.qclass
  have hbytes : hdr ++ (q.name.wire ++ be16 q.qtype ++ be16 q.qclass) ++ q.tail = q.bytes := by
    rw [hhdr]; rfl
  rw [hbytes, hlen] at hread
  have hsome : q.bytes[12]? ≠ none := by
    rw [← hbytes]
    simp [hlen, Name.wire, labelsWire]
  simp only [Server.getQuestion, Server.rrFromWire, rrFromWireWith, if_neg hsome, Bool.not_true,
    Bool.false_eq_true, if_false, hread, Option.map_some, questionRr, nameBlock]

end Query

end InternetLabs.Dns
