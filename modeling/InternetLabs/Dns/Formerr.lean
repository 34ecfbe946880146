/-
# `InternetLabs.Dns.Formerr` — the reply to a request that is rejected

`get_response` puts the flags of a reply together in host order.  On the way to an
answer `htons` turns them round before they are copied; on the way out of a request
that `is_valid_request` rejects nothing does.  So the first of the two bytes is the low
one, and a client that reads the word in network order finds the bit that makes it a
response clear (`isQuery_rejected`), whatever the request.
-/
import InternetLabs.Dns.Query

namespace InternetLabs.Dns.Server

open InternetLabs InternetLabs.Dns

/-! ## The flags of a reply -/

/-- `AA_SET`. -/
def aaSet (f : UInt16) : Bool := f &&& 0x0400 != 0

/-- `TC_SET`. -/
def tcSet (f : UInt16) : Bool := f &&& 0x0200 != 0

/-- `RA_SET`. -/
def raSet (f : UInt16) : Bool := f &&& 0x0080 != 0

/-- `RCODE`. -/
def rcodeOf (c : UInt16) : UInt16 := c &&& 0x000f

/-- The header `m` says to the client of `request` that the request is malformed. -/
structure IsFormerr (request m : Bytes) : Prop where
  id : m.take 2 = request.take 2
  response : isQuery (field16 m 2) = false
  opcode : opcode (field16 m 2) = 0
  aa : aaSet (field16 m 2) = false
  tc : tcSet (field16 m 2) = false
  rd : rdSet (field16 m 2) = rdSet (field16 request 2)
  ra : raSet (field16 m 2) = false
  rcode : rcodeOf (field16 m 2) = 1
  counts : (m.take 12).drop 4 = List.replicate 8 0

theorem setFormerr_replyFlags (f : UInt16) : setFormerr (replyFlags f 0) = replyFlags f 1 := by
  simp [setFormerr, replyFlags]

theorem replyFlags_one (f : UInt16) : replyFlags f 1 = 0x8001 ∨ replyFlags f 1 = 0x8101 := by
  rcases and_0x0100 f with h | h
  · left; rw [replyFlags, h]; rfl
  · right; rw [replyFlags, h]; rfl

theorem rdSet_replyFlags (f : UInt16) : rdSet (replyFlags f 1) = rdSet f := by
  rcases and_0x0100 f with h | h <;> simp only [rdSet, replyFlags, h] <;> decide

/-! ## What is sent

The flags are copied as the word lies in memory, low byte first; a client reads it high
byte first. -/

/-- A word copied to memory as it is reads as the one with its bytes exchanged. -/
theorem le16_eq_be16 (x : UInt16) : le16 x = be16 (htons x) := by
  rw [← le16_htons, htons_htons]

section Rejected
variable (request : RequestBuffer) (n : Nat)

theorem length_id : (request.bytes.take 2).length = 2 := by
  rw [List.length_take, request.len]
  rfl

/-- The reply to a rejected request: its ID, the flags in host order, and the rest of
the buffer as it was. -/
theorem getResponse_rejected (h : isValidRequest request.bytes = false) (db : CacheDb)
    (now : Int) : getResponse db now request.bytes (List.replicate n 0)
      = some (request.bytes.take 2 ++ le16 (replyFlags (field16 request.bytes 2) 1)
          ++ List.replicate (n - 4) 0, 12) := by
  have hbuilt := writeAt_built (request.bytes.take 2) (List.replicate n 0)
    (le16 (replyFlags (field16 request.bytes 2) 1))
  rw [← writeAt_zero, length_id] at hbuilt
  simp only [getResponse, h, Bool.not_false, if_true, replyFlags_zero, setFormerr_replyFlags,
    hbuilt, List.length_append, length_id, length_le16, List.drop_replicate]

theorem field16_id (x : UInt16) :
    field16 (request.bytes.take 2 ++ be16 x ++ List.replicate n 0) 2 = x := by
  have hfield := field16_be16 (request.bytes.take 2) (List.replicate n 0) x
  rwa [length_id] at hfield

theorem isQuery_rejected (f : UInt16) : isQuery (htons (replyFlags f 1)) = true := by
  rcases replyFlags_one f with h | h <;> rw [h] <;> decide

/-- **Turned round**, as on the way to an answer, they would say what is meant. -/
theorem isFormerr_htons : IsFormerr request.bytes (request.bytes.take 2
    ++ le16 (htons (replyFlags (field16 request.bytes 2) 1)) ++ List.replicate 8 0) := by
  rw [le16_htons]
  have hflags := field16_id request 8 (replyFlags (field16 request.bytes 2) 1)
  have hrd := rdSet_replyFlags (field16 request.bytes 2)
  have hone := replyFlags_one (field16 request.bytes 2)
  have hdrop : (request.bytes.take 2 ++ be16 (replyFlags (field16 request.bytes 2) 1)
      ++ List.replicate 8 0).drop 4 = List.replicate 8 (0 : UInt8) :=
    List.drop_left' (by rw [List.length_append, length_id, length_be16])
  constructor
  case id => rw [List.append_assoc, List.take_left' (length_id request)]
  case rd => rw [hflags, hrd]
  case counts =>
    rw [List.drop_take, hdrop]
    rfl
  all_goals rw [hflags]; rcases hone with h | h <;> rw [h] <;> decide

/-- **A rejected request gets no FORMERR**, whatever it is: the reply is no response. -/
theorem rejected_not_formerr (h : isValidRequest request.bytes = false) (db : CacheDb)
    (now : Int) : ¬ ∃ m, getResponse db now request.bytes (List.replicate n 0) = some (m, 12) ∧
      IsFormerr request.bytes m := by
  rintro ⟨m, hm, hformerr⟩
  rw [getResponse_rejected request n h, Option.some.injEq, Prod.mk.injEq] at hm
  obtain ⟨rfl, -⟩ := hm
  have hresponse := hformerr.response
  rw [le16_eq_be16, field16_id, isQuery_rejected] at hresponse
  cases hresponse

end Rejected

def emptyQuery : RequestBuffer := .ofDatagram [0x27, 0xd6, 0x01, 0x00, 0, 0, 0, 0, 0, 0, 0, 0]

theorem emptyQuery_not_formerr : isValidRequest emptyQuery.bytes = false ∧
    ¬ ∃ m, getResponse noEntries 0 emptyQuery.bytes (List.replicate bufferMax 0) = some (m, 12) ∧
      IsFormerr emptyQuery.bytes m :=
  ⟨by decide, rejected_not_formerr emptyQuery bufferMax (by decide) noEntries 0⟩

/-- The flags sent to it are `01 81`, and not `81 01`. -/
theorem emptyQuery_flags : ¬ ∀ request : RequestBuffer, isValidRequest request.bytes = false →
    ∀ (db : CacheDb) (now : Int), ∃ m,
      getResponse db now request.bytes (List.replicate bufferMax 0) = some (m, 12) ∧
        IsFormerr request.bytes m := by
  intro hall
  obtain ⟨m, hm, hformerr⟩ := hall emptyQuery (by decide) noEntries 0
  have hflags : (getResponse noEntries 0 emptyQuery.bytes (List.replicate bufferMax 0)).map
      (fun r => isQuery (field16 r.1 2)) = some true := by decide +kernel
  rw [hm, Option.map_some, hformerr.response] at hflags
  cases hflags

end InternetLabs.Dns.Server
