/-
# `InternetLabs.Dns.CreateQuery` — the server on the resolver's queries

`create_dns_query` puts the type and the class where the encoder says the name
ends, and the encoder says it is four bytes longer than the labels are.  The name
ends a byte past the labels and their length bytes, so the two agree for names of
three labels, the built-in example among them, and for no others.
-/
import InternetLabs.Dns.Resolver
import InternetLabs.Dns.InitDb
import InternetLabs.Dns.Query

namespace InternetLabs.Dns.Resolver

open InternetLabs InternetLabs.Dns

/-- The message `create_dns_query` makes in the buffer `wire`. -/
def queryMessage (randId : UInt16) (qname : Bytes) (qtype : UInt16) (wire : Bytes) : Bytes :=
  let (wire, len) := createDnsQuery randId qname qtype wire
  wire.take len.toNat

/-- The server understands the query: it has the length it should have, all of it
has been written, the server accepts it and finds the name, the type and class 1
in it. -/
structure Understood (randId : UInt16) (n : Name) (qtype : UInt16) : Prop where
  length : ∀ wire, ((createDnsQuery randId n.text qtype wire).2).toNat
    = 12 + ((n.labels.map List.length).sum + n.labels.length + 1) + 4
  written : ∀ wire wire', queryMessage randId n.text qtype wire
    = queryMessage randId n.text qtype wire'
  accepted : ∀ wire, Server.isValidRequest
    (Server.RequestBuffer.ofDatagram (queryMessage randId n.text qtype wire)).bytes = true
  recovered : ∀ wire, ∃ rr,
    Server.getQuestion
        (Server.RequestBuffer.ofDatagram (queryMessage randId n.text qtype wire)).bytes = some rr ∧
      cstr rr.name = n.text ∧ rr.type = qtype ∧ rr.cls = 1

theorem length_wire_eq (n : Name) :
    n.wire.length = (n.labels.map List.length).sum + n.labels.length + 1 := by
  rw [← n.length_wire]
  induction n.labels with
  | nil => rfl
  | cons l ls ih =>
      simp only [List.map_cons, List.sum_cons, List.length_cons] at ih ⊢
      omega

theorem nameAsciiToWire_snd (n : Name) (wire : Bytes) (off : Nat) :
    (nameAsciiToWire n.text wire off).2 = (n.labels.map List.length).sum + 4 := by
  have htok : strtokAll (· == dot) (cstr n.text) = n.labels := by
    rw [n.cstr_text]; exact strtokAll_labelsText n.ok
  rw [nameAsciiToWire, nameToWire, htok, nameToWireLoop_snd]
  simp only [Nat.zero_add]

theorem createDnsQuery_snd (randId : UInt16) (n : Name) (qtype : UInt16) (wire : Bytes) :
    (createDnsQuery randId n.text qtype wire).2.toNat
      = (20 + (n.labels.map List.length).sum) % 2 ^ 16 := by
  have hlen : (createDnsQuery randId n.text qtype wire).2
      = 2 + UInt16.ofNat presetData.length
        + UInt16.ofNat ((n.labels.map List.length).sum + 4) + 2 + 2 := by
    simp only [createDnsQuery, nameAsciiToWire_snd]
    rfl
  rw [hlen]
  simp only [UInt16.toNat_add, UInt16.toNat_ofNat', presetData, List.length_cons, List.length_nil]
  simp only [UInt16.reduceToNat]
  omega

theorem isQuery_0x0100 : Server.isQuery 0x0100 = true := by decide

theorem opcode_0x0100 : Server.opcode 0x0100 = 0 := by decide

theorem length_sixZeros : [(0 : UInt8), 0, 0, 0, 0, 0].length = 6 := rfl

/-- The query for a name of three labels, in a buffer with `tail` after it. -/
def threeLabelQuery (randId : UInt16) (n : Name) (qtype : UInt16) (tail : Bytes) : Query where
  id := htons randId
  flags := 0x0100
  isQuery := isQuery_0x0100
  opcode := opcode_0x0100
  counts := [0, 0, 0, 0, 0, 0]
  counts_length := length_sixZeros
  name := n
  qtype := qtype
  qclass := 1
  tail := tail

theorem nameAsciiToWire_three {n : Name} (h : n.labels.length = 3) (built m : Bytes) :
    nameAsciiToWire n.text (built ++ m.drop built.length) built.length
      = ((built ++ n.wire) ++ m.drop (built ++ n.wire).length, n.wire.length) := by
  refine Prod.ext ?_ ?_
  · rw [nameAsciiToWire, nameToWire_text 0 4 n.cstr_text, writeAt_built]
  · rw [nameAsciiToWire_snd, length_wire_eq, h]

/-- What `create_dns_query` leaves in the buffer for a name of three labels. -/
theorem createDnsQuery_three {randId : UInt16} {n : Name} (h : n.labels.length = 3)
    (qtype : UInt16) (m : Bytes) :
    (createDnsQuery randId n.text qtype m).1
      = (threeLabelQuery randId n qtype []).bytes
        ++ m.drop (threeLabelQuery randId n qtype []).bytes.length := by
  have hid : le16 randId = be16 (htons randId) := by rw [← le16_htons, htons_htons]
  obtain ⟨hdr, hhdr⟩ : ∃ hdr, hdr = le16 randId ++ presetData := ⟨_, rfl⟩
  have hlen : hdr.length = 12 := by rw [hhdr]; rfl
  have h1 := writeAt_built [] m (le16 randId)
  have h2 := writeAt_built (le16 randId) m presetData
  rw [← hhdr] at h2
  have hname := nameAsciiToWire_three h hdr m
  have h3 := writeAt_built (hdr ++ n.wire) m (be16 qtype)
  have h4 := writeAt_built (hdr ++ n.wire ++ be16 qtype) m (be16 1)
  have hbytes : hdr ++ n.wire ++ be16 qtype ++ be16 1
      = (threeLabelQuery randId n qtype []).bytes := by
    have hpreset : presetData = be16 0x0100 ++ be16 1 ++ [0, 0, 0, 0, 0, 0] := by decide
    rw [hhdr, hid, hpreset]
    simp [Query.bytes, Query.question, threeLabelQuery, List.append_assoc]
  rw [hbytes] at h4
  have hpreset : presetData.length = 10 := rfl
  simp only [List.nil_append, List.length_nil, List.drop_zero] at h1
  simp only [List.length_append, length_be16, length_le16, hlen] at h1 h2 h3 h4 hname
  simp only [createDnsQuery, le16_htons, hpreset, h1, Nat.zero_add, h2, Nat.reduceAdd, hname, h3,
    h4]

theorem sum_labels_le (n : Name) : (n.labels.map List.length).sum ≤ n.labels.length * 63 := by
  obtain ⟨ls, hok⟩ := n
  induction ls with
  | nil => exact Nat.le_refl 0
  | cons l ls ih =>
      have hl := (hok l List.mem_cons_self).le
      have ih := ih fun l' hl' => hok l' (List.mem_cons_of_mem l hl')
      simp only [List.map_cons, List.sum_cons, List.length_cons] at ih ⊢
      omega

theorem length_threeLabelQuery (randId : UInt16) {n : Name} (h : n.labels.length = 3)
    (qtype : UInt16) :
    (threeLabelQuery randId n qtype []).bytes.length = 20 + (n.labels.map List.length).sum := by
  have := length_wire_eq n
  simp only [Query.bytes, Query.question, threeLabelQuery, List.length_append, length_be16,
    List.length_cons, List.length_nil]
  omega

theorem queryMessage_three {randId : UInt16} {n : Name} (h : n.labels.length = 3)
    (qtype : UInt16) (m : Bytes) :
    queryMessage randId n.text qtype m = (threeLabelQuery randId n qtype []).bytes := by
  have hsum := sum_labels_le n
  simp only [queryMessage]
  rw [createDnsQuery_snd, createDnsQuery_three h, Nat.mod_eq_of_lt (by omega),
    ← length_threeLabelQuery randId h qtype, List.take_left]

theorem ofDatagram_three {randId : UInt16} {n : Name} (h : n.labels.length = 3) (qtype : UInt16)
    (m : Bytes) :
    ∃ tail, (Server.RequestBuffer.ofDatagram (queryMessage randId n.text qtype m)).bytes
      = (threeLabelQuery randId n qtype tail).bytes := by
  have hsum := sum_labels_le n
  have hlen := length_threeLabelQuery randId h qtype
  have hmax : bufferMax = 1024 := rfl
  refine ⟨List.replicate (bufferMax - (threeLabelQuery randId n qtype []).bytes.length) 0, ?_⟩
  simp only [Server.RequestBuffer.ofDatagram]
  rw [queryMessage_three h, List.take_of_length_le (by omega)]
  simp only [Query.bytes, Query.question, threeLabelQuery, List.append_nil]

theorem understood_three {randId : UInt16} {n : Name} (h : n.labels.length = 3) (qtype : UInt16) :
    Understood randId n qtype where
  length wire := by
    have hsum := sum_labels_le n
    rw [createDnsQuery_snd]
    omega
  written wire wire' := by rw [queryMessage_three h, queryMessage_three h]
  accepted wire := by
    obtain ⟨tail, htail⟩ := @ofDatagram_three randId _ h qtype wire
    rw [htail]
    exact Query.isValidRequest_bytes _
  recovered wire := by
    obtain ⟨tail, htail⟩ := @ofDatagram_three randId _ h qtype wire
    rw [htail]
    exact ⟨_, Query.getQuestion_bytes _, cstr_nameBlock n.text_noNul, rfl, rfl⟩

/-- **Which queries the server understands**: exactly those for a name of three
labels. -/
theorem understood_iff (randId : UInt16) (n : Name) (qtype : UInt16) :
    Understood randId n qtype ↔ n.labels.length = 3 := by
  refine ⟨fun h => ?_, fun h => understood_three h qtype⟩
  have hlen := h.length []
  rw [createDnsQuery_snd] at hlen
  omega

/-- The query for `example.com` comes out a byte too long, its type and class a
byte too far: the server reads type 0 and class 256. -/
theorem exampleCom_not_understood :
    ¬ Understood 0x27d6 Server.exampleCom typeA ∧
      (createDnsQuery 0x27d6 Server.exampleCom.text typeA (List.replicate bufferMax 0)).2 = 30 ∧
      (Server.getQuestion (Server.RequestBuffer.ofDatagram (queryMessage 0x27d6
        Server.exampleCom.text typeA (List.replicate bufferMax 0))).bytes).map
          (fun rr => (rr.type, rr.cls)) = some (0, 256) := by
  refine ⟨fun h => ?_, by decide, by decide +kernel⟩
  have hlen := h.length []
  rw [createDnsQuery_snd] at hlen
  exact absurd hlen (by decide)

end InternetLabs.Dns.Resolver
