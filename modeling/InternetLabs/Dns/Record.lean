/-
# `InternetLabs.Dns.Record` — resource records and their wire form

`rr_to_wire` of the server library, and `rr_from_wire` in the two versions the
labs have (the resolver leaves the TTL in network order).

`DnsRr.wire` is what a record with a well-formed owner should look like on the
wire; `rrToWire_eq` says the encoder writes exactly that.  The decoder is
kept as it is, with its one surprise: before a full record whose first byte is
no compression pointer it moves on by eleven bytes.
-/
import InternetLabs.Dns.Name

namespace InternetLabs.Dns

/-- `TYPE_A`. -/
def typeA : UInt16 := 1

/-- `CNAME`. -/
def cname : UInt16 := 5

/-- `dns_rr`.  `name` and `rdata` are pointers: the memory from there on. -/
structure DnsRr where
  name : Bytes
  type : UInt16
  cls : UInt16
  ttl : UInt32
  rdataLen : UInt16
  rdata : Bytes
deriving DecidableEq

/-- `SWAP_ENDIAN_32`. -/
def swapEndian32 (num : UInt32) : UInt32 :=
  ((num >>> 24) &&& (0xff : UInt32)) ||| ((num <<< 8) &&& (0xff0000 : UInt32))
    ||| ((num >>> 8) &&& (0xff00 : UInt32)) ||| ((num <<< 24) &&& (0xff000000 : UInt32))

@[simp] theorem le32_swapEndian32 (x : UInt32) : le32 (swapEndian32 x) = be32 x := by
  simp only [le32, be32, List.cons.injEq, and_true]
  refine ⟨?_, ?_, ?_, ?_⟩ <;>
  · apply UInt8.toBitVec_inj.mp
    simp only [swapEndian32, UInt32.toBitVec_toUInt8, UInt32.toBitVec_or, UInt32.toBitVec_and,
      UInt32.toBitVec_shiftLeft, UInt32.toBitVec_shiftRight]
    ext i hi
    interval_cases i <;> simp

/-! ## Writing a record

`rr_to_wire` writes one field after the other, and counts with the length that the
encoder of names returns. -/

/-- `name_ascii_to_wire` of the server library. -/
def Server.nameAsciiToWire (name wire : Bytes) (off : Nat) : Bytes × Nat :=
  nameToWire 1 1 name wire off

/-- `rr_to_wire(rr, wire + off, …)`: the memory at `wire` afterwards and the
length returned.  The third argument of the source is not looked at. -/
def Server.rrToWire (rr : DnsRr) (wire : Bytes) (off : Nat) : Bytes × Nat :=
  let (wire, nameLen) := Server.nameAsciiToWire rr.name wire off
  let len := if nameLen = (cstr rr.name).length then nameLen + 1 else nameLen
  let wire := writeAt wire (off + len) (le16 (htons rr.type))
  let len := len + 2
  let wire := writeAt wire (off + len) (le16 (htons rr.cls))
  let len := len + 2
  let wire := writeAt wire (off + len) (le32 (swapEndian32 rr.ttl))
  let len := len + 4
  let wire := writeAt wire (off + len) (le16 (htons rr.rdataLen))
  let len := len + 2
  let wire := writeAt wire (off + len) (rr.rdata.take rr.rdataLen.toNat)
  (wire, len + rr.rdataLen.toNat)

/-- The wire form of a record whose owner is the name `n`. -/
def DnsRr.wire (n : Name) (rr : DnsRr) : Bytes :=
  n.wire ++ be16 rr.type ++ be16 rr.cls ++ be32 rr.ttl ++ be16 rr.rdataLen
    ++ rr.rdata.take rr.rdataLen.toNat

theorem Name.length_wire (n : Name) :
    (n.labels.map (fun l => 1 + l.length)).sum + 1 = n.wire.length :=
  (length_labelsWire_eq n.labels).symm

/-- The encoder writes the wire form of the name whose labels are the tokens it finds, and returns
its length. -/
theorem Server.nameAsciiToWire_of_tokens {name : Bytes} {n : Name}
    (hn : strtokAll (· == dot) (cstr name) = n.labels) (wire : Bytes) (off : Nat) :
    Server.nameAsciiToWire name wire off = (writeAt wire off n.wire, n.wire.length) := by
  rw [Server.nameAsciiToWire, nameToWire, hn]
  refine Prod.ext ?_ ?_
  · rw [nameToWireLoop_fst]
    rfl
  · rw [nameToWireLoop_snd, Nat.zero_add, n.length_wire]

theorem Server.nameAsciiToWire_eq {name : Bytes} {n : Name} (hn : cstr name = n.text) (wire : Bytes)
    (off : Nat) : Server.nameAsciiToWire name wire off = (writeAt wire off n.wire, n.wire.length) :=
  Server.nameAsciiToWire_of_tokens (by rw [hn, Name.text, strtokAll_labelsText n.ok]) wire off

theorem Server.nameAsciiToWire_named {name : Bytes} {n : Name} (hn : cstr name = n.text)
    (built m : Bytes) :
    Server.nameAsciiToWire name (built ++ m.drop built.length) built.length
      = ((built ++ n.wire) ++ m.drop (built ++ n.wire).length, n.wire.length) := by
  rw [Server.nameAsciiToWire_eq hn, writeAt_built]

theorem Name.length_wire_ne_text (n : Name) : n.wire.length ≠ n.text.length := by
  by_cases h : n.labels = []
  · simp [Name.wire, Name.text, h]
  · have := length_labelsWire h
    simp only [Name.wire, Name.text]
    omega

/-- **What `rr_to_wire` writes** for a record whose owner is a name. -/
theorem Server.rrToWire_eq {rr : DnsRr} {n : Name} (hn : cstr rr.name = n.text)
    (hdata : rr.rdataLen.toNat ≤ rr.rdata.length) (wire : Bytes) (off : Nat) :
    Server.rrToWire rr wire off = (writeAt wire off (rr.wire n), (rr.wire n).length) := by
  have hlen : n.wire.length ≠ (cstr rr.name).length := by
    rw [hn]; exact n.length_wire_ne_text
  have htake : (rr.rdata.take rr.rdataLen.toNat).length = rr.rdataLen.toNat := by
    rw [List.length_take]; omega
  have happ : ∀ bs cs : Bytes, off + bs.length + cs.length = off + (bs ++ cs).length :=
      fun bs cs => by
    rw [List.length_append, Nat.add_assoc]
  have h1 := happ n.wire (be16 rr.type)
  have h2 := happ (n.wire ++ be16 rr.type) (be16 rr.cls)
  have h3 := happ (n.wire ++ be16 rr.type ++ be16 rr.cls) (be32 rr.ttl)
  have h4 := happ (n.wire ++ be16 rr.type ++ be16 rr.cls ++ be32 rr.ttl) (be16 rr.rdataLen)
  rw [← h1] at h2
  rw [← h2] at h3
  rw [← h3] at h4
  simp only [length_be16, length_be32] at h1 h2 h3 h4
  simp only [Server.rrToWire, Server.nameAsciiToWire_eq hn, if_neg hlen, le16_htons,
    le32_swapEndian32, ← Nat.add_assoc]
  refine Prod.ext ?_ ?_
  · -- each field goes right behind the one before
    simp only [writeAt_append _ _ _ rfl, writeAt_append _ _ _ h1, writeAt_append _ _ _ h2,
      writeAt_append _ _ _ h3, writeAt_append _ _ _ h4, DnsRr.wire]
  · simp only [DnsRr.wire, List.length_append, length_be16, length_be32, htake]

theorem Server.rrToWire_named {rr : DnsRr} {n : Name} (hn : cstr rr.name = n.text)
    (hdata : rr.rdataLen.toNat ≤ rr.rdata.length) (built m : Bytes) :
    Server.rrToWire rr (built ++ m.drop built.length) built.length
      = ((built ++ rr.wire n) ++ m.drop (built ++ rr.wire n).length, (rr.wire n).length) := by
  rw [Server.rrToWire_eq hn hdata, writeAt_built]

/-! ## Reading a record

One definition for both programs, which differ in the decoder of names they call and in
nothing else. -/

/-- `memcpy(&x, wire + i, 2)`. -/
def read16 (wire : Bytes) (i : Nat) : Option UInt16 := do
  let lo ← wire[i]?
  let hi ← wire[i + 1]?
  return load16 lo hi

/-- `memcpy(&x, wire + i, 4)`. -/
def read32 (wire : Bytes) (i : Nat) : Option UInt32 := do
  let b0 ← wire[i]?
  let b1 ← wire[i + 1]?
  let b2 ← wire[i + 2]?
  let b3 ← wire[i + 3]?
  return b0.toUInt32 ||| (b1.toUInt32 <<< 8) ||| (b2.toUInt32 <<< 16) ||| (b3.toUInt32 <<< 24)

/-- The fields of a record, from its name at `indexp` on, and the new `*indexp`.
`block` is the memory the name is written to and `fixTtl` what the lab does to
the TTL it has copied.  The fields a query does not have stay as the stack had
them; they are zero here and nothing reads them. -/
def readRr (fixTtl : UInt32 → UInt32) (block wire : Bytes) (indexp : Nat) (queryOnly : Bool) :
    Option (DnsRr × Nat) := do
  let (name, indexp) ← nameFromWire block wire indexp
  let type ← read16 wire indexp
  let indexp := indexp + 2
  let cls ← read16 wire indexp
  let indexp := indexp + 2
  let rr : DnsRr :=
    { name := name, type := ntohs type, cls := ntohs cls, ttl := 0, rdataLen := 0, rdata := [] }
  if queryOnly then
    return (rr, indexp)
  let ttl ← read32 wire indexp
  let indexp := indexp + 4
  let rdataLen ← read16 wire indexp
  let indexp := indexp + 2
  let rr := { rr with ttl := fixTtl ttl, rdataLen := ntohs rdataLen, rdata := wire.drop indexp }
  return (rr, indexp + rr.rdataLen.toNat)

/-- Where `rr_from_wire` takes the name of a full record to be: eleven bytes on,
unless the record starts with a compression pointer. -/
def rrNameStart (wire : Bytes) (indexp : Nat) : Nat :=
  if (wire[indexp]?.getD 0).toNat < compressedVal then indexp + 11 else indexp

/-- `rr_from_wire(wire, &indexp, query_only)`: the record and the new `*indexp`. -/
def rrFromWireWith (fixTtl : UInt32 → UInt32) (block wire : Bytes) (indexp : Nat)
    (queryOnly : Bool) : Option (DnsRr × Nat) :=
  if wire[indexp]? = none then none
  else
    let indexp := if !queryOnly then rrNameStart wire indexp else indexp
    readRr fixTtl block wire indexp queryOnly

/-- `name_ascii_from_wire` of the server library: the block is cleared. -/
def Server.nameAsciiFromWire (wire : Bytes) (indexp : Nat) : Option (Bytes × Nat) :=
  nameFromWire (List.replicate bufferMax 0) wire indexp

/-- `rr_from_wire` of the server library. -/
def Server.rrFromWire (wire : Bytes) (indexp : Nat) (queryOnly : Bool) : Option (DnsRr × Nat) :=
  rrFromWireWith swapEndian32 (List.replicate bufferMax 0) wire indexp queryOnly

/-- The cleared block with a text laid over it. -/
def nameBlock (text : Bytes) : Bytes := writeAt (List.replicate bufferMax 0) 0 text

theorem length_nameBlock {text : Bytes} (h : text.length ≤ bufferMax) :
    (nameBlock text).length = bufferMax := by
  have hlen := length_writeAt (List.replicate bufferMax 0) 0 text
  rw [List.length_replicate, Nat.zero_add, Nat.max_eq_left h] at hlen
  exact hlen

theorem cstr_nameBlock_eq (text : Bytes) : cstr (nameBlock text) = cstr text := by
  have : nameBlock text = text ++ List.replicate (bufferMax - text.length) 0 := by
    simp [nameBlock, writeAt]
  rw [this]
  by_cases h : (0 : UInt8) ∈ text
  · exact cstr_append_of_mem h _
  · rw [cstr_append_replicate h, cstr_eq_self h]

theorem cstr_nameBlock {text : Bytes} (h : (0 : UInt8) ∉ text) : cstr (nameBlock text) = text := by
  rw [cstr_nameBlock_eq, cstr_eq_self h]

theorem Server.nameAsciiFromWire_wire (pre post : Bytes) (n : Name) :
    Server.nameAsciiFromWire (pre ++ n.wire ++ post) pre.length
      = some (nameBlock n.text, pre.length + n.wire.length) :=
  nameFromWire_wire _ pre post n

theorem read16_be16 (pre post : Bytes) (x : UInt16) :
    (read16 (pre ++ be16 x ++ post) pre.length).map ntohs = some x := by
  have h0 : (pre ++ be16 x ++ post)[pre.length]? = some (x >>> 8).toUInt8 := by
    simp [be16]
  have h1 : (pre ++ be16 x ++ post)[pre.length + 1]? = some x.toUInt8 := by
    rw [List.append_assoc, List.getElem?_append_right (by omega)]
    simp [be16]
  simp only [read16, h0, h1, Option.bind_eq_bind, Option.bind_some, Option.pure_def,
    Option.map_some, Option.some.injEq]
  apply UInt16.toBitVec_inj.mp
  simp only [ntohs, htons, load16, UInt16.toBitVec_or, UInt16.toBitVec_shiftLeft,
    UInt16.toBitVec_shiftRight, UInt8.toBitVec_toUInt16, UInt16.toBitVec_toUInt8]
  ext i hi
  interval_cases i <;> simp

theorem read16_be16_eq (pre post : Bytes) (x : UInt16) :
    ∃ y, read16 (pre ++ be16 x ++ post) pre.length = some y ∧ ntohs y = x := by
  obtain ⟨y, hy, hx⟩ := Option.map_eq_some_iff.mp (read16_be16 pre post x)
  exact ⟨y, hy, hx⟩

theorem read32_be32 (pre post : Bytes) (x : UInt32) :
    ∃ y, read32 (pre ++ be32 x ++ post) pre.length = some y ∧ swapEndian32 y = x := by
  have hbyte : ∀ i, i < 4 → (pre ++ be32 x ++ post)[pre.length + i]? = (be32 x)[i]? :=
      fun i hi => by
    rw [List.append_assoc, List.getElem?_append_right (Nat.le_add_right _ _),
      Nat.add_sub_cancel_left, List.getElem?_append_left hi]
  have h0 : (pre ++ be32 x ++ post)[pre.length]? = some (x >>> 24).toUInt8 := hbyte 0 (by decide)
  have h1 : (pre ++ be32 x ++ post)[pre.length + 1]? = some (x >>> 16).toUInt8 :=
    hbyte 1 (by decide)
  have h2 : (pre ++ be32 x ++ post)[pre.length + 2]? = some (x >>> 8).toUInt8 := hbyte 2 (by decide)
  have h3 : (pre ++ be32 x ++ post)[pre.length + 3]? = some x.toUInt8 := hbyte 3 (by decide)
  have hread : read32 (pre ++ be32 x ++ post) pre.length
      = some ((x >>> 24).toUInt8.toUInt32 ||| ((x >>> 16).toUInt8.toUInt32 <<< 8)
        ||| ((x >>> 8).toUInt8.toUInt32 <<< 16) ||| (x.toUInt8.toUInt32 <<< 24)) := by
    simp only [read32, h0, h1, h2, h3, Option.bind_eq_bind, Option.bind_some, Option.pure_def]
  refine ⟨_, hread, ?_⟩
  apply UInt32.toBitVec_inj.mp
  simp only [swapEndian32, UInt32.toBitVec_or, UInt32.toBitVec_and, UInt32.toBitVec_shiftLeft,
    UInt32.toBitVec_shiftRight, UInt8.toBitVec_toUInt32, UInt32.toBitVec_toUInt8]
  ext i hi
  interval_cases i <;> simp

theorem bytes_of_read16 {wire : Bytes} {i : Nat} {x : UInt16} (h : read16 wire i = some x) :
    wire[i]? = some (ntohs x >>> 8).toUInt8 ∧ wire[i + 1]? = some (ntohs x).toUInt8 := by
  simp only [read16, Option.bind_eq_bind, Option.bind_eq_some_iff, Option.pure_def,
    Option.some.injEq] at h
  obtain ⟨lo, hlo, hi, hhi, rfl⟩ := h
  rw [hlo, hhi, Option.some.injEq, Option.some.injEq]
  constructor <;>
  · apply UInt8.toBitVec_inj.mp
    simp only [ntohs, htons, load16, UInt16.toBitVec_or, UInt16.toBitVec_shiftLeft,
      UInt16.toBitVec_shiftRight, UInt8.toBitVec_toUInt16, UInt16.toBitVec_toUInt8]
    ext i hi
    interval_cases i <;> simp

/-- A record that is read has its name at its offset, the type, the data's length and the
data at their distances from the name's end, and ends behind its data. -/
theorem readRr_fields_of {fixTtl : UInt32 → UInt32} {block wire : Bytes} {i next : Nat} {rr : DnsRr}
    (h : readRr fixTtl block wire i false = some (rr, next)) :
    ∃ j, nameFromWire block wire i = some (rr.name, j) ∧
      (∃ x, read16 wire j = some x ∧ ntohs x = rr.type) ∧
      (∃ x, read16 wire (j + 8) = some x ∧ ntohs x = rr.rdataLen) ∧
      rr.rdata = wire.drop (j + 10) ∧ next = j + 10 + rr.rdataLen.toNat := by
  simp only [readRr, Option.bind_eq_bind, Option.bind_eq_some_iff, Bool.false_eq_true,
    if_false] at h
  obtain ⟨⟨name, j⟩, hname, t, ht, c, -, u, -, len, hlen, hrr⟩ := h
  obtain ⟨rfl, rfl⟩ := Prod.mk.inj (Option.some.inj hrr)
  exact ⟨j, hname, ⟨t, ht, rfl⟩, ⟨len, hlen, rfl⟩, rfl, rfl⟩

theorem readRr_eq_some {fixTtl : UInt32 → UInt32} {block wire : Bytes} {i next : Nat} {rr : DnsRr}
    (h : readRr fixTtl block wire i false = some (rr, next)) :
    ∃ j, nameFromWire block wire i = some (rr.name, j) ∧ next = j + 10 + rr.rdataLen.toNat := by
  obtain ⟨j, hname, -, -, -, hnext⟩ := readRr_fields_of h
  exact ⟨j, hname, hnext⟩

theorem Name.wire_low (n : Name) : ∃ (b : UInt8) (rest : Bytes), n.wire = b :: rest ∧
    b.toNat < compressedVal := by
  by_cases hn : n.labels = []
  · exact ⟨0, [], by rw [Name.wire, hn, labelsWire_nil], by decide⟩
  · obtain ⟨b, rest, hwire, -, hb⟩ := Name.wire_first hn
    exact ⟨b, rest, hwire, by rw [compressedVal]; omega⟩

/-- A record written out is taken to have its name eleven bytes on. -/
theorem rrNameStart_wire (n : Name) (pre post : Bytes) {rr : DnsRr} :
    rrNameStart (pre ++ rr.wire n ++ post) pre.length = pre.length + 11 := by
  obtain ⟨b, rest, hwire, hlow⟩ := n.wire_low
  have hfirst : (pre ++ rr.wire n ++ post)[pre.length]? = some b := by
    simp [DnsRr.wire, hwire]
  rw [rrNameStart, hfirst, Option.getD_some, if_pos hlow]

/-- **A question reads back.** -/
theorem readRr_question (fixTtl : UInt32 → UInt32) (block pre post : Bytes) (n : Name)
    (type cls : UInt16) :
    readRr fixTtl block (pre ++ (n.wire ++ be16 type ++ be16 cls) ++ post) pre.length true
      = some ({ name := writeAt block 0 n.text, type := type, cls := cls, ttl := 0, rdataLen := 0,
                rdata := [] }, pre.length + (n.wire ++ be16 type ++ be16 cls).length) := by
  have hname := nameFromWire_wire block pre (be16 type ++ be16 cls ++ post) n
  obtain ⟨t, ht, htype⟩ := read16_be16_eq (pre ++ n.wire) (be16 cls ++ post) type
  obtain ⟨c, hc, hcls⟩ := read16_be16_eq (pre ++ n.wire ++ be16 type) post cls
  simp only [List.append_assoc] at hname ht hc
  simp only [List.length_append, length_be16] at ht hc
  simp only [← Nat.add_assoc] at hc
  simp only [readRr, List.append_assoc, hname, ht, hc, htype, hcls, Option.bind_eq_bind,
    Option.bind_some, if_true, Option.pure_def, List.length_append, length_be16]
  simp only [Nat.add_assoc]

/-- **The fields behind a name read back**, wherever the name was read. -/
theorem readRr_fields (fixTtl : UInt32 → UInt32) {block wire head data post name : Bytes} {i : Nat}
    (rr : DnsRr)
    (hwire : wire = head ++ (be16 rr.type ++ be16 rr.cls ++ be32 rr.ttl ++ be16 rr.rdataLen ++ data)
      ++ post)
    (hdata : data.length = rr.rdataLen.toNat)
    (hname : nameFromWire block wire i = some (name, head.length)) :
    ∃ ttl, swapEndian32 ttl = rr.ttl ∧ readRr fixTtl block wire i false
      = some ({ name := name, type := rr.type, cls := rr.cls, ttl := fixTtl ttl,
                rdataLen := rr.rdataLen, rdata := data ++ post },
                    head.length + 10 + data.length) := by
  obtain ⟨t, ht, htype⟩ := read16_be16_eq head
    (be16 rr.cls ++ be32 rr.ttl ++ be16 rr.rdataLen ++ data ++ post) rr.type
  obtain ⟨c, hc, hcls⟩ := read16_be16_eq (head ++ be16 rr.type)
    (be32 rr.ttl ++ be16 rr.rdataLen ++ data ++ post) rr.cls
  obtain ⟨u, hu, httl⟩ := read32_be32 (head ++ be16 rr.type ++ be16 rr.cls)
    (be16 rr.rdataLen ++ data ++ post) rr.ttl
  obtain ⟨k, hk, hlen⟩ := read16_be16_eq
    (head ++ be16 rr.type ++ be16 rr.cls ++ be32 rr.ttl) (data ++ post) rr.rdataLen
  have hdrop : (head ++ be16 rr.type ++ be16 rr.cls ++ be32 rr.ttl ++ be16 rr.rdataLen
      ++ (data ++ post)).drop (head.length + 2 + 2 + 4 + 2) = data ++ post :=
    List.drop_left' (by simp only [List.length_append, length_be16, length_be32])
  simp only [List.append_assoc] at hwire ht hc hu hk hdrop
  simp only [List.length_append, length_be16, length_be32] at ht hc hu hk
  simp only [← Nat.add_assoc, ← hwire] at ht hc hu hk hdrop
  refine ⟨u, httl, ?_⟩
  simp only [readRr, hname, ht, hc, hu, hk, hlen, htype, hcls, hdrop, Option.bind_eq_bind,
    Option.bind_some, Bool.false_eq_true, if_false, Option.pure_def, hdata]

end InternetLabs.Dns
