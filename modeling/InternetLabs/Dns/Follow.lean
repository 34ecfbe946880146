/-
# `InternetLabs.Dns.Follow` — alias chains in compressed answers

A `Response` is a message as servers send them: the owner of each record is a pointer
to a name among the first 256 bytes.  `Lists` says that its records lead from a name
along aliases to an address, the names read as the protocol has them (`WireName`).

The resolver reads them in its own way, a far pointer for one to its offset modulo 256.
That does no harm as long as each owner it reads is the name it was led to (`Agrees`);
and without far pointers it is (`agrees_of_near`).  When no record is an address, all it
takes to end with `NULL` is that the names it comes to can be read (`Readable`), no alias
as the empty name, before which `canonicalize_name` would read.
-/
import InternetLabs.Dns.Rounds
import InternetLabs.Dns.Compression

namespace InternetLabs.Dns.Resolver

open InternetLabs InternetLabs.Dns

/-! ## Messages

Responses as a real server compresses them: every owner is a pointer, and what it points
to may stand anywhere in the message. -/

/-- A record whose owner is a compression pointer to an offset below 256. -/
structure PointerRr where
  owner : UInt8
  type : UInt16
  cls : UInt16
  ttl : UInt32
  rdata : Bytes
  fits : rdata.length < 2 ^ 16

/-- `rdata_len`. -/
def PointerRr.rdataLen (r : PointerRr) : UInt16 := UInt16.ofNat r.rdata.length

def PointerRr.wire (r : PointerRr) : Bytes :=
  [0xC0, r.owner] ++ (be16 r.type ++ be16 r.cls ++ be32 r.ttl ++ be16 r.rdataLen ++ r.rdata)

/-- A message with one question, its records from the first on, and anything else. -/
structure Response where
  msgId : UInt16
  flags : UInt16
  an : UInt16
  ns : UInt16
  ar : UInt16
  name : Name
  qtype : UInt16
  qclass : UInt16
  records : List PointerRr
  rest : Bytes

namespace Response

def question (m : Response) : Bytes := m.name.wire ++ be16 m.qtype ++ be16 m.qclass

def bytes (m : Response) : Bytes :=
  headerBytes m.msgId m.flags 1 m.an m.ns m.ar ++ m.question
    ++ (m.records.flatMap PointerRr.wire ++ m.rest)

def recordsAt (m : Response) : Nat := 12 + m.question.length

/-- The number of records the header announces. -/
def count (m : Response) : Nat := m.an.toNat + m.ns.toNat + m.ar.toNat

end Response

/-- The records from offset `off` on lead from `q` to the four bytes `addr`: each is owned
by the name that the one before led to, and only the last one holds an address. -/
inductive Lists (wire : Bytes) : Name → Nat → List PointerRr → Bytes → Prop
  | address {q : Name} {off k : Nat} {r : PointerRr} : WireName wire r.owner.toNat q.labels k →
      r.type = typeA → r.rdata.length = 4 → Lists wire q off [r] r.rdata
  | other {q : Name} {off k : Nat} {r : PointerRr} {rs : List PointerRr} {addr : Bytes} :
      WireName wire r.owner.toNat q.labels k → r.type ≠ typeA → r.type ≠ cname →
      Lists wire q (off + r.wire.length) rs addr → Lists wire q off (r :: rs) addr
  | aliased {q target : Name} {off k : Nat} {r : PointerRr} {rs : List PointerRr} {addr : Bytes} :
      WireName wire r.owner.toNat q.labels k → r.type = cname →
      WireName wire (off + 12) target.labels r.rdata.length → Canonical target →
      Lists wire target (off + r.wire.length) rs addr → Lists wire q off (r :: rs) addr

/-- The offsets at which the records from `off` on have names. -/
def nameOffsets : Nat → List PointerRr → List Nat
  | _, [] => []
  | off, r :: rs => r.owner.toNat :: (if r.type = cname then [off + 12] else [])
      ++ nameOffsets (off + r.wire.length) rs

/-- The offsets at which aliases lie. -/
def aliasOffsets : Nat → List PointerRr → List Nat
  | _, [] => []
  | off, r :: rs => (if r.type = cname then [off + 12] else [])
      ++ aliasOffsets (off + r.wire.length) rs

/-! ## What the resolver makes of them

With a pointer for an owner the resolver finds the fields of the record where they are.
What is left to go wrong are the names themselves. -/

/-- Each owner, as the decoder reads it, is the name that the records before led to. -/
def Agrees (wire : Bytes) : Bytes → Nat → List PointerRr → Prop
  | _, _, [] => True
  | q, off, r :: rs => ∃ t, ReadAs wire r.owner.toNat t ∧ cstr t = q ∧
      (r.type = cname → ∃ q', AliasAs wire (off + 12) q' ∧
        Agrees wire q' (off + r.wire.length) rs) ∧
      (r.type ≠ cname → Agrees wire q (off + r.wire.length) rs)

/-- The decoder can read the owners, up to the first that is not the name that the records
before led to, and the aliases before it. -/
def Readable (wire : Bytes) : Bytes → Nat → List PointerRr → Prop
  | _, _, [] => True
  | q, off, r :: rs => ∃ t, ReadAs wire r.owner.toNat t ∧ (cstr t = q →
      (r.type = cname → ∃ q', AliasAs wire (off + 12) q' ∧
        Readable wire q' (off + r.wire.length) rs) ∧
      (r.type ≠ cname → Readable wire q (off + r.wire.length) rs))

/-- The variables before the first round. -/
def Response.start (m : Response) (qname : Name) : AnswerScan :=
  { qname := qname.text, offset := m.recordsAt, rrLeft := m.count }

/-- `get_answer_address` comes to `a`, and no name leaves its block on the way. -/
def Response.Answers (m : Response) (qname : Name) (a : Address) : Prop :=
  ∀ stack : Bytes, stack.length = 4 → Resolver.Answers stack qname.text m.bytes a

theorem exists_alias_iff (wire : Bytes) (p : Nat) {P Q : Bytes → Prop}
    (h : ∀ q, P q ↔ Q (cstr q)) : (∃ q, AliasAs wire p q ∧ P q) ↔ ∃ q, AliasAs wire p q ∧ Q q := by
  refine exists_congr fun q => and_congr_right fun halias => ?_
  rw [h, halias.cstr_eq]

/-- What is asked of the text at an offset where a name can be read. -/
theorem exists_readAs_iff {wire t : Bytes} {p k : Nat} (h : NameAt wire p t k)
    {P : Bytes → Prop} : (∃ t, ReadAs wire p t ∧ P t) ↔ FitsBlock t ∧ P t := by
  constructor
  · rintro ⟨t₁, ⟨⟨k₁, hat₁⟩, hfits⟩, hP⟩
    obtain ⟨rfl, -⟩ := h.unique hat₁
    exact ⟨hfits, hP⟩
  · rintro ⟨hfits, hP⟩
    exact ⟨t, ⟨⟨k, h⟩, hfits⟩, hP⟩

theorem PointerRr.toNat_rdataLen (r : PointerRr) : r.rdataLen.toNat = r.rdata.length := by
  rw [PointerRr.rdataLen, UInt16.toNat_ofNat', Nat.mod_eq_of_lt r.fits]

theorem PointerRr.length_wire (r : PointerRr) : r.wire.length = 12 + r.rdata.length := by
  simp only [PointerRr.wire, List.length_append, List.length_cons, List.length_nil, length_be16,
    length_be32]
  omega

section Round
variable {wire pre post : Bytes} {r : PointerRr} (hwire : wire = pre ++ r.wire ++ post)
include hwire

theorem pointerAt_owner : PointerAt wire pre.length r.owner.toNat := by
  refine ⟨0xC0, r.owner, ?_, by decide, ?_, ?_⟩
  · rw [hwire]; simp [PointerRr.wire]
  · rw [hwire, List.append_assoc, List.getElem?_append_right (by omega)]; simp [PointerRr.wire]
  · rw [pointerOffset]; simp [compressedVal]

theorem rrFromWire_owner : rrFromWire wire pre.length false = recordAt wire pre.length := by
  obtain ⟨b, hb, hc⟩ := (pointerAt_owner hwire).first
  rw [rrFromWire_eq, rrNameStart, hb, Option.getD_some, if_neg (Nat.not_lt_of_le hc)]

/-- A record reads as it was laid out, under the name its owner decodes to. -/
theorem rrFromWire_pointer {t : Bytes} {k : Nat} (h : NameAt wire r.owner.toNat t k) :
    ∃ rr, rrFromWire wire pre.length false = some (rr, pre.length + r.wire.length) ∧
      rr.name = nameBlock t ∧ rr.type = r.type ∧ rr.rdataLen.toNat = r.rdata.length ∧
      rr.rdata = r.rdata ++ post := by
  have hptr := pointerAt_owner hwire
  have hname : nameFromWire (List.replicate bufferMax 0) wire pre.length
      = some (nameBlock t, (pre ++ [0xC0, r.owner]).length) := by
    refine nameFromWire_iff.mpr ⟨t, 2, (nameAt_pointer_iff hptr).mpr ⟨⟨k, ?_⟩, rfl⟩, ?_⟩
    · rwa [Nat.mod_eq_of_lt r.owner.toNat_lt]
    · rw [List.length_append]; rfl
  have hlayout : wire = pre ++ [0xC0, r.owner] ++ (be16 r.type ++ be16 r.cls ++ be32 r.ttl
      ++ be16 r.rdataLen ++ r.rdata) ++ post := by
    rw [hwire, PointerRr.wire]
    simp only [List.append_assoc]
  have hnext : (pre ++ [0xC0, r.owner]).length + 10 + r.rdata.length
      = pre.length + r.wire.length := by
    rw [r.length_wire, List.length_append, List.length_cons, List.length_singleton]
    omega
  obtain ⟨ttl, -, hread⟩ := readRr_fields id ⟨[], r.type, r.cls, r.ttl, r.rdataLen, r.rdata⟩ hlayout
    r.toNat_rdataLen.symm hname
  rw [hnext] at hread
  rw [rrFromWire_owner hwire, recordAt, hread]
  exact ⟨_, rfl, rfl, rfl, r.toNat_rdataLen, rfl⟩

theorem rrFromWire_unreadable (h : ∀ t k, ¬ NameAt wire r.owner.toNat t k) :
    rrFromWire wire pre.length false = none := by
  rw [rrFromWire_owner hwire]
  cases hrec : recordAt wire pre.length with
  | none => rfl
  | some p =>
      obtain ⟨j, hname, -⟩ := readRr_eq_some hrec
      obtain ⟨t, k, hat, -⟩ := nameFromWire_iff.mp hname
      obtain ⟨⟨k', hto⟩, -⟩ := (nameAt_pointer_iff (pointerAt_owner hwire)).mp hat
      rw [Nat.mod_eq_of_lt r.owner.toNat_lt] at hto
      exact (h t k' hto).elim

section Body
variable {stack : Bytes} {s : AnswerScan} {m : Nat} (hs : s.offset = pre.length)
  (hleft : s.rrLeft = m + 1)
include hs hleft

/-- **A record that is no address**: the loop stops there, or goes on behind it with the
name it led to. -/
theorem runs_record_iff (hA : r.type ≠ typeA) {a : Address} :
    Runs stack wire s a ↔ ∃ t, ReadAs wire r.owner.toNat t ∧
      (cstr t ≠ cstr s.qname → a = .null) ∧ (cstr t = cstr s.qname →
        (r.type = cname → ∃ q', AliasAs wire (pre.length + 12) q' ∧
          Runs stack wire ⟨q', pre.length + r.wire.length, m⟩ a) ∧
        (r.type ≠ cname → Runs stack wire ⟨s.qname, pre.length + r.wire.length, m⟩ a)) := by
  by_cases hread : ∃ t k, NameAt wire r.owner.toNat t k
  · obtain ⟨t, k, hat⟩ := hread
    obtain ⟨rr, hrr, hname, htype, hlen, -⟩ := rrFromWire_pointer hwire hat
    have hdata : pre.length + r.wire.length - rr.rdataLen.toNat = pre.length + 12 := by
      rw [r.length_wire, hlen]
      omega
    have htext : cstr rr.name = cstr t := by rw [hname, cstr_nameBlock_eq]
    have hblock : InBlock rr.name ↔ FitsBlock t := by rw [hname, inBlock_nameBlock_iff]
    rw [← hs] at hrr
    rw [exists_readAs_iff hat, ← htext, ← hblock, ← htype]
    rw [← htype] at hA
    by_cases hq : cstr rr.name = cstr s.qname
    · by_cases hC : rr.type = cname
      · rw [runs_follow_iff hleft hrr hq hC, hs, hdata]
        simp [hq, hC]
      · rw [runs_pass_iff hleft hrr hq hA hC, hs]
        simp [hq, hC]
    · rw [runs_strange_iff hleft hrr hq]
      simp [hq]
  · simp only [not_exists] at hread
    have hnone := rrFromWire_unreadable hwire hread
    rw [← hs] at hnone
    refine iff_of_false (not_runs_unread hleft hnone) ?_
    rintro ⟨t, ⟨⟨k, hat⟩, -⟩, -⟩
    exact hread t k hat

/-- **An address record**: it is taken if it is about the name in question. -/
theorem runs_pointer_address_iff (hA : r.type = typeA) (h4 : r.rdata.length = 4)
    (hstack : stack.length = 4) :
    Runs stack wire s (.found r.rdata) ↔
      ∃ t, ReadAs wire r.owner.toNat t ∧ cstr t = cstr s.qname := by
  by_cases hread : ∃ t k, NameAt wire r.owner.toNat t k
  · obtain ⟨t, k, hat⟩ := hread
    obtain ⟨rr, hrr, hname, htype, hlen, hdata⟩ := rrFromWire_pointer hwire hat
    have htext : cstr rr.name = cstr t := by rw [hname, cstr_nameBlock_eq]
    have hblock : InBlock rr.name ↔ FitsBlock t := by rw [hname, inBlock_nameBlock_iff]
    rw [← hs] at hrr
    rw [exists_readAs_iff hat, ← htext, ← hblock]
    by_cases hq : cstr rr.name = cstr s.qname
    · have hcopy : Copied stack rr r.rdata := by
        refine ⟨by omega, by rw [hdata, List.length_append]; omega, ?_⟩
        rw [hlen, hdata, List.take_left, writeAt_zero, h4, ← hstack, List.drop_length,
          List.append_nil]
      rw [runs_address_iff hleft hrr hq (htype.trans hA)]
      exact and_congr_right fun _ => iff_of_true hcopy hq
    · rw [runs_strange_iff hleft hrr hq]
      exact and_congr_right fun _ => iff_of_false nofun hq
  · simp only [not_exists] at hread
    have hnone := rrFromWire_unreadable hwire hread
    rw [← hs] at hnone
    refine iff_of_false (not_runs_unread hleft hnone) ?_
    rintro ⟨t, ⟨⟨k, hat⟩, -⟩, -⟩
    exact hread t k hat

end Body

end Round

/-! ## Whole messages

By induction on the records: one record more in front, and the loop goes on behind it. -/

section Run
variable {stack wire pre post : Bytes} {r : PointerRr} {rs : List PointerRr} {s : AnswerScan}
  {m off : Nat}

theorem flatMap_wire_cons (hwire : wire = pre ++ (r :: rs).flatMap PointerRr.wire ++ post) :
    wire = pre ++ r.wire ++ (rs.flatMap PointerRr.wire ++ post) ∧
      wire = (pre ++ r.wire) ++ rs.flatMap PointerRr.wire ++ post := by
  rw [hwire, List.flatMap_cons]
  exact ⟨by simp only [List.append_assoc], by simp only [List.append_assoc]⟩

/-- One record more in front of records that are read for an address. -/
theorem runs_found_cons (hwire : wire = pre ++ (r :: rs).flatMap PointerRr.wire ++ post)
    (hs : s.offset = pre.length) (hleft : s.rrLeft = m + 1) (hA : r.type ≠ typeA) {addr : Bytes}
    (ih : ∀ q, Runs stack wire ⟨q, pre.length + r.wire.length, m⟩ (.found addr)
      ↔ Agrees wire (cstr q) (pre.length + r.wire.length) rs) :
    Runs stack wire s (.found addr) ↔ Agrees wire (cstr s.qname) pre.length (r :: rs) := by
  have halias := exists_alias_iff wire (pre.length + 12)
    (Q := fun q => Agrees wire q (pre.length + r.wire.length) rs) ih
  rw [runs_record_iff (flatMap_wire_cons hwire).1 hs hleft hA]
  simp only [halias]
  simp only [ih, Agrees]
  refine exists_congr fun t => and_congr_right fun _ => ?_
  constructor
  · rintro ⟨hnull, hgo⟩
    have hq : cstr t = cstr s.qname := by
      by_contra hq
      cases hnull hq
    exact ⟨hq, hgo hq⟩
  · rintro ⟨hq, hgo⟩
    exact ⟨fun hne => (hne hq).elim, fun _ => hgo⟩

theorem runs_null_cons (hwire : wire = pre ++ (r :: rs).flatMap PointerRr.wire ++ post)
    (hs : s.offset = pre.length) (hleft : s.rrLeft = m + 1) (hA : r.type ≠ typeA)
    (ih : ∀ q, Runs stack wire ⟨q, pre.length + r.wire.length, m⟩ .null
      ↔ Readable wire (cstr q) (pre.length + r.wire.length) rs) :
    Runs stack wire s .null ↔ Readable wire (cstr s.qname) pre.length (r :: rs) := by
  have halias := exists_alias_iff wire (pre.length + 12)
    (Q := fun q => Readable wire q (pre.length + r.wire.length) rs) ih
  rw [runs_record_iff (flatMap_wire_cons hwire).1 hs hleft hA]
  simp only [halias]
  simp only [ih, Readable, implies_true, true_and]

/-- **The loop over records that lead to an address** finds it if the names agree. -/
theorem runs_found_iff {q : Name} {addr : Bytes} (h : Lists wire q off rs addr)
    (hstack : stack.length = 4) (hwire : wire = pre ++ rs.flatMap PointerRr.wire ++ post)
    (hoff : off = pre.length) (hs : s.offset = pre.length) (hleft : rs.length ≤ s.rrLeft) :
    Runs stack wire s (.found addr) ↔ Agrees wire (cstr s.qname) pre.length rs := by
  induction h generalizing pre s with
  | @address q off k r hname hA h4 =>
      obtain ⟨m, hm⟩ := Nat.exists_eq_succ_of_ne_zero (Nat.ne_of_gt hleft)
      have hC : r.type ≠ cname := fun hC => absurd (hA.symm.trans hC) (by decide)
      rw [runs_pointer_address_iff (flatMap_wire_cons hwire).1 hs hm hA h4 hstack]
      simp [Agrees, hC]
  | @other q off k r rs addr hname hA hC hrest ih =>
      obtain ⟨m, hm⟩ := Nat.exists_eq_succ_of_ne_zero (Nat.ne_of_gt (Nat.zero_lt_of_lt hleft))
      have hlen : off + r.wire.length = (pre ++ r.wire).length := by rw [hoff, List.length_append]
      refine runs_found_cons hwire hs hm hA fun q' => ?_
      rw [← List.length_append]
      exact ih (flatMap_wire_cons hwire).2 hlen rfl (by simp at hleft ⊢; omega)
  | @aliased q target off k r rs addr hname hC htarget hcanon hrest ih =>
      obtain ⟨m, hm⟩ := Nat.exists_eq_succ_of_ne_zero (Nat.ne_of_gt (Nat.zero_lt_of_lt hleft))
      have hlen : off + r.wire.length = (pre ++ r.wire).length := by rw [hoff, List.length_append]
      have hA : r.type ≠ typeA := fun hA => absurd (hC.symm.trans hA) (by decide)
      refine runs_found_cons hwire hs hm hA fun q' => ?_
      rw [← List.length_append]
      exact ih (flatMap_wire_cons hwire).2 hlen rfl (by simp at hleft ⊢; omega)

/-- **The loop over records without an address** ends with `NULL` if the names can be read. -/
theorem runs_null_iff (hA : ∀ r ∈ rs, r.type ≠ typeA)
    (hwire : wire = pre ++ rs.flatMap PointerRr.wire ++ post) (hs : s.offset = pre.length)
    (hleft : s.rrLeft = rs.length) :
    Runs stack wire s .null ↔ Readable wire (cstr s.qname) pre.length rs := by
  induction rs generalizing pre s with
  | nil =>
      have hbody : answerBody stack typeA wire s = .ret .null := by
        simp only [answerBody, hleft, List.length_nil, if_true]
      rw [Runs, Loop.returnsWith_ret_iff hbody]
      exact iff_of_true ⟨fun hne => (hne hleft).elim, rfl⟩ trivial
  | cons r rs ih =>
      refine runs_null_cons hwire hs hleft (hA r List.mem_cons_self) fun q => ?_
      rw [← List.length_append]
      exact ih (fun x hx => hA x (List.mem_cons_of_mem _ hx)) (flatMap_wire_cons hwire).2 rfl rfl

/-- No far pointer in the name at `p`, and a text that its block holds. -/
def Near (wire : Bytes) (p : Nat) : Prop :=
  (∀ head far, ¬ FarAt wire p head far) ∧
    ∀ ls k, WireName wire p ls k → (labelsText ls).length < bufferMax

theorem readAs_of_near {p k : Nat} {ls : List Bytes} (h : WireName wire p ls k)
    (hnear : Near wire p) : ReadAs wire p (labelsText ls) := by
  have hlen := hnear.2 ls k h
  exact ⟨⟨k, h.nameAt hnear.1⟩, Nat.le_of_lt hlen, Nat.lt_of_le_of_lt (length_cstr_le _) hlen⟩

/-- **Without far pointers the names agree.** -/
theorem agrees_of_near {q : Name} {addr : Bytes} (h : Lists wire q off rs addr)
    (hnear : ∀ p ∈ nameOffsets off rs, Near wire p) : Agrees wire q.text off rs := by
  induction h with
  | @address q off k r hname hA h4 =>
      have hC : r.type ≠ cname := fun hC => absurd (hA.symm.trans hC) (by decide)
      have hread := readAs_of_near hname (hnear _ List.mem_cons_self)
      exact ⟨q.text, hread, q.cstr_text, fun h => (hC h).elim, fun _ => trivial⟩
  | @other q off k r rs addr hname hA hC hrest ih =>
      have hread := readAs_of_near hname (hnear _ List.mem_cons_self)
      refine ⟨q.text, hread, q.cstr_text, fun h => (hC h).elim, fun _ => ih fun p hp => hnear p ?_⟩
      exact List.mem_append_right _ hp
  | @aliased q target off k r rs addr hname hC htarget hcanon hrest ih =>
      have hread := readAs_of_near hname (hnear _ List.mem_cons_self)
      have hto := readAs_of_near htarget (hnear _ (List.mem_append_left _ (by simp [hC])))
      have halias : AliasAs wire (off + 12) target.text :=
        ⟨target.text, hto, target.cstr_text.symm ▸ hcanon.text⟩
      refine ⟨q.text, hread, q.cstr_text, fun _ => ⟨target.text, halias, ?_⟩, fun h => (h hC).elim⟩
      exact ih fun p hp => hnear p (List.mem_append_right _ hp)

theorem near_of_wireName {p k : Nat} {ls : List Bytes} (h : WireName wire p ls k)
    (hfar : ∀ head far, ¬ FarAt wire p head far) (hlen : (labelsText ls).length < bufferMax) :
    Near wire p := by
  refine ⟨hfar, fun ls' k' h' => ?_⟩
  obtain ⟨htext, -⟩ := (h.nameAt hfar).unique (h'.nameAt hfar)
  rwa [← htext]

/-- What is read at `p` is a name, but not the empty one. -/
def Names (wire : Bytes) (p : Nat) : Prop :=
  ∃ ls k, WireName wire p ls k ∧ cstr (labelsText ls) ≠ []

/-- Nor does anything keep them from being read, if each alias names something. -/
theorem readable_of_near (hnear : ∀ p ∈ nameOffsets off rs, (∃ ls k, WireName wire p ls k) ∧
    Near wire p)
    (halias : ∀ p ∈ aliasOffsets off rs, Names wire p) (q : Bytes) : Readable wire q off rs := by
  induction rs generalizing off q with
  | nil => trivial
  | cons r rs ih =>
      obtain ⟨⟨ls, k, hname⟩, howner⟩ := hnear _ List.mem_cons_self
      have hrest := fun q' => @ih (off + r.wire.length)
        (fun p hp => hnear p (List.mem_append_right _ hp))
        (fun p hp => halias p (List.mem_append_right _ hp)) q'
      refine ⟨labelsText ls, readAs_of_near hname howner, fun _ => ⟨fun hC => ?_, fun _ => hrest q⟩⟩
      obtain ⟨-, htarget⟩ := hnear (off + 12) (List.mem_append_left _ (by simp [hC]))
      obtain ⟨ls', k', hto, hne⟩ := halias (off + 12) (List.mem_append_left _ (by simp [hC]))
      exact ⟨_, ⟨labelsText ls', readAs_of_near hto htarget, canonicalizeName_iff.mpr ⟨hne, rfl⟩⟩,
        hrest _⟩

end Run

namespace Response
variable {m : Response} {q : Name} {a : Address}

theorem bytes_split : m.bytes = (headerBytes m.msgId m.flags 1 m.an m.ns m.ar ++ m.question)
    ++ m.records.flatMap PointerRr.wire ++ m.rest := by
  rw [bytes]
  simp only [List.append_assoc]

theorem recordsAt_eq :
    m.recordsAt = (headerBytes m.msgId m.flags 1 m.an m.ns m.ar ++ m.question).length := by
  rw [List.length_append]
  rfl

theorem scanStart_bytes : scanStart q.text m.bytes = some (m.start q) :=
  scanStart_header m.msgId m.flags 1 m.an m.ns m.ar m.name m.qtype m.qclass rfl

theorem answers_iff : m.Answers q a ↔
    ∀ stack : Bytes, stack.length = 4 → Runs stack m.bytes (m.start q) a :=
  forall₂_congr fun _ _ => answers_iff_runs scanStart_bytes

theorem answers_found_iff {addr : Bytes} (h : Lists m.bytes q m.recordsAt m.records addr)
    (hcount : m.records.length ≤ m.an.toNat) :
    m.Answers q (.found addr) ↔ Agrees m.bytes q.text m.recordsAt m.records := by
  have hleft : m.records.length ≤ (m.start q).rrLeft := by
    simp only [start, count]
    omega
  have hrun := fun (stack : Bytes) hstack =>
    @runs_found_iff stack m.bytes _ _ _ (m.start q) _ q addr h
      hstack bytes_split recordsAt_eq recordsAt_eq hleft
  rw [← recordsAt_eq, show cstr (m.start q).qname = q.text from q.cstr_text] at hrun
  rw [answers_iff]
  exact ⟨fun hall => (hrun [0, 0, 0, 0] rfl).mp (hall _ rfl), fun hag stack hstack =>
    (hrun stack hstack).mpr hag⟩

theorem answers_null_iff (hA : ∀ r ∈ m.records, r.type ≠ typeA)
    (hcount : m.records.length = m.count) :
    m.Answers q .null ↔ Readable m.bytes q.text m.recordsAt m.records := by
  have hrun := fun (stack : Bytes) => @runs_null_iff stack m.bytes _ _ _ (m.start q) hA
    bytes_split recordsAt_eq hcount.symm
  rw [← recordsAt_eq, show cstr (m.start q).qname = q.text from q.cstr_text] at hrun
  rw [answers_iff]
  exact ⟨fun hall => (hrun [0, 0, 0, 0]).mp (hall _ rfl),
    fun hread stack _ => (hrun stack).mpr hread⟩

end Response

/-- **Following aliases in compressed answers.**  A message whose records lead from `q` to
an address makes the resolver return it exactly if each owner, as the resolver reads it, is
the name it was led to; a message without an address makes it return `NULL` exactly if the
names it comes to can be read.  Without far pointers both are so, in the second case if
no alias is the empty name. -/
theorem getAnswerAddress_follows_iff (m : Response) (q : Name) :
    (∀ addr, Lists m.bytes q m.recordsAt m.records addr → m.records.length ≤ m.an.toNat →
      (m.Answers q (.found addr) ↔ Agrees m.bytes q.text m.recordsAt m.records) ∧
      ((∀ p ∈ nameOffsets m.recordsAt m.records, Near m.bytes p) → m.Answers q (.found addr))) ∧
    ((∀ r ∈ m.records, r.type ≠ typeA) → m.records.length = m.count →
      (m.Answers q .null ↔ Readable m.bytes q.text m.recordsAt m.records) ∧
      ((∀ p ∈ nameOffsets m.recordsAt m.records,
        (∃ ls k, WireName m.bytes p ls k) ∧ Near m.bytes p) →
        (∀ p ∈ aliasOffsets m.recordsAt m.records, Names m.bytes p) → m.Answers q .null)) := by
  refine ⟨fun addr h hcount => ?_, fun hA hcount => ?_⟩
  · have hiff := Response.answers_found_iff h hcount
    exact ⟨hiff, fun hnear => hiff.mpr (agrees_of_near h hnear)⟩
  · have hiff := @Response.answers_null_iff m q hA hcount
    exact ⟨hiff, fun hnear halias => hiff.mpr (readable_of_near hnear halias _)⟩

/-! ### A far alias -/

/-- The names `a` and `b`. -/
def nameA : Name := ⟨[[97]], by decide⟩

def nameB : Name := ⟨[[98]], by decide⟩

/-- A record of another type, with `b` at the start of its data and, from the message's
offset 268 on, once more at the end. -/
def textRr : PointerRr :=
  { owner := 12, type := 16, cls := 1, ttl := 30,
    rdata := nameB.wire ++ List.replicate 234 0 ++ nameB.wire, fits := by decide +kernel }

/-- `a` is an alias of what the pointer `hi lo` leads to. -/
def aliasRr (hi lo : UInt8) : PointerRr :=
  { owner := 12, type := cname, cls := 1, ttl := 30, rdata := [hi, lo],
    fits := by simp only [List.length_cons, List.length_nil]; omega }

/-- The address of `b`. -/
def addressRr : PointerRr :=
  { owner := 31, type := typeA, cls := 1, ttl := 30, rdata := [192, 0, 2, 1], fits := by decide }

/-- The question for `a` answered with its alias `b`, told by the pointer `hi lo`. -/
def aliasResponse (hi lo : UInt8) : Response :=
  { msgId := 1, flags := 0x8180, an := 3, ns := 0, ar := 0, name := nameA, qtype := typeA,
    qclass := 1, records := [textRr, aliasRr hi lo, addressRr], rest := [] }

section Alias
variable {hi lo : UInt8}

theorem lists_aliasResponse (ha : WireName (aliasResponse hi lo).bytes 12 nameA.labels 3)
    (hto : WireName (aliasResponse hi lo).bytes 283 nameB.labels 2)
    (hb : WireName (aliasResponse hi lo).bytes 31 nameB.labels 3) :
    Lists (aliasResponse hi lo).bytes nameA (aliasResponse hi lo).recordsAt
      (aliasResponse hi lo).records [192, 0, 2, 1] := by
  have hrecords : (aliasResponse hi lo).recordsAt = 19 := rfl
  have htarget : (aliasResponse hi lo).recordsAt + textRr.wire.length + 12 = 283 := by
    rw [hrecords, textRr.length_wire]
    decide +kernel
  rw [← htarget] at hto
  exact .other ha (by decide) (by decide)
    (.aliased ha rfl hto ⟨by decide, by decide⟩ (.address hb rfl rfl))

theorem wireName_single {wire l : Bytes} {p : Nat} (h : LabelAt wire p l)
    (hend : wire[p + 1 + l.length]? = some 0) : WireName wire p [l] (1 + l.length + 1) :=
  .label h (.stop hend)

theorem not_farAt_single {wire l : Bytes} {p : Nat} (h : LabelAt wire p l)
    (hend : wire[p + 1 + l.length]? = some 0) (head : List Bytes) (far : Nat) :
    ¬ FarAt wire p head far := by
  intro hfar
  cases hfar with
  | here hp _ => exact h.not_pointerAt hp
  | label hl hrest =>
      obtain rfl := h.unique hl
      obtain ⟨b, hb, hne⟩ := hrest.first
      rw [hend] at hb
      obtain rfl := Option.some.inj hb
      exact hne rfl
  | pointer hp _ _ => exact h.not_pointerAt hp

theorem not_farAt_pointer {wire : Bytes} {p near : Nat} (hp : PointerAt wire p near)
    (hnear : near < 256) (hrest : ∀ head far, ¬ FarAt wire near head far) (head : List Bytes)
    (far : Nat) : ¬ FarAt wire p head far := by
  intro hfar
  cases hfar with
  | here hp' hle =>
      obtain rfl := hp.unique hp'
      exact Nat.not_lt_of_le hle hnear
  | label hl _ => exact hl.not_pointerAt hp
  | pointer hp' _ hfar =>
      obtain rfl := hp.unique hp'
      exact hrest _ _ hfar

end Alias

/-- The pointer to offset 268 is taken for one to offset 12, and so the alias for `a`. -/
theorem farAlias_lost :
    (aliasResponse 0xC1 0x0C).bytes.length ≤ bufferMax ∧ Canonical nameA ∧
      Lists (aliasResponse 0xC1 0x0C).bytes nameA (aliasResponse 0xC1 0x0C).recordsAt
        (aliasResponse 0xC1 0x0C).records [192, 0, 2, 1] ∧
      getAnswerAddress [0, 0, 0, 0] nameA.text typeA (aliasResponse 0xC1 0x0C).bytes = some .null ∧
      ¬ (aliasResponse 0xC1 0x0C).Answers nameA (.found [192, 0, 2, 1]) := by
  have hnull : getAnswerAddress [0, 0, 0, 0] nameA.text typeA (aliasResponse 0xC1 0x0C).bytes
      = some .null := by decide +kernel
  have ha : LabelAt (aliasResponse 0xC1 0x0C).bytes 12 [97] :=
    ⟨by decide, by decide, by decide, by decide⟩
  have hb : LabelAt (aliasResponse 0xC1 0x0C).bytes 31 [98] :=
    ⟨by decide, by decide, by decide, by decide⟩
  have hfar : LabelAt (aliasResponse 0xC1 0x0C).bytes 268 [98] :=
    ⟨by decide, by decide, by decide, by decide⟩
  have hptr : PointerAt (aliasResponse 0xC1 0x0C).bytes 283 268 :=
    ⟨0xC1, 0x0C, by decide, by decide, by decide, by decide⟩
  refine ⟨by decide +kernel, ⟨by decide, by decide⟩, lists_aliasResponse ?_ ?_ ?_,
    hnull, fun h => ?_⟩
  · exact wireName_single ha (by decide)
  · exact .pointer hptr (by decide) (wireName_single hfar (by decide))
  · exact wireName_single hb (by decide)
  · rw [(h [0, 0, 0, 0] rfl).1] at hnull
    cases hnull

/-- With a near pointer to the same name it is followed. -/
theorem nearAlias_followed : (aliasResponse 0xC0 31).Answers nameA (.found [192, 0, 2, 1]) := by
  have ha : LabelAt (aliasResponse 0xC0 31).bytes 12 [97] :=
    ⟨by decide, by decide, by decide, by decide⟩
  have hb : LabelAt (aliasResponse 0xC0 31).bytes 31 [98] :=
    ⟨by decide, by decide, by decide, by decide⟩
  have hptr : PointerAt (aliasResponse 0xC0 31).bytes 283 31 :=
    ⟨0xC0, 31, by decide, by decide, by decide, by decide⟩
  have haend : (aliasResponse 0xC0 31).bytes[12 + 1 + [97].length]? = some 0 := by decide
  have hbend : (aliasResponse 0xC0 31).bytes[31 + 1 + [98].length]? = some 0 := by decide
  have hname := wireName_single ha haend
  have hname' := wireName_single hb hbend
  have hto := WireName.pointer hptr (List.cons_ne_nil _ _) hname'
  refine ((getAnswerAddress_follows_iff (aliasResponse 0xC0 31) nameA).1 _
    (lists_aliasResponse hname hto hname') (by decide)).2 fun p hp => ?_
  have hoffsets : nameOffsets (aliasResponse 0xC0 31).recordsAt (aliasResponse 0xC0 31).records
      = [12, 12, 283, 31] := by decide +kernel
  rw [hoffsets] at hp
  have hnear := near_of_wireName hname (not_farAt_single ha haend) (by decide)
  have hnear' := near_of_wireName hname' (not_farAt_single hb hbend) (by decide)
  have hto' := near_of_wireName hto
    (not_farAt_pointer hptr (by decide) (not_farAt_single hb hbend)) (by decide)
  rcases List.mem_cons.mp hp with rfl | hp
  · exact hnear
  rcases List.mem_cons.mp hp with rfl | hp
  · exact hnear
  rcases List.mem_cons.mp hp with rfl | hp
  · exact hto'
  · rw [List.mem_singleton.mp hp]
    exact hnear'

end InternetLabs.Dns.Resolver
