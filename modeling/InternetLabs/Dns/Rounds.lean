/-
# `InternetLabs.Dns.Rounds` — the rounds of `get_answer_address`

Each round of the loop reads one record and goes on behind it, with the alias's target
if the record is an alias; the names are decoded into blocks of `MAX_BUFFER_SIZE` bytes.
`Runs` says that the loop comes to a result and no name leaves its block on the way.

There is one lemma for each kind of record, which says what it takes to come to a result
from there on; what is proved about whole messages follows by induction on their records.
-/
import InternetLabs.Dns.Resolver

namespace InternetLabs.Dns.Resolver

open InternetLabs InternetLabs.Dns

/-! ## Canonical names

Names are compared as `canonicalize_name` leaves them; of an empty name there is no last
byte to look at. -/

theorem zero_notMem_canonicalForm {name : Bytes} (h : (0 : UInt8) ∉ name) :
    (0 : UInt8) ∉ canonicalForm name := by
  unfold canonicalForm
  split
  · exact h
  · have hdrop : (0 : UInt8) ∉ if name.getLast? = some dot then name.dropLast else name := by
      split
      · exact fun h0 => h (List.dropLast_subset name h0)
      · exact h
    intro h0
    obtain ⟨c, hc, hzero⟩ := List.mem_map.mp h0
    split at hzero
    · next hupper =>
      have hsum : (c + 32).toNat = c.toNat + 32 := by
        rw [UInt8.toNat_add]
        exact Nat.mod_eq_of_lt (by simp; omega)
      rw [hzero] at hsum
      exact absurd hsum (by simp)
    · exact hdrop (hzero ▸ hc)

theorem canonicalizeName_iff {name q : Bytes} :
    canonicalizeName name = some q ↔ name ≠ [] ∧ q = canonicalForm name := by
  rw [canonicalizeName]
  split
  · next h => exact iff_of_false nofun fun hq => hq.1 h
  · next h => rw [Option.some.injEq, and_iff_right h, eq_comm]

theorem cstr_of_canonicalizeName {name q : Bytes} (h : canonicalizeName (cstr name) = some q) :
    cstr q = q := by
  rw [(canonicalizeName_iff.mp h).2]
  exact cstr_eq_self (zero_notMem_canonicalForm (zero_notMem_cstr name))

/-- The name is as `canonicalize_name` leaves it, and not the root. -/
structure Canonical (n : Name) : Prop where
  labels : n.labels ≠ []
  text : canonicalizeName n.text = some n.text

/-! ## Names and their blocks

What a name that is read can be, with the block that holds it: the text may fill it, and
then the string runs on behind. -/

/-- A string in a block of `MAX_BUFFER_SIZE` bytes that it has not left. -/
def InBlock (block : Bytes) : Prop := block.length = bufferMax ∧ (0 : UInt8) ∈ block

/-- A cleared block holds the text, and a zero byte behind the string it is. -/
def FitsBlock (t : Bytes) : Prop := t.length ≤ bufferMax ∧ (cstr t).length < bufferMax

/-- The decoder reads the text `t` at `p`, and its block holds it. -/
def ReadAs (wire : Bytes) (p : Nat) (t : Bytes) : Prop := (∃ k, NameAt wire p t k) ∧ FitsBlock t

/-- The decoder reads an alias at `p`, which `canonicalize_name` turns into `q`. -/
def AliasAs (wire : Bytes) (p : Nat) (q : Bytes) : Prop :=
  ∃ t, ReadAs wire p t ∧ canonicalizeName (cstr t) = some q

theorem AliasAs.cstr_eq {wire q : Bytes} {p : Nat} (h : AliasAs wire p q) : cstr q = q := by
  obtain ⟨t, -, hcanon⟩ := h
  exact cstr_of_canonicalizeName hcanon

theorem inBlock_nameBlock_iff {t : Bytes} : InBlock (nameBlock t) ↔ FitsBlock t := by
  have hlen : (nameBlock t).length = max bufferMax t.length := by
    rw [nameBlock, length_writeAt, List.length_replicate, Nat.zero_add]
  rw [InBlock, FitsBlock, ← length_cstr_lt_iff, cstr_nameBlock_eq, hlen]
  omega

theorem nameAsciiFromWire_iff {wire target : Bytes} {p i : Nat} :
    nameAsciiFromWire wire p = some (target, i) ↔
      ∃ t k, NameAt wire p t k ∧ target = nameBlock t ∧ i = p + k := by
  rw [nameAsciiFromWire, nameFromWire_iff]
  simp only [Prod.mk.injEq]
  rfl

/-- The names decoded in a round stay in their blocks. -/
def NamesFit (wire : Bytes) (s : AnswerScan) : Prop :=
  s.rrLeft ≠ 0 → ∀ rr next, rrFromWire wire s.offset false = some (rr, next) →
    InBlock rr.name ∧ (cstr rr.name = cstr s.qname → rr.type = cname → ∀ target i,
      nameAsciiFromWire wire (next - rr.rdataLen.toNat) = some (target, i) → InBlock target)

/-! ## One round

A round reads a record whatever it is, and looks at its name, its type and its data in
this order. -/

/-- The record whose name is read at `p`. -/
def recordAt (wire : Bytes) (p : Nat) : Option (DnsRr × Nat) :=
  readRr id (List.replicate bufferMax 0) wire p false

theorem rrFromWire_eq (wire : Bytes) (off : Nat) :
    rrFromWire wire off false = recordAt wire (rrNameStart wire off) := by
  rw [rrFromWire, rrFromWireWith]
  split
  · next hnone =>
    -- off the end, and eleven bytes on even more so
    have hle : wire.length ≤ off := List.getElem?_eq_none_iff.mp hnone
    have hstart : off ≤ rrNameStart wire off := by
      unfold rrNameStart
      split <;> omega
    have hfar : wire[rrNameStart wire off]? = none := List.getElem?_eq_none_iff.mpr (by omega)
    simp only [recordAt, readRr, nameFromWire, hfar, Option.bind_eq_bind, Option.bind_none]
  · rfl

/-- The loop comes to `a` from `s`, and no name leaves its block on the way. -/
def Runs (stack wire : Bytes) (s : AnswerScan) (a : Address) : Prop :=
  Loop.ReturnsWith (answerBody stack typeA wire) (NamesFit wire) s a

/-- The data of `rr` fits into the four bytes of `addr`, which then hold `a`. -/
structure Copied (stack : Bytes) (rr : DnsRr) (a : Bytes) : Prop where
  four : rr.rdataLen.toNat ≤ 4
  data : rr.rdataLen.toNat ≤ rr.rdata.length
  eq : a = writeAt stack 0 (rr.rdata.take rr.rdataLen.toNat)

section Round
variable {stack wire : Bytes} {s : AnswerScan} {a : Address}

theorem runs_zero_iff (hleft : s.rrLeft = 0) : Runs stack wire s a ↔ a = .null := by
  have hbody : answerBody stack typeA wire s = .ret .null := by
    simp only [answerBody, if_pos hleft]
  rw [Runs, Loop.returnsWith_ret_iff hbody]
  exact and_iff_right fun hne => (hne hleft).elim

variable {k : Nat} (hleft : s.rrLeft = k + 1)
include hleft

theorem not_runs_unread (hrec : rrFromWire wire s.offset false = none) : ¬ Runs stack wire s a := by
  refine Loop.not_returnsWith_fault ?_
  simp only [answerBody, hleft, if_neg (Nat.succ_ne_zero k), hrec]

section Record
variable {rr : DnsRr} {next : Nat} (hrec : rrFromWire wire s.offset false = some (rr, next))
include hrec

theorem namesFit_iff : NamesFit wire s ↔ InBlock rr.name ∧ (cstr rr.name = cstr s.qname →
    rr.type = cname → ∀ target i,
      nameAsciiFromWire wire (next - rr.rdataLen.toNat) = some (target, i) → InBlock target) := by
  have hne : s.rrLeft ≠ 0 := by omega
  constructor
  · intro h
    exact h hne _ _ hrec
  · intro h _ rr' next' hrec'
    rw [hrec] at hrec'
    obtain ⟨rfl, rfl⟩ := Prod.mk.inj (Option.some.inj hrec')
    exact h

theorem runs_strange_iff (hq : cstr rr.name ≠ cstr s.qname) :
    Runs stack wire s a ↔ InBlock rr.name ∧ a = .null := by
  have hbody : answerBody stack typeA wire s = .ret .null := by
    simp only [answerBody, hleft, if_neg (Nat.succ_ne_zero k), hrec, if_neg hq]
  rw [Runs, Loop.returnsWith_ret_iff hbody, namesFit_iff hleft hrec]
  exact and_congr_left fun _ => and_iff_left fun h => (hq h).elim

section Name
variable (hq : cstr rr.name = cstr s.qname)
include hq

theorem runs_address_iff (hA : rr.type = typeA) {addr : Bytes} :
    Runs stack wire s (.found addr) ↔ InBlock rr.name ∧ Copied stack rr addr := by
  have hC : rr.type ≠ cname := fun hC => absurd (hA.symm.trans hC) (by decide)
  by_cases hbad : rr.rdataLen.toNat > 4 ∨ rr.rdata.length < rr.rdataLen.toNat
  · have hbody : answerBody stack typeA wire s = .fault := by
      simp only [answerBody, hleft, if_neg (Nat.succ_ne_zero k), hrec, if_pos hq, if_pos hA,
        if_pos hbad]
    refine iff_of_false (Loop.not_returnsWith_fault hbody) fun ⟨_, h⟩ => ?_
    have h4 := h.four
    have hdata := h.data
    omega
  · have hbody : answerBody stack typeA wire s
        = .ret (.found (writeAt stack 0 (rr.rdata.take rr.rdataLen.toNat))) := by
      simp only [answerBody, hleft, if_neg (Nat.succ_ne_zero k), hrec, if_pos hq, if_pos hA,
        if_neg hbad]
    rw [Runs, Loop.returnsWith_ret_iff hbody, namesFit_iff hleft hrec, Address.found.injEq]
    refine and_congr (and_iff_left fun _ h => (hC h).elim) ⟨fun ha => ?_, fun h => h.eq⟩
    exact ⟨by omega, by omega, ha⟩

/-- An alias is read at the record's data, and followed if it names anything. -/
theorem runs_follow_iff (hC : rr.type = cname) :
    Runs stack wire s a ↔ InBlock rr.name ∧ ∃ q', AliasAs wire (next - rr.rdataLen.toNat) q' ∧
      Runs stack wire ⟨q', next, k⟩ a := by
  have hA : rr.type ≠ typeA := fun hA => absurd (hC.symm.trans hA) (by decide)
  by_cases hto : ∃ t i q', NameAt wire (next - rr.rdataLen.toNat) t i ∧
      canonicalizeName (cstr t) = some q'
  · obtain ⟨t, i, q', hat, hcanon⟩ := hto
    have hname := nameAsciiFromWire_iff.mpr ⟨t, i, hat, rfl, rfl⟩
    have hbody : answerBody stack typeA wire s = .next ⟨q', next, k⟩ := by
      simp only [answerBody, hleft, if_neg (Nat.succ_ne_zero k), hrec, if_pos hq, if_neg hA,
        if_pos hC, hname, cstr_nameBlock_eq, hcanon, Nat.add_sub_cancel]
    rw [Runs, Loop.returnsWith_next_iff hbody, namesFit_iff hleft hrec]
    constructor
    · rintro ⟨⟨howner, htarget⟩, hrun⟩
      have hfits := inBlock_nameBlock_iff.mp (htarget hq hC _ _ hname)
      exact ⟨howner, q', ⟨t, ⟨⟨i, hat⟩, hfits⟩, hcanon⟩, hrun⟩
    · rintro ⟨howner, q₁, ⟨t₁, ⟨⟨i₁, hat₁⟩, hfits⟩, hcanon₁⟩, hrun⟩
      obtain ⟨rfl, rfl⟩ := hat.unique hat₁
      obtain rfl := Option.some.inj (hcanon.symm.trans hcanon₁)
      refine ⟨⟨howner, fun _ _ target j hread => ?_⟩, hrun⟩
      rw [hname] at hread
      rw [← (Prod.mk.inj (Option.some.inj hread)).1]
      exact inBlock_nameBlock_iff.mpr hfits
  · refine iff_of_false (Loop.not_returnsWith_fault ?_) ?_
    · cases hname : nameAsciiFromWire wire (next - rr.rdataLen.toNat) with
      | none =>
          simp only [answerBody, hleft, if_neg (Nat.succ_ne_zero k), hrec, if_pos hq, if_neg hA,
            if_pos hC, hname]
      | some read =>
          obtain ⟨t, i, hat, heq, -⟩ := nameAsciiFromWire_iff.mp hname
          have hcanon : canonicalizeName (cstr read.1) = none := by
            rw [heq, cstr_nameBlock_eq]
            exact Option.eq_none_iff_forall_ne_some.mpr fun q' h => hto ⟨t, i, q', hat, h⟩
          simp only [answerBody, hleft, if_neg (Nat.succ_ne_zero k), hrec, if_pos hq, if_neg hA,
            if_pos hC, hname, hcanon]
    · rintro ⟨-, q', ⟨t, ⟨⟨i, hat⟩, -⟩, hcanon⟩, -⟩
      exact hto ⟨t, i, q', hat, hcanon⟩

theorem runs_pass_iff (hA : rr.type ≠ typeA) (hC : rr.type ≠ cname) :
    Runs stack wire s a ↔ InBlock rr.name ∧ Runs stack wire ⟨s.qname, next, k⟩ a := by
  have hbody : answerBody stack typeA wire s = .next ⟨s.qname, next, k⟩ := by
    simp only [answerBody, hleft, if_neg (Nat.succ_ne_zero k), hrec, if_pos hq, if_neg hA,
      if_neg hC, Nat.add_sub_cancel]
  rw [Runs, Loop.returnsWith_next_iff hbody, namesFit_iff hleft hrec]
  exact and_congr_left fun _ => and_iff_left fun _ h => (hC h).elim

end Name

end Record

end Round

/-- What is found begins with a record about the name looked for. -/
theorem Runs.first {stack wire addr : Bytes} {s : AnswerScan}
    (h : Runs stack wire s (.found addr)) :
    ∃ rr next, rrFromWire wire s.offset false = some (rr, next) ∧ cstr rr.name = cstr s.qname := by
  cases hleft : s.rrLeft with
  | zero => cases (runs_zero_iff hleft).mp h
  | succ k =>
      cases hrec : rrFromWire wire s.offset false with
      | none => exact (not_runs_unread hleft hrec h).elim
      | some read =>
          refine ⟨read.1, read.2, rfl, ?_⟩
          by_contra hq
          cases ((runs_strange_iff hleft hrec hq).mp h).2

theorem answerBody_rrLeft {stack wire : Bytes} {qtype : UInt16} {s s' : AnswerScan}
    (h : answerBody stack qtype wire s = .next s') : s'.rrLeft < s.rrLeft := by
  unfold answerBody at h
  split at h
  · cases h
  · next h0 =>
    split at h
    · cases h
    · split at h
      · split at h
        · split at h <;> cases h
        · split at h
          · split at h
            · cases h
            · split at h
              · cases h
              · cases h; simp only; omega
          · cases h; simp only; omega
      · cases h

/-! ## The whole call -/

/-- `get_answer_address` comes to `a`, and no name leaves its block on the way. -/
def Answers (stack qname wire : Bytes) (a : Address) : Prop :=
  getAnswerAddress stack qname typeA wire = some a ∧
    ∀ s₀, scanStart qname wire = some s₀ → ∀ n s,
      walk (Loop.advance (answerBody stack typeA wire)) n s₀ = some s → NamesFit wire s

theorem answers_iff_runs {stack qname wire : Bytes} {a : Address} {s : AnswerScan}
    (h : scanStart qname wire = some s) : Answers stack qname wire a ↔ Runs stack wire s a := by
  have hfuel := @Loop.returns_iff_run_of_measure _ _ (answerBody stack typeA wire)
    AnswerScan.rrLeft (fun _ _ => answerBody_rrLeft) s a
  rw [Answers, Runs, Loop.ReturnsWith, hfuel, getAnswerAddress, h, Option.bind_eq_bind,
    Option.bind_some]
  refine and_congr_right fun _ => ⟨fun hall => hall s rfl, ?_⟩
  rintro hall s₀ heq
  cases heq
  exact hall

/-- The header of a message: ID, flags and the four counts. -/
def headerBytes (msgId flags qd an ns ar : UInt16) : Bytes :=
  be16 msgId ++ be16 flags ++ be16 qd ++ be16 an ++ be16 ns ++ be16 ar

/-- **What the resolver reads before the records**: three counts, and past the question. -/
theorem scanStart_header {qname rest : Bytes}
    (msgId flags qd an ns ar : UInt16) (n : Name) (qt qc : UInt16) {wire : Bytes}
    (hwire : wire = headerBytes msgId flags qd an ns ar ++ (n.wire ++ be16 qt ++ be16 qc) ++ rest) :
    scanStart qname wire = some
      { qname := qname, offset := 12 + (n.wire ++ be16 qt ++ be16 qc).length,
        rrLeft := an.toNat + ns.toNat + ar.toNat } := by
  obtain ⟨question, hq⟩ : ∃ question, question = n.wire ++ be16 qt ++ be16 qc := ⟨_, rfl⟩
  obtain ⟨a, ha, hacount⟩ := read16_be16_eq (be16 msgId ++ be16 flags ++ be16 qd)
    (be16 ns ++ be16 ar ++ question ++ rest) an
  obtain ⟨b, hb, hbcount⟩ := read16_be16_eq (be16 msgId ++ be16 flags ++ be16 qd ++ be16 an)
    (be16 ar ++ question ++ rest) ns
  obtain ⟨c, hc, hccount⟩ :=
    read16_be16_eq (be16 msgId ++ be16 flags ++ be16 qd ++ be16 an ++ be16 ns) (question ++ rest) ar
  have hquestion := readRr_question id (List.replicate bufferMax 0)
    (headerBytes msgId flags qd an ns ar) rest n qt qc
  have hsome : wire[12]? ≠ none := by
    rw [hwire]
    simp [headerBytes, Name.wire, labelsWire]
    omega
  have hrr : rrFromWire wire 12 true = readRr id (List.replicate bufferMax 0) wire 12 true := by
    rw [rrFromWire, rrFromWireWith, if_neg hsome]
    rfl
  have hheader : (headerBytes msgId flags qd an ns ar).length = 12 := rfl
  rw [← hwire, hheader, ← hq] at hquestion
  rw [← hq] at hwire
  simp only [headerBytes, List.append_assoc] at hwire
  simp only [List.append_assoc, ← hwire] at ha hb hc
  have ha : read16 wire 6 = some a := ha
  have hb : read16 wire 8 = some b := hb
  have hc : read16 wire 10 = some c := hc
  simp only [scanStart, ha, hb, hc, hrr, hquestion, hacount, hbcount, hccount,
    Option.bind_eq_bind, Option.bind_some, Option.pure_def, hq]

end InternetLabs.Dns.Resolver
