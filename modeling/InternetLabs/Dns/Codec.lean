/-
# `InternetLabs.Dns.Codec` — what the server's codecs undo

A name goes to the wire and back (`nameCodec_roundTrip`).  A record does not:
`rr_from_wire` takes the name of a record that does not begin with a compression
pointer to be eleven bytes on, and `rr_to_wire` writes no pointers.  What it reads
there is the record again only if the owner, read from its twelfth byte on, is the
owner once more (`Rereads`).  Labels alone are too short for that, so the owner's last
byte and the zero behind it have to make a compression pointer (`Rereads.last`).
-/
import InternetLabs.Dns.InitDb

namespace InternetLabs.Dns.Server

open InternetLabs InternetLabs.Dns

/-! ## Names -/

/-- **A name goes to the wire and back**: the encoder writes the labels with their
lengths and a zero byte, the decoder reads the text out of it in any message, and
encoding what it has read gives the same bytes. -/
theorem nameCodec_roundTrip (n : Name) (h : n.text.length < bufferMax) :
    (∀ (name wire : Bytes) (off : Nat), cstr name = n.text →
      Server.nameAsciiToWire name wire off = (writeAt wire off n.wire, n.wire.length)) ∧
    (∀ pre post : Bytes, ∃ block : Bytes, block.length = bufferMax ∧ cstr block = n.text ∧
      Server.nameAsciiFromWire (pre ++ n.wire ++ post) pre.length
        = some (block, pre.length + n.wire.length)) ∧
    (∀ (pre post block wire : Bytes) (i off : Nat),
      Server.nameAsciiFromWire (pre ++ n.wire ++ post) pre.length = some (block, i) →
      Server.nameAsciiToWire block wire off = (writeAt wire off n.wire, n.wire.length)) := by
  have hblock : cstr (nameBlock n.text) = n.text := cstr_nameBlock n.text_noNul
  refine ⟨fun name wire off hn => Server.nameAsciiToWire_eq hn wire off, fun pre post => ?_, ?_⟩
  · exact ⟨nameBlock n.text, length_nameBlock (Nat.le_of_lt h), hblock,
      Server.nameAsciiFromWire_wire pre post n⟩
  · intro pre post block wire i off hread
    rw [Server.nameAsciiFromWire_wire] at hread
    rw [← (Prod.mk.inj (Option.some.inj hread)).1]
    exact Server.nameAsciiToWire_eq hblock wire off

theorem exampleCom_roundTrip :
    (∀ (name wire : Bytes) (off : Nat), cstr name = exampleCom.text →
      Server.nameAsciiToWire name wire off = (writeAt wire off exampleCom.wire,
      exampleCom.wire.length)) ∧
    (∀ pre post : Bytes, ∃ block : Bytes, block.length = bufferMax ∧ cstr block = exampleCom.text ∧
      Server.nameAsciiFromWire (pre ++ exampleCom.wire ++ post) pre.length
        = some (block, pre.length + exampleCom.wire.length)) ∧
    (∀ (pre post block wire : Bytes) (i off : Nat),
      Server.nameAsciiFromWire (pre ++ exampleCom.wire ++ post) pre.length = some (block, i) →
      Server.nameAsciiToWire block wire off
        = (writeAt wire off exampleCom.wire, exampleCom.wire.length)) :=
  nameCodec_roundTrip exampleCom (by decide)

/-! ## Records

The decoder starts eleven bytes behind the owner's first, unless the record begins with
a pointer.  What it makes of the rest of the owner decides. -/

/-- Stretches of bytes the decoder takes for labels: a length byte below `COMPRESSED_VAL`. -/
def AreStretches (ss : List Bytes) : Prop := ∀ s ∈ ss, 0 < s.length ∧ s.length < compressedVal

theorem toNat_stretch {s : Bytes} (h : s.length < compressedVal) :
    (UInt8.ofNat s.length).toNat = s.length := by
  rw [UInt8.toNat_ofNat']
  exact Nat.mod_eq_of_lt (Nat.lt_trans h (by decide))

theorem nameAt_of_stretches {wire : Bytes} {b lo : UInt8} {ss : List Bytes} {t rest : Bytes}
    {p k : Nat} (hss : AreStretches ss)
    (hwire : wire.drop p = ss.flatMap labelBytes ++ b :: lo :: rest) (hb : compressedVal ≤ b.toNat)
    (hname : NameAt wire lo.toNat t k) :
    NameAt wire p (leadText ss ++ t) ((ss.flatMap labelBytes).length + 2) := by
  induction ss generalizing p with
  | nil =>
      have h0 : (wire.drop p)[0]? = some b := by rw [hwire]; rfl
      have h1 : (wire.drop p)[1]? = some lo := by rw [hwire]; rfl
      rw [List.getElem?_drop] at h0 h1
      exact .pointer h0 hb h1 hname
  | cons s ss ih =>
      obtain ⟨hpos, hlt⟩ := hss s List.mem_cons_self
      have hnat := toNat_stretch hlt
      obtain ⟨tail, htail⟩ : ∃ tail, tail = ss.flatMap labelBytes ++ b :: lo :: rest := ⟨_, rfl⟩
      have hdrop : wire.drop p = UInt8.ofNat s.length :: (s ++ tail) := by
        rw [hwire, htail]
        simp [labelBytes]
      have hafter : wire.drop (p + 1) = s ++ tail := by
        rw [← List.drop_drop, hdrop, List.drop_one, List.tail_cons]
      have hbehind : wire.drop (p + 1 + s.length) = tail := by
        rw [← List.drop_drop, hafter, List.drop_left]
      have hlen : wire[p]? = some (UInt8.ofNat s.length) := by
        have h0 : (wire.drop p)[0]? = some (UInt8.ofNat s.length) := by rw [hdrop]; rfl
        rwa [List.getElem?_drop] at h0
      -- what follows is a length byte or the pointer, and no zero
      obtain ⟨next, hnext, hne⟩ : ∃ next : UInt8, tail[0]? = some next ∧ next.toNat ≠ 0 := by
        rw [htail]
        cases ss with
        | nil => exact ⟨b, rfl, Nat.ne_of_gt (Nat.lt_of_lt_of_le (by decide) hb)⟩
        | cons s' ss =>
            obtain ⟨hpos', hlt'⟩ := hss s' (List.mem_cons_of_mem _ List.mem_cons_self)
            exact ⟨UInt8.ofNat s'.length, rfl, by rw [toNat_stretch hlt']; omega⟩
      have hat : wire[p + 1 + (UInt8.ofNat s.length).toNat]? = some next := by
        rw [← hnext, ← hbehind, List.getElem?_drop, hnat]
        rfl
      have ih := ih (fun x hx => hss x (List.mem_cons_of_mem _ hx)) (hbehind.trans htail)
      rw [← hnat] at ih
      have h := NameAt.label hlen (by omega) (by rw [hnat]; exact hlt) hat ih
      rw [hafter, hnat, List.take_left, if_pos hne, List.append_assoc] at h
      convert h using 1
      · simp [leadText]
      · simp only [List.flatMap_cons, List.length_append, labelBytes, List.length_cons]
        omega

/-- **Every name is laid out so**, or has labels up to a zero byte. -/
theorem nameAt_stretches {wire : Bytes} {p k : Nat} {t : Bytes} (h : NameAt wire p t k) :
    ∃ ss : List Bytes, AreStretches ss ∧
      ((∃ (b lo : UInt8) (t' rest : Bytes) (k' : Nat),
          wire.drop p = ss.flatMap labelBytes ++ b :: lo :: rest ∧ compressedVal ≤ b.toNat ∧
          NameAt wire lo.toNat t' k' ∧ t = leadText ss ++ t' ∧
          k = (ss.flatMap labelBytes).length + 2) ∨
        (∃ rest : Bytes, wire.drop p = labelsWire ss ++ rest ∧ t = labelsText ss ∧
          k = (labelsWire ss).length)) := by
  induction h with
  | @stop p h =>
      obtain ⟨hlt, h⟩ := List.getElem?_eq_some_iff.mp h
      refine ⟨[], fun s hs => absurd hs List.not_mem_nil, .inr ⟨wire.drop (p + 1), ?_, rfl, rfl⟩⟩
      rw [List.drop_eq_getElem_cons hlt, h]
      rfl
  | @label p k len next t hlen h0 hc hnext hname ih =>
      obtain ⟨hlt, rfl⟩ := List.getElem?_eq_some_iff.mp hlen
      obtain ⟨hlt', rfl⟩ := List.getElem?_eq_some_iff.mp hnext
      obtain ⟨s, hs⟩ : ∃ s, s = (wire.drop (p + 1)).take wire[p].toNat := ⟨_, rfl⟩
      have hslen : s.length = wire[p].toNat := by
        rw [hs, List.length_take, List.length_drop]
        omega
      have hdrop : wire.drop p = labelBytes s ++ wire.drop (p + 1 + wire[p].toNat) := by
        rw [List.drop_eq_getElem_cons hlt, labelBytes, hslen, UInt8.ofNat_toNat,
          List.cons_append, hs,
          ← List.drop_drop (i := wire[p].toNat) (j := p + 1), List.take_append_drop]
      have hcons : ∀ {ss : List Bytes}, AreStretches ss → AreStretches (s :: ss) := fun hss =>
        List.forall_mem_cons.mpr ⟨⟨by omega, by omega⟩, hss⟩
      have hnext0 : ∀ {tail : Bytes} {c : UInt8}, wire.drop (p + 1 + wire[p].toNat) = c :: tail →
          wire[p + 1 + wire[p].toNat] = c := by
        intro tail c h
        rw [List.drop_eq_getElem_cons hlt'] at h
        exact (List.cons.inj h).1
      rw [← hs]
      obtain ⟨ss, hss, ⟨b, lo, t', rest, k', hwire, hb, hto, rfl, rfl⟩ | ⟨rest,
        hwire, rfl, rfl⟩⟩ := ih
      · have hne : (wire[p + 1 + wire[p].toNat]).toNat ≠ 0 := by
          cases ss with
          | nil =>
              rw [hnext0 hwire]
              exact Nat.ne_of_gt (Nat.lt_of_lt_of_le (by decide) hb)
          | cons s' ss =>
              obtain ⟨hpos', hlt''⟩ := hss s' List.mem_cons_self
              rw [hnext0 hwire, toNat_stretch hlt'']
              exact Nat.ne_of_gt hpos'
        refine ⟨s :: ss, hcons hss, .inl ⟨b, lo, t', rest, k', ?_, hb, hto, ?_, ?_⟩⟩
        · rw [hdrop, hwire]
          simp
        · rw [if_pos hne]
          simp [leadText]
        · simp only [List.flatMap_cons, List.length_append, labelBytes, List.length_cons]
          omega
      · refine ⟨s :: ss, hcons hss, .inr ⟨rest, ?_, ?_, ?_⟩⟩
        · rw [hdrop, hwire, labelsWire_cons]
          simp [labelBytes]
        · cases ss with
          | nil => simp [hnext0 hwire]
          | cons s' ss =>
              obtain ⟨hpos', hlt''⟩ := hss s' List.mem_cons_self
              rw [labelsWire_cons] at hwire
              rw [hnext0 hwire, toNat_stretch hlt'', if_pos (Nat.ne_of_gt hpos'),
                labelsText_cons_cons]
              simp
        · rw [labelsWire_cons]
          simp only [List.length_append, List.length_cons]
          omega
  | @pointer p k len off t hlen hc hoff hname ih =>
      obtain ⟨hlt, rfl⟩ := List.getElem?_eq_some_iff.mp hlen
      obtain ⟨hlt', rfl⟩ := List.getElem?_eq_some_iff.mp hoff
      refine ⟨[], fun s hs => absurd hs List.not_mem_nil, .inl ?_⟩
      refine ⟨wire[p], wire[p + 1], t, wire.drop (p + 1 + 1), k, ?_, hc, hname, rfl, rfl⟩
      rw [List.drop_eq_getElem_cons hlt, List.drop_eq_getElem_cons hlt']
      rfl

/-- Reading the record where `rr_to_wire` has written it gives it back. -/
def RoundTrips (rr : DnsRr) (wire : Bytes) (off : Nat) : Prop :=
  let written := Server.rrToWire rr wire off
  ∃ rr' : DnsRr, Server.rrFromWire written.1 off false = some (rr', off + written.2) ∧
    (rr'.name.length = bufferMax ∧ (0 : UInt8) ∈ rr'.name ∧ cstr rr'.name = cstr rr.name) ∧
    rr'.type = rr.type ∧ rr'.cls = rr.cls ∧ rr'.ttl = rr.ttl ∧ rr'.rdataLen = rr.rdataLen ∧
    rr'.rdata.take rr.rdataLen.toNat = rr.rdata.take rr.rdataLen.toNat

/-- From its twelfth byte on the owner's wire form is stretches and a byte that makes a
pointer of the closing zero, and the stretches with the name at the start of the message
behind them spell the owner. -/
def Rereads (n : Name) (message : Bytes) : Prop :=
  ∃ (ss : List Bytes) (b : UInt8) (t : Bytes) (k : Nat), AreStretches ss ∧
    n.wire.drop 11 = ss.flatMap labelBytes ++ [b, 0] ∧ compressedVal ≤ b.toNat ∧
    NameAt message 0 t k ∧ (leadText ss ++ t).length ≤ bufferMax ∧
    n.text.length < bufferMax ∧ cstr (leadText ss ++ t) = n.text

/-- The last byte of a name is the last of its wire form but the zero. -/
theorem getLast?_labelsText {ls : List Bytes} (h : ∀ l ∈ ls, IsLabel l) :
    (labelsText ls).getLast? = (ls.flatMap labelBytes).getLast? := by
  induction ls with
  | nil => rfl
  | cons l ls ih =>
      have hl := (h l List.mem_cons_self).ne_nil
      have ih := ih (fun x hx => h x (List.mem_cons_of_mem _ hx))
      cases ls with
      | nil => simp [labelBytes, List.getLast?_cons, List.getLast?_eq_getLast_of_ne_nil hl]
      | cons l' ls =>
          have hl' := (h l' (List.mem_cons_of_mem _ List.mem_cons_self)).ne_nil
          have hrest : (l' :: ls).flatMap labelBytes ≠ [] := by simp [labelBytes]
          have htext : labelsText (l' :: ls) ≠ [] := by
            intro h0
            rw [h0] at ih
            exact hrest (List.getLast?_eq_none_iff.mp ih.symm)
          rw [labelsText_cons_cons, List.getLast?_append_of_ne_nil _ (List.cons_ne_nil _ _),
            List.getLast?_cons_of_ne_nil htext, ih]
          exact (List.getLast?_append_of_ne_nil (labelBytes l) hrest).symm

/-- An owner that is read back ends in a byte that no letter, digit or hyphen is. -/
theorem Rereads.last {n : Name} {message : Bytes} (h : Rereads n message) :
    ∃ b : UInt8, n.text.getLast? = some b ∧ compressedVal ≤ b.toNat := by
  obtain ⟨ss, b, t, k, -, hwire, hb, -⟩ := h
  refine ⟨b, ?_, hb⟩
  have hfull : n.labels.flatMap labelBytes = n.wire.take 11 ++ ss.flatMap labelBytes ++ [b] := by
    have h : n.labels.flatMap labelBytes ++ [0]
        = (n.wire.take 11 ++ ss.flatMap labelBytes ++ [b]) ++ [0] := by
      rw [List.append_assoc, List.append_assoc, List.singleton_append, ← hwire,
        List.take_append_drop]
      rfl
    exact (List.append_inj' h rfl).1
  rw [Name.text, getLast?_labelsText n.ok, hfull, List.getLast?_append]
  rfl

section Owner
variable {rr : DnsRr} {n : Name} {pre post t : Bytes} {k : Nat}

theorem drop_written (h : 11 ≤ n.wire.length) : ∃ rest : Bytes,
    (pre ++ rr.wire n ++ post).drop (pre.length + 11) = n.wire.drop 11 ++ rest := by
  obtain ⟨rest, hrest⟩ : ∃ rest, rr.wire n ++ post = n.wire ++ rest :=
    ⟨_, by simp only [DnsRr.wire, List.append_assoc]; rfl⟩
  refine ⟨rest, ?_⟩
  rw [List.append_assoc, ← List.drop_drop, List.drop_left, hrest, List.drop_append_of_le_length h]

/-- What the decoder can find at the twelfth byte of a record written out, if it is to end
with the owner and to be as long. -/
theorem owner_stretches (h : NameAt (pre ++ rr.wire n ++ post) (pre.length + 11) t k)
    (hk : 11 + k = n.wire.length) (ht : n.text.length ≤ t.length) :
    ∃ (ss : List Bytes) (b : UInt8) (t' : Bytes) (k' : Nat), AreStretches ss ∧
      n.wire.drop 11 = ss.flatMap labelBytes ++ [b, 0] ∧ compressedVal ≤ b.toNat ∧
      NameAt (pre ++ rr.wire n ++ post) 0 t' k' ∧ t = leadText ss ++ t' := by
  have hne : n.labels ≠ [] := by
    intro hroot
    rw [Name.wire, hroot, labelsWire_nil, List.length_singleton] at hk
    omega
  obtain ⟨tail, hdrop⟩ := @drop_written rr n pre post (by omega)
  obtain ⟨ss, hss, ⟨b, lo, t', rest, k', hwire, hb, hto, rfl, rfl⟩ | ⟨rest, hwire, rfl, rfl⟩⟩ :=
    nameAt_stretches h
  · have hsplit : n.wire.drop 11 ++ tail = (ss.flatMap labelBytes ++ [b, lo]) ++ rest := by
      rw [← hdrop, hwire, List.append_assoc]
      rfl
    have hown := (List.append_inj hsplit (by
      rw [List.length_drop, List.length_append, List.length_cons, List.length_singleton]
      omega)).1
    have hlo : lo = 0 := by
      have hend : n.wire.getLast? = some lo := by
        rw [← List.take_append_drop 11 n.wire, hown, List.getLast?_append, List.getLast?_append]
        rfl
      rw [Name.wire, labelsWire, List.getLast?_append] at hend
      exact (Option.some.inj hend).symm
    subst hlo
    exact ⟨ss, b, t', k', hss, hown, hb, hto, rfl⟩
  · -- labels alone are eleven bytes too short
    exfalso
    have hlen : n.wire.length = n.text.length + 2 := length_labelsWire hne
    by_cases hnil : ss = []
    · subst hnil
      have := Name.text_pos hne
      rw [labelsText_nil, List.length_nil] at ht
      omega
    · rw [length_labelsWire hnil] at hk
      omega

/-- **Such a record is read as it was written**, from its twelfth byte on. -/
theorem readRr_of_rereads (fixTtl : UInt32 → UInt32)
    (hdata : rr.rdataLen.toNat ≤ rr.rdata.length) (h : Rereads n (pre ++ rr.wire n ++ post)) :
    ∃ name ttl, (name.length = bufferMax ∧ (0 : UInt8) ∈ name ∧ cstr name = n.text) ∧
      swapEndian32 ttl = rr.ttl ∧
      readRr fixTtl (List.replicate bufferMax 0) (pre ++ rr.wire n ++ post) (pre.length + 11) false
        = some ({ name := name, type := rr.type, cls := rr.cls, ttl := fixTtl ttl,
                  rdataLen := rr.rdataLen, rdata := rr.rdata.take rr.rdataLen.toNat ++ post },
                pre.length + (rr.wire n).length) := by
  obtain ⟨data, hd⟩ : ∃ data, data = rr.rdata.take rr.rdataLen.toNat := ⟨_, rfl⟩
  have hdlen : data.length = rr.rdataLen.toNat := by rw [hd, List.length_take]; omega
  have hlen : (rr.wire n).length = n.wire.length + 10 + data.length := by
    simp only [DnsRr.wire, List.length_append, length_be16, length_be32, ← hd]
  obtain ⟨ss, b, t, k, hss, hown, hb, hto, hfits, hshort, hspell⟩ := h
  have hdroplen := congrArg List.length hown
  rw [List.length_drop, List.length_append, List.length_cons, List.length_singleton] at hdroplen
  obtain ⟨rest, hdrop⟩ := @drop_written rr n pre post (by omega)
  have hdrop : (pre ++ rr.wire n ++ post).drop (pre.length + 11)
      = ss.flatMap labelBytes ++ b :: 0 :: rest := by
    rw [hdrop, hown, List.append_assoc]
    rfl
  have hzero : NameAt (pre ++ rr.wire n ++ post) (0 : UInt8).toNat t k := hto
  have hat := nameAt_of_stretches hss hdrop hb hzero
  have hfrom : nameFromWire (List.replicate bufferMax 0) (pre ++ rr.wire n ++ post)
      (pre.length + 11) = some (nameBlock (leadText ss ++ t), (pre ++ n.wire).length) := by
    refine nameFromWire_iff.mpr ⟨_, _, hat, Prod.ext rfl ?_⟩
    rw [List.length_append]
    omega
  have hfields : pre ++ rr.wire n ++ post = pre ++ n.wire
      ++ (be16 rr.type ++ be16 rr.cls ++ be32 rr.ttl ++ be16 rr.rdataLen ++ data) ++ post := by
    simp only [DnsRr.wire, hd, List.append_assoc]
  obtain ⟨ttl, httl, hread⟩ := readRr_fields fixTtl rr hfields hdlen hfrom
  have hend : (pre ++ n.wire).length + 10 + data.length = pre.length + (rr.wire n).length := by
    rw [List.length_append]
    omega
  rw [hend, hd] at hread
  refine ⟨_, ttl, ⟨length_nameBlock hfits, length_cstr_lt_iff.mp ?_, ?_⟩, httl, hread⟩
  · rw [cstr_nameBlock_eq, hspell, length_nameBlock hfits]
    exact hshort
  · rw [cstr_nameBlock_eq, hspell]

end Owner

theorem rrFromWire_written (rr : DnsRr) (n : Name) (pre post : Bytes) :
    Server.rrFromWire (pre ++ rr.wire n ++ post) pre.length false
      = readRr swapEndian32 (List.replicate bufferMax 0) (pre ++ rr.wire n ++ post)
          (pre.length + 11) false := by
  obtain ⟨b, rest, hwire, -⟩ := n.wire_low
  have hfirst : (pre ++ rr.wire n ++ post)[pre.length]? = some b := by simp [DnsRr.wire, hwire]
  rw [Server.rrFromWire, rrFromWireWith, if_neg (by rw [hfirst]; exact Option.some_ne_none b)]
  simp only [Bool.not_false, if_true, rrNameStart_wire]

section RoundTrip
variable {rr : DnsRr} {n : Name} (hn : cstr rr.name = n.text)
  (hdata : rr.rdataLen.toNat ≤ rr.rdata.length) {wire : Bytes} {off : Nat}
include hn hdata

theorem rereads_of_roundTrips (h : RoundTrips rr wire off) :
    Rereads n (Server.rrToWire rr wire off).1 := by
  obtain ⟨pre, post, rfl, hsplit⟩ := writeAt_split wire off (rr.wire n)
  simp only [RoundTrips, Server.rrToWire_eq hn hdata, hsplit, rrFromWire_written, hn] at h ⊢
  have hlen : (rr.wire n).length = n.wire.length + 10 + rr.rdataLen.toNat := by
    simp only [DnsRr.wire, List.length_append, length_be16, length_be32, List.length_take]
    omega
  obtain ⟨rr', hread, ⟨hblock, hnul, hname⟩, -, -, -, hrdlen, -⟩ := h
  obtain ⟨j, hfrom, hnext⟩ := readRr_eq_some hread
  obtain ⟨t, k, hat, heq⟩ := nameFromWire_iff.mp hfrom
  obtain ⟨hrr, rfl⟩ := Prod.mk.inj heq
  rw [hrdlen] at hnext
  rw [hrr] at hblock hnul hname
  have hfits : t.length ≤ bufferMax := by
    rw [length_writeAt, List.length_replicate, Nat.zero_add] at hblock
    omega
  have hspell : cstr t = n.text := (cstr_nameBlock_eq t).symm.trans hname
  have hshort : n.text.length < bufferMax := by
    rw [← hblock, ← hname]
    exact length_cstr_lt_iff.mpr hnul
  obtain ⟨ss, b, t', k', hss, hown, hb, hto, rfl⟩ := owner_stretches hat (by omega)
    (hspell ▸ length_cstr_le t)
  exact ⟨ss, b, t', k', hss, hown, hb, hto, hfits, hshort, hspell⟩

theorem roundTrips_of_rereads (h : Rereads n (Server.rrToWire rr wire off).1) :
    RoundTrips rr wire off := by
  obtain ⟨pre, post, rfl, hsplit⟩ := writeAt_split wire off (rr.wire n)
  simp only [RoundTrips, Server.rrToWire_eq hn hdata, hsplit, rrFromWire_written, hn] at h ⊢
  obtain ⟨name, ttl, hname, httl, hread⟩ := readRr_of_rereads swapEndian32 hdata h
  refine ⟨_, hread, hname, rfl, rfl, httl, rfl, ?_⟩
  rw [List.take_append_of_le_length (by rw [List.length_take]; omega), List.take_take, Nat.min_self]

/-- **A record comes back exactly if its owner, read from the twelfth byte on, is the owner
again.** -/
theorem record_roundTrips_iff :
    RoundTrips rr wire off ↔ Rereads n (Server.rrToWire rr wire off).1 :=
  ⟨rereads_of_roundTrips hn hdata, roundTrips_of_rereads hn hdata⟩

end RoundTrip

/-- The A record of the line `example.com`. -/
def exampleRr : DnsRr := (loadEntry 0 [0] exampleLine).rr

theorem exampleRr_lost : ¬ RoundTrips exampleRr (List.replicate 64 0) 12 := by
  intro h
  have hname : cstr exampleRr.name = exampleCom.text := by decide
  obtain ⟨b, hlast, hb⟩ := (rereads_of_roundTrips hname (by decide) h).last
  rw [show exampleCom.text.getLast? = some 109 by decide] at hlast
  obtain rfl := Option.some.inj hlast
  exact absurd hb (by decide)

theorem exampleRr_roundTrips_iff :
    RoundTrips exampleRr (List.replicate 64 0) 12
      ↔ Rereads exampleCom (Server.rrToWire exampleRr (List.replicate 64 0) 12).1 :=
  record_roundTrips_iff (by decide) (by decide)

end InternetLabs.Dns.Server
