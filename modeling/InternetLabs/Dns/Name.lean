/-
# `InternetLabs.Dns.Name` — domain names, their text and their wire form

Both DNS labs carry their own `name_ascii_to_wire` and `name_ascii_from_wire`.
The two encoders differ only in the length they report, the two decoders only
in whether the block they write the text to is cleared first, so each pair is
one definition here (`nameToWire`, `nameFromWire`) that the labs instantiate.

A `Name` is a list of well-formed labels; it has a text (labels joined by dots)
and a wire form (length byte and label, a zero byte at the end).  What the
encoders write for a name's text is its wire form (`nameToWire_text`), and the
decoder reads an uncompressed wire form back as the text (`nameFromWire_wire`).

The decoder is a loop that may not end: a compression pointer can lead back to
an offset already visited.  Its rounds are a walk on offsets, `nameHop`, and the
loop ends exactly when that walk does (`nameBody_keyed`).
-/
import InternetLabs.Lib.Loop
import InternetLabs.Lib.Bytes

namespace InternetLabs.Dns

/-- `BUFFER_MAX`, and the resolver's `MAX_BUFFER_SIZE`. -/
def bufferMax : Nat := 1024

/-- `COMPRESSED_VAL`: a length byte from here on starts a compression pointer. -/
def compressedVal : Nat := 192

/-- The delimiter of the text form. -/
def dot : UInt8 := 46

/-! ## Names -/

/-- A label a domain name is made of. -/
structure IsLabel (l : Bytes) : Prop where
  pos : 0 < l.length
  le : l.length ≤ 63
  noDot : dot ∉ l
  noNul : (0 : UInt8) ∉ l

instance (l : Bytes) : Decidable (IsLabel l) :=
  decidable_of_iff (0 < l.length ∧ l.length ≤ 63 ∧ dot ∉ l ∧ (0 : UInt8) ∉ l)
    ⟨fun ⟨hpos, hle, hdot, hnul⟩ => ⟨hpos, hle, hdot, hnul⟩,
      fun ⟨hpos, hle, hdot, hnul⟩ => ⟨hpos, hle, hdot, hnul⟩⟩

/-- A domain name: its labels, each well formed.  The empty list is the root. -/
@[ext] structure Name where
  labels : List Bytes
  ok : ∀ l ∈ labels, IsLabel l

def labelBytes (l : Bytes) : Bytes := UInt8.ofNat l.length :: l

def labelsText (ls : List Bytes) : Bytes := [dot].intercalate ls

/-- The text of labels that more of the name comes behind. -/
def leadText (ls : List Bytes) : Bytes := ls.flatMap (· ++ [dot])

def labelsWire (ls : List Bytes) : Bytes := ls.flatMap labelBytes ++ [0]

/-- The dotted text of a name. -/
def Name.text (n : Name) : Bytes := labelsText n.labels

/-- The uncompressed wire form of a name. -/
def Name.wire (n : Name) : Bytes := labelsWire n.labels

theorem IsLabel.ne_nil {l : Bytes} (h : IsLabel l) : l ≠ [] :=
  List.ne_nil_of_length_pos h.pos

theorem IsLabel.toNat_length {l : Bytes} (h : IsLabel l) :
    (UInt8.ofNat l.length).toNat = l.length := by
  have := h.le
  rw [UInt8.toNat_ofNat']
  exact Nat.mod_eq_of_lt (by omega)

@[simp] theorem labelsText_nil : labelsText [] = [] := rfl

@[simp] theorem labelsText_singleton (l : Bytes) : labelsText [l] = l := by
  simp [labelsText]

theorem labelsText_cons_cons (l l' : Bytes) (ls : List Bytes) :
    labelsText (l :: l' :: ls) = l ++ dot :: labelsText (l' :: ls) := by
  simp [labelsText, List.intercalate_cons_cons]

@[simp] theorem leadText_nil : leadText [] = [] := rfl

theorem leadText_cons (l : Bytes) (ls : List Bytes) :
    leadText (l :: ls) = l ++ dot :: leadText ls := by
  simp [leadText]

theorem labelsText_append (ls : List Bytes) {ls' : List Bytes} (h : ls' ≠ []) :
    labelsText (ls ++ ls') = leadText ls ++ labelsText ls' := by
  induction ls with
  | nil => rfl
  | cons l ls ih =>
      obtain ⟨x, xs, hx⟩ := List.exists_cons_of_ne_nil (List.append_ne_nil_of_right_ne_nil ls h)
      rw [List.cons_append, hx, labelsText_cons_cons, ← hx, ih, leadText_cons]
      simp

@[simp] theorem labelsWire_nil : labelsWire [] = [0] := rfl

theorem labelsWire_cons (l : Bytes) (ls : List Bytes) :
    labelsWire (l :: ls) = UInt8.ofNat l.length :: (l ++ labelsWire ls) := by
  simp [labelsWire, labelBytes]

theorem length_labelsWire_eq (ls : List Bytes) :
    (labelsWire ls).length = (ls.map fun l => 1 + l.length).sum + 1 := by
  induction ls with
  | nil => rfl
  | cons l ls ih =>
      rw [labelsWire_cons, List.map_cons, List.sum_cons, List.length_cons, List.length_append, ih]
      omega

theorem labelsText_noNul {ls : List Bytes} (h : ∀ l ∈ ls, IsLabel l) :
    (0 : UInt8) ∉ labelsText ls := by
  induction ls with
  | nil => simp
  | cons l ls ih =>
      have hl := (h l List.mem_cons_self).noNul
      have ih := ih (fun x hx => h x (List.mem_cons_of_mem _ hx))
      cases ls with
      | nil => simpa using hl
      | cons l' ls =>
          rw [labelsText_cons_cons]
          simp only [List.mem_append, List.mem_cons, not_or]
          exact ⟨hl, by decide, ih⟩

theorem Name.text_noNul (n : Name) : (0 : UInt8) ∉ n.text := labelsText_noNul n.ok

@[simp] theorem Name.cstr_text (n : Name) : cstr n.text = n.text :=
  cstr_eq_self n.text_noNul

theorem strtokAll_labelsText {ls : List Bytes} (h : ∀ l ∈ ls, IsLabel l) :
    strtokAll (· == dot) (labelsText ls) = ls := by
  refine strtokAll_intercalate (by simp) (fun l hl => ⟨(h l hl).ne_nil, fun x hx => ?_⟩)
  simpa using fun hd : x = dot => (h l hl).noDot (hd ▸ hx)

theorem Name.strtokAll_text_dot (n : Name) : strtokAll (· == dot) (n.text ++ [dot]) = n.labels := by
  have htext : strtokAll (· == dot) n.text = n.labels := strtokAll_labelsText n.ok
  rw [strtokAll_append_cons _ _ (by decide), htext, strtokAll_nil, List.append_nil]

theorem Name.text_injective {n n' : Name} (h : n.text = n'.text) : n = n' := by
  have hl := strtokAll_labelsText n.ok
  rw [show labelsText n.labels = n'.text from h] at hl
  exact Name.ext (hl.symm.trans (strtokAll_labelsText n'.ok))

theorem length_labelsWire {ls : List Bytes} (h : ls ≠ []) :
    (labelsWire ls).length = (labelsText ls).length + 2 := by
  induction ls with
  | nil => exact absurd rfl h
  | cons l ls ih =>
      rw [labelsWire_cons]
      cases ls with
      | nil => simp
      | cons l' ls =>
          have ih := ih (List.cons_ne_nil _ _)
          rw [labelsText_cons_cons]
          simp only [List.length_cons, List.length_append] at ih ⊢
          omega

theorem Name.text_pos {n : Name} (h : n.labels ≠ []) : 0 < n.text.length := by
  match n, h with
  | ⟨[l], hok⟩, _ => rw [Name.text, labelsText_singleton]; exact (hok l List.mem_cons_self).pos
  | ⟨l :: l' :: ls, _⟩, _ =>
      rw [Name.text, labelsText_cons_cons]
      simp

/-- A name other than the root begins with a length byte between 1 and 63. -/
theorem Name.wire_first {n : Name} (h : n.labels ≠ []) :
    ∃ (b : UInt8) (rest : Bytes), n.wire = b :: rest ∧ b ≠ 0 ∧ b.toNat ≤ 63 := by
  match n, h with
  | ⟨l :: ls, hok⟩, _ =>
      have hl := hok l List.mem_cons_self
      refine ⟨UInt8.ofNat l.length, l ++ labelsWire ls, labelsWire_cons l ls, ?_, ?_⟩
      · intro h0
        have := hl.toNat_length
        rw [h0] at this
        exact absurd this.symm (Nat.pos_iff_ne_zero.mp hl.pos)
      · rw [hl.toNat_length]; exact hl.le

/-! ## The encoders

Both programs encode a name with the same loop, and differ in the length they return. -/

section Encode
variable (perLabel atEnd : Nat)

/-- The `while` loop of `name_ascii_to_wire` over the tokens, from `wire_ptr` on,
and the terminating zero byte.  `perLabel` and `atEnd` are what the lab adds to
`total_len` for a length byte and after the loop. -/
def nameToWireLoop : List Bytes → Bytes → Nat → Nat → Bytes × Nat
  | [], wire, wirePtr, totalLen => (writeAt wire wirePtr [0], totalLen + atEnd)
  | curLabel :: rest, wire, wirePtr, totalLen =>
      let len := curLabel.length
      let wire := writeAt wire wirePtr [UInt8.ofNat len]
      let wire := writeAt wire (wirePtr + 1) curLabel
      nameToWireLoop rest wire (wirePtr + 1 + len) (totalLen + perLabel + len)

/-- `name_ascii_to_wire(name, wire + off)`: the memory at `wire` afterwards and
the length the lab reports. -/
def nameToWire (name wire : Bytes) (off : Nat) : Bytes × Nat :=
  nameToWireLoop perLabel atEnd (strtokAll (· == dot) (cstr name)) wire off 0

theorem nameToWireLoop_snd (ls : List Bytes) (wire : Bytes) (p total : Nat) :
    (nameToWireLoop perLabel atEnd ls wire p total).2
      = total + (ls.map (fun l => perLabel + l.length)).sum + atEnd := by
  induction ls generalizing wire p total with
  | nil => simp [nameToWireLoop]
  | cons l ls ih =>
      rw [nameToWireLoop, ih]
      simp only [List.map_cons, List.sum_cons]
      omega

theorem nameToWireLoop_fst (ls : List Bytes) (wire : Bytes) (p total : Nat) :
    (nameToWireLoop perLabel atEnd ls wire p total).1 = writeAt wire p (labelsWire ls) := by
  induction ls generalizing wire p total with
  | nil => rfl
  | cons l ls ih =>
      have hlabel : p + 1 = p + [UInt8.ofNat l.length].length := rfl
      have hrest : p + 1 + l.length = p + ([UInt8.ofNat l.length] ++ l).length := by simp; omega
      rw [nameToWireLoop, ih, writeAt_append _ _ _ hlabel, writeAt_append _ _ _ hrest,
        labelsWire_cons]
      rfl

/-- **What the encoders write** for the text of a name. -/
theorem nameToWire_text {name : Bytes} {n : Name} (hn : cstr name = n.text) (wire : Bytes)
    (off : Nat) : (nameToWire perLabel atEnd name wire off).1 = writeAt wire off n.wire := by
  rw [nameToWire, nameToWireLoop_fst, hn, Name.text, strtokAll_labelsText n.ok]
  rfl

end Encode

/-! ## The decoder

Both decode it with the same loop as well.  Pointers into the message are followed
without a count, so the loop may not end. -/

/-- The variables of the loop of `name_ascii_from_wire`.  Pointers are offsets
from `wire`; `name` is the text before `name_ptr`. -/
structure NameScan where
  wirePtr : Nat
  labelLen : Nat
  name : Bytes
  indexp : Nat
  compressed : Bool

/-- One round of the loop of `name_ascii_from_wire`.  Memory outside `wire` is
not there to be read. -/
def nameBody (wire : Bytes) (s : NameScan) : Step NameScan (Bytes × Nat) :=
  if s.labelLen = 0 then
    -- past the trailing zero byte, or the second byte of the pointer
    .ret (s.name, s.indexp + 1)
  else if s.labelLen ≥ compressedVal then
    match wire[s.wirePtr + 1]? with
    | none => .fault
    | some nameOffset =>
        match wire[nameOffset.toNat]? with
        | none => .fault
        | some len =>
            .next {
              wirePtr := nameOffset.toNat
              labelLen := len.toNat
              name := s.name
              indexp := if s.compressed then s.indexp else s.indexp + 1
              compressed := true }
  else
    match wire[s.wirePtr + 1 + s.labelLen]? with
    | none => .fault
    | some len =>
        let label := (wire.drop (s.wirePtr + 1)).take s.labelLen
        .next {
          wirePtr := s.wirePtr + 1 + s.labelLen
          labelLen := len.toNat
          name := s.name ++ label ++ (if len.toNat ≠ 0 then [dot] else [])
          indexp := if s.compressed then s.indexp else s.indexp + 1 + s.labelLen
          compressed := s.compressed }

/-- The variables before the first round. -/
def nameStart (indexp labelLen : Nat) : NameScan :=
  { wirePtr := indexp, labelLen := labelLen, name := [], indexp := indexp, compressed := false }

/-- `name_ascii_from_wire(wire, &indexp)`: the block the text is written to and
the new `*indexp`; `none` if the loop does not end or leaves the memory at
`wire`.  `block` is the content `malloc` found, or cleared. -/
def nameFromWire (block wire : Bytes) (indexp : Nat) : Option (Bytes × Nat) :=
  match wire[indexp]? with
  | none => none
  | some len =>
      (Loop.run (nameBody wire) wire.length (nameStart indexp len.toNat)).map
        fun r => (writeAt block 0 r.1, r.2)

/-! ### A round

What a round does, by the byte that `wire_ptr` points to. -/

/-- The variables after a pointer to `off`, where the byte `len` stands. -/
def NameScan.jump (s : NameScan) (off len : UInt8) : NameScan where
  wirePtr := off.toNat
  labelLen := len.toNat
  name := s.name
  indexp := if s.compressed then s.indexp else s.indexp + 1
  compressed := true

/-- The variables after a label that the byte `next` follows. -/
def NameScan.skip (s : NameScan) (wire : Bytes) (next : UInt8) : NameScan where
  wirePtr := s.wirePtr + 1 + s.labelLen
  labelLen := next.toNat
  name := s.name ++ (wire.drop (s.wirePtr + 1)).take s.labelLen
    ++ (if next.toNat ≠ 0 then [dot] else [])
  indexp := if s.compressed then s.indexp else s.indexp + 1 + s.labelLen
  compressed := s.compressed

theorem ne_zero_of_pointer {len : Nat} (hc : compressedVal ≤ len) : len ≠ 0 :=
  Nat.ne_of_gt (Nat.lt_of_lt_of_le (by decide) hc)

section Round
variable {wire : Bytes} {s : NameScan}

theorem nameBody_of_stop (h0 : s.labelLen = 0) :
    nameBody wire s = .ret (s.name, s.indexp + 1) := by
  simp only [nameBody, if_pos h0]

theorem nameBody_of_label {next : UInt8} (h0 : s.labelLen ≠ 0) (hc : s.labelLen < compressedVal)
    (hnext : wire[s.wirePtr + 1 + s.labelLen]? = some next) :
    nameBody wire s = .next (s.skip wire next) := by
  simp only [nameBody, if_neg h0, ge_iff_le, if_neg (Nat.not_le_of_lt hc), hnext]
  rfl

theorem nameBody_of_pointer {off len : UInt8} (hc : compressedVal ≤ s.labelLen)
    (hoff : wire[s.wirePtr + 1]? = some off) (hat : wire[off.toNat]? = some len) :
    nameBody wire s = .next (s.jump off len) := by
  simp only [nameBody, if_neg (ne_zero_of_pointer hc), ge_iff_le, if_pos hc, hoff, hat]
  rfl

end Round

/-- The three kinds of round, with what is missing where one faults. -/
theorem nameBody_cases (wire : Bytes) (s : NameScan) :
    (s.labelLen = 0 ∧ nameBody wire s = .ret (s.name, s.indexp + 1)) ∨
    (compressedVal ≤ s.labelLen ∧
      ((nameBody wire s = .fault ∧
          ∀ off, wire[s.wirePtr + 1]? = some off → wire[off.toNat]? = none) ∨
        ∃ off len, wire[s.wirePtr + 1]? = some off ∧ wire[off.toNat]? = some len ∧
          nameBody wire s = .next (s.jump off len))) ∨
    (s.labelLen ≠ 0 ∧ s.labelLen < compressedVal ∧
      ((nameBody wire s = .fault ∧ wire[s.wirePtr + 1 + s.labelLen]? = none) ∨
        ∃ next, wire[s.wirePtr + 1 + s.labelLen]? = some next ∧
          nameBody wire s = .next (s.skip wire next))) := by
  by_cases h0 : s.labelLen = 0
  · exact .inl ⟨h0, nameBody_of_stop h0⟩
  by_cases hc : compressedVal ≤ s.labelLen
  · refine .inr (.inl ⟨hc, ?_⟩)
    cases hoff : wire[s.wirePtr + 1]? with
    | none =>
        refine .inl ⟨?_, nofun⟩
        simp only [nameBody, if_neg h0, ge_iff_le, if_pos hc, hoff]
    | some off =>
        cases hlen : wire[off.toNat]? with
        | none =>
            refine .inl ⟨?_, fun off' h => Option.some.inj h ▸ hlen⟩
            simp only [nameBody, if_neg h0, ge_iff_le, if_pos hc, hoff, hlen]
        | some len => exact .inr ⟨off, len, rfl, hlen, nameBody_of_pointer hc hoff hlen⟩
  · have hlt := Nat.lt_of_not_le hc
    refine .inr (.inr ⟨h0, hlt, ?_⟩)
    cases hnext : wire[s.wirePtr + 1 + s.labelLen]? with
    | none =>
        refine .inl ⟨?_, rfl⟩
        simp only [nameBody, if_neg h0, ge_iff_le, if_neg hc, hnext]
    | some next => exact .inr ⟨next, rfl, nameBody_of_label h0 hlt hnext⟩

/-! ### The walk on offsets

Whether the loop ends depends on the offsets alone: the text it builds has no say in
where it reads next. -/

/-- Where the decoder reads next after the byte at offset `p`: at the target of
a pointer, or past a label.  A zero byte ends the name, and past the end of the
memory there is nothing. -/
def nameHop (wire : Bytes) (p : Nat) : Option Nat :=
  match wire[p]? with
  | none => none
  | some len =>
      if len.toNat = 0 then none
      else if len.toNat ≥ compressedVal then
        match wire[p + 1]? with
        | none => none
        | some off => if off.toNat < wire.length then some off.toNat else none
      else if p + 1 + len.toNat < wire.length then some (p + 1 + len.toNat) else none

/-- `label_len` is the byte `wire_ptr` points to. -/
def NameScan.Reads (wire : Bytes) (s : NameScan) : Prop :=
  ∃ len, wire[s.wirePtr]? = some len ∧ s.labelLen = len.toNat

theorem NameScan.Reads.labelLen {wire : Bytes} {s : NameScan} (h : s.Reads wire) {b : UInt8}
    (hb : wire[s.wirePtr]? = some b) : s.labelLen = b.toNat := by
  obtain ⟨b', hb', hlen⟩ := h
  rw [hb] at hb'
  rw [hlen, Option.some.inj hb']

theorem nameStart_reads {wire : Bytes} {i : Nat} {len : UInt8} (h : wire[i]? = some len) :
    (nameStart i len.toNat).Reads wire := ⟨len, h, rfl⟩

section Hop
variable {wire : Bytes} {p : Nat} {len : UInt8} (h : wire[p]? = some len)
include h

theorem nameHop_of_stop (h0 : len.toNat = 0) : nameHop wire p = none := by
  simp only [nameHop, h, if_pos h0]

theorem nameHop_of_pointer (hc : compressedVal ≤ len.toNat) : nameHop wire p
    = wire[p + 1]?.bind fun off => if off.toNat < wire.length then some off.toNat else none := by
  simp only [nameHop, h, if_neg (ne_zero_of_pointer hc), ge_iff_le, if_pos hc]
  cases wire[p + 1]? <;> rfl

theorem nameHop_of_label (h0 : len.toNat ≠ 0) (hc : len.toNat < compressedVal) : nameHop wire p
    = if p + 1 + len.toNat < wire.length then some (p + 1 + len.toNat) else none := by
  simp only [nameHop, h, if_neg h0, ge_iff_le, if_neg (Nat.not_le_of_lt hc)]

end Hop

theorem nameBody_keyed (wire : Bytes) :
    Loop.Keyed (nameBody wire) (NameScan.Reads wire) NameScan.wirePtr (nameHop wire) where
  inv := by
    rintro s s' - h
    rcases nameBody_cases wire s with ⟨-, hbody⟩ | ⟨-, ⟨hbody, -⟩ | ⟨off, len, -, hat, hbody⟩⟩ |
      ⟨-, -, ⟨hbody, -⟩ | ⟨next, hnext, hbody⟩⟩
    all_goals rw [hbody] at h; cases h
    · exact ⟨len, hat, rfl⟩
    · exact ⟨next, hnext, rfl⟩
  next := by
    rintro s s' ⟨b, hb, hlen⟩ h
    rcases nameBody_cases wire s with ⟨-, hbody⟩ | ⟨hc, ⟨hbody, -⟩ | ⟨off, len, hoff, hat, hbody⟩⟩ |
      ⟨h0, hc, ⟨hbody, -⟩ | ⟨next, hnext, hbody⟩⟩
    all_goals rw [hbody] at h; cases h
    · rw [nameHop_of_pointer hb (hlen ▸ hc), hoff, Option.bind_some]
      exact if_pos (List.getElem?_eq_some_iff.mp hat).1
    · rw [hlen] at h0 hc hnext
      rw [nameHop_of_label hb h0 hc, NameScan.skip, hlen]
      exact if_pos (List.getElem?_eq_some_iff.mp hnext).1
  stop := by
    rintro s ⟨b, hb, hlen⟩ h
    rcases nameBody_cases wire s with ⟨h0, -⟩ | ⟨hc, ⟨-, hnone⟩ | ⟨off, len, -, -, hbody⟩⟩ |
      ⟨h0, hc, ⟨-, hnone⟩ | ⟨next, -, hbody⟩⟩
    · exact nameHop_of_stop hb (hlen ▸ h0)
    · rw [nameHop_of_pointer hb (hlen ▸ hc)]
      cases hoff : wire[s.wirePtr + 1]? with
      | none => rfl
      | some off => exact if_neg (Nat.not_lt_of_le (List.getElem?_eq_none_iff.mp (hnone off hoff)))
    · rw [Loop.advance_eq_some.mpr hbody] at h
      cases h
    · rw [hlen] at h0 hc hnone
      rw [nameHop_of_label hb h0 hc]
      exact if_neg (Nat.not_lt_of_le (List.getElem?_eq_none_iff.mp hnone))
    · rw [Loop.advance_eq_some.mpr hbody] at h
      cases h

theorem nameHop_mem (wire : Bytes) :
    ∀ x ∈ Finset.range wire.length, ∀ y, nameHop wire x = some y →
      y ∈ Finset.range wire.length := by
  intro x hx y h
  rw [Finset.mem_range] at hx ⊢
  have hlen := List.getElem?_eq_getElem hx
  by_cases h0 : wire[x].toNat = 0
  · rw [nameHop_of_stop hlen h0] at h
    cases h
  by_cases hc : compressedVal ≤ wire[x].toNat
  · rw [nameHop_of_pointer hlen hc] at h
    obtain ⟨off, -, h⟩ := Option.bind_eq_some_iff.mp h
    obtain ⟨hlt, hy⟩ := Option.ite_none_right_eq_some.mp h
    exact Option.some.inj hy ▸ hlt
  · rw [nameHop_of_label hlen h0 (Nat.lt_of_not_le hc)] at h
    obtain ⟨hlt, hy⟩ := Option.ite_none_right_eq_some.mp h
    exact Option.some.inj hy ▸ hlt

/-- `nameFromWire` answers exactly when the loop returns: its fuel is enough. -/
theorem nameFromWire_eq_some {block wire : Bytes} {i : Nat} {r : Bytes × Nat} :
    nameFromWire block wire i = some r ↔
      ∃ len text, wire[i]? = some len ∧
        Loop.Returns (nameBody wire) (nameStart i len.toNat) (text, r.2) ∧
        r.1 = writeAt block 0 text := by
  unfold nameFromWire
  cases hi : wire[i]? with
  | none => simp
  | some len =>
      have hmem : (nameStart i len.toNat).wirePtr ∈ Finset.range wire.length :=
        Finset.mem_range.mpr (List.getElem?_eq_some_iff.mp hi).1
      have hfuel : (Finset.range wire.length).card ≤ wire.length := by simp
      simp only [Option.map_eq_some_iff, Option.some.injEq, exists_and_left, exists_eq_left']
      constructor
      · rintro ⟨⟨text, j⟩, hrun, rfl⟩
        exact ⟨text, ⟨_, hrun⟩, rfl⟩
      · rintro ⟨text, hret, hblock⟩
        refine ⟨(text, r.2), ?_, Prod.ext hblock.symm rfl⟩
        exact ((nameBody_keyed wire).returns_iff_run (nameHop_mem wire) (nameStart_reads hi)
          hmem hfuel).mp hret

/-! ### What a name in a message is

An inductive account of what the loop reads, with which the other modules work. -/

/-- The bytes from offset `p` on are a name with text `t`, and take up `k` bytes
there: labels up to a zero byte or a pointer to where the name goes on. -/
inductive NameAt (wire : Bytes) : Nat → Bytes → Nat → Prop
  | stop {p : Nat} : wire[p]? = some 0 → NameAt wire p [] 1
  | label {p k : Nat} {len next : UInt8} {t : Bytes} : wire[p]? = some len → len.toNat ≠ 0 →
      len.toNat < compressedVal → wire[p + 1 + len.toNat]? = some next →
      NameAt wire (p + 1 + len.toNat) t k →
      NameAt wire p ((wire.drop (p + 1)).take len.toNat
        ++ (if next.toNat ≠ 0 then [dot] else []) ++ t) (1 + len.toNat + k)
  | pointer {p k : Nat} {len off : UInt8} {t : Bytes} : wire[p]? = some len →
      compressedVal ≤ len.toNat → wire[p + 1]? = some off → NameAt wire off.toNat t k →
      NameAt wire p t 2

theorem NameAt.exists_byte {wire : Bytes} {p k : Nat} {t : Bytes} (h : NameAt wire p t k) :
    ∃ len, wire[p]? = some len := by
  cases h with
  | stop h => exact ⟨_, h⟩
  | label h _ _ _ _ => exact ⟨_, h⟩
  | pointer h _ _ _ => exact ⟨_, h⟩

/-- The bytes of the name the decoder's index still has to go past. -/
def NameScan.past (s : NameScan) (k : Nat) : Nat := if s.compressed then 1 else k

theorem nameAt_of_returns {wire : Bytes} {s : NameScan} {r : Bytes × Nat} (hs : s.Reads wire)
    (h : Loop.Returns (nameBody wire) s r) :
    ∃ t k, NameAt wire s.wirePtr t k ∧ r = (s.name ++ t, s.indexp + s.past k) := by
  induction h using Loop.Returns.induct with
  | round s h ih =>
      obtain ⟨b, hb, hlen⟩ := hs
      rcases nameBody_cases wire s with
        ⟨h0, hbody⟩ | ⟨hc, ⟨hbody, -⟩ | hjump⟩ | ⟨h0, hc, ⟨hbody, -⟩ | hskip⟩
      · have hzero : b = 0 := UInt8.toNat_inj.mp (hlen.symm.trans h0)
        refine ⟨[], 1, .stop (hzero ▸ hb), ?_⟩
        rw [(Loop.returns_ret_iff hbody).mp h]
        simp [NameScan.past]
      · exact (Loop.not_returns_fault hbody h).elim
      · obtain ⟨off, len, hoff, hat, hbody⟩ := hjump
        obtain ⟨t, k, hname, hr⟩ := ih (s.jump off len) hbody ⟨len, hat, rfl⟩
        refine ⟨t, 2, .pointer hb (hlen ▸ hc) hoff hname, ?_⟩
        rw [hr]
        simp only [NameScan.jump, NameScan.past, if_true]
        split <;> rfl
      · exact (Loop.not_returns_fault hbody h).elim
      · obtain ⟨next, hnext, hbody⟩ := hskip
        obtain ⟨t, k, hname, hr⟩ := ih (s.skip wire next) hbody ⟨next, hnext, rfl⟩
        rw [hlen] at h0 hc hnext
        have hname : NameAt wire (s.wirePtr + 1 + b.toNat) t k := hlen ▸ hname
        refine ⟨_, _, .label hb h0 hc hnext hname, hr.trans (Prod.ext ?_ ?_)⟩
        · simp only [NameScan.skip, hlen, List.append_assoc]
        · simp only [NameScan.skip, NameScan.past, hlen]
          split <;> omega

theorem returns_of_nameAt {wire : Bytes} {p k : Nat} {t : Bytes} (h : NameAt wire p t k)
    {s : NameScan} (hs : s.Reads wire) (hp : s.wirePtr = p) :
    Loop.Returns (nameBody wire) s (s.name ++ t, s.indexp + s.past k) := by
  induction h generalizing s with
  | @stop p hb =>
      have h0 : s.labelLen = (0 : UInt8).toNat := hs.labelLen (hp ▸ hb)
      have hbody : nameBody wire s = .ret (s.name, s.indexp + 1) := nameBody_of_stop h0
      have hpast : s.past 1 = 1 := by simp [NameScan.past]
      rw [List.append_nil, hpast]
      exact Loop.returns_of_ret hbody
  | @label p k len next t hb h0 hc hnext _ ih =>
      have hlen : s.labelLen = len.toNat := hs.labelLen (hp ▸ hb)
      rw [← hlen] at h0 hc
      rw [← hlen, ← hp] at hnext
      have hbody := nameBody_of_label h0 hc hnext
      have ih := @ih (s.skip wire next) ⟨next, hnext, rfl⟩ (by rw [← hlen, ← hp]; rfl)
      refine Loop.returns_of_next hbody ?_
      convert ih using 2
      · simp only [NameScan.skip, hlen, hp, List.append_assoc]
      · simp only [NameScan.skip, NameScan.past, hlen]
        split <;> omega
  | @pointer p k len off t hb hc hoff hname ih =>
      have hlen : s.labelLen = len.toNat := hs.labelLen (hp ▸ hb)
      rw [← hlen] at hc
      rw [← hp] at hoff
      obtain ⟨len', hat⟩ := hname.exists_byte
      have hbody := nameBody_of_pointer hc hoff hat
      have ih := @ih (s.jump off len') ⟨len', hat, rfl⟩ rfl
      have hidx : (s.jump off len').indexp + (s.jump off len').past k = s.indexp + s.past 2 := by
        cases hc : s.compressed <;> simp [NameScan.jump, NameScan.past, hc]
      rw [hidx] at ih
      exact Loop.returns_of_next hbody ih

/-- **The decoder reads exactly the names there are.** -/
theorem nameFromWire_iff {block wire : Bytes} {i : Nat} {r : Bytes × Nat} :
    nameFromWire block wire i = some r ↔
      ∃ t k, NameAt wire i t k ∧ r = (writeAt block 0 t, i + k) := by
  rw [nameFromWire_eq_some]
  constructor
  · rintro ⟨len, text, hlen, hret, hr⟩
    obtain ⟨t, k, hname, heq⟩ := nameAt_of_returns (nameStart_reads hlen) hret
    obtain ⟨htext, hidx⟩ := Prod.mk.inj heq
    exact ⟨t, k, hname, Prod.ext (hr.trans (by rw [htext]; rfl)) hidx⟩
  · rintro ⟨t, k, hname, rfl⟩
    obtain ⟨len, hlen⟩ := hname.exists_byte
    exact ⟨len, t, hlen, returns_of_nameAt hname (nameStart_reads hlen) rfl, rfl⟩

theorem NameAt.unique {wire t t' : Bytes} {p k k' : Nat} (h : NameAt wire p t k)
    (h' : NameAt wire p t' k') : t = t' ∧ k = k' := by
  have hsome : nameFromWire [] wire p = some (writeAt [] 0 t, p + k) :=
    nameFromWire_iff.mpr ⟨t, k, h, rfl⟩
  obtain ⟨ht, hk⟩ := Prod.mk.inj (Option.some.inj
    (hsome.symm.trans (nameFromWire_iff.mpr ⟨t', k', h', rfl⟩)))
  simp only [writeAt_zero, List.drop_nil, List.append_nil] at ht
  exact ⟨ht, Nat.add_left_cancel hk⟩

/-- No byte from `p` to the first zero byte after it starts a pointer. -/
def LowBytes (wire : Bytes) (p : Nat) : Prop :=
  ∀ b ∈ (wire.drop p).take 1 ++ cstr (wire.drop (p + 1)), b.toNat < compressedVal

theorem NameAt.eq_nil_of_zero {wire t : Bytes} {p k : Nat} (h : NameAt wire p t k)
    (h0 : wire[p]? = some 0) : t = [] := by
  cases h with
  | stop _ => rfl
  | label hlen hne _ _ _ => rw [h0] at hlen; cases hlen; exact (hne rfl).elim
  | pointer hlen hc _ _ => rw [h0] at hlen; cases hlen; exact absurd hc (by decide)

/-- Without pointers a name's text ends, as a string, at the first zero byte. -/
theorem NameAt.length_cstr {wire t : Bytes} {p k : Nat} (h : NameAt wire p t k)
    (hlow : LowBytes wire p) :
    (wire[p]? = some 0 ∧ t = []) ∨
      (wire[p]? ≠ some 0 ∧ (cstr t).length = (cstr (wire.drop (p + 1))).length) := by
  induction h with
  | stop h => exact .inl ⟨h, rfl⟩
  | @label p k len next t hlen h0 hc hnext hname ih =>
      have hp : wire[p]? ≠ some 0 := by
        rw [hlen]
        exact fun h => h0 (by rw [Option.some.inj h]; rfl)
      refine .inr ⟨hp, ?_⟩
      obtain ⟨label, hlabel⟩ : ∃ label, label = (wire.drop (p + 1)).take len.toNat := ⟨_, rfl⟩
      have hdrop : wire.drop (p + 1) = label ++ wire.drop (p + 1 + len.toNat) := by
        rw [hlabel, ← List.drop_drop (i := len.toNat) (j := p + 1), List.take_append_drop]
      have hnext' : wire.drop (p + 1 + len.toNat) = next :: wire.drop (p + 1 + len.toNat + 1) := by
        obtain ⟨hlt, rfl⟩ := List.getElem?_eq_some_iff.mp hnext
        exact List.drop_eq_getElem_cons hlt
      rw [← hlabel, hdrop, List.append_assoc]
      by_cases hzero : (0 : UInt8) ∈ label
      · rw [cstr_append_of_mem hzero, cstr_append_of_mem hzero]
      rw [cstr_append hzero, cstr_append hzero, List.length_append, List.length_append]
      congr 1
      by_cases hn : next = 0
      · -- the name ends here
        rw [hn] at hnext
        rw [hnext', hn, hname.eq_nil_of_zero hnext]
        rfl
      · have hlow' : LowBytes wire (p + 1 + len.toNat) := by
          intro c hc
          refine hlow c (List.mem_append_right _ ?_)
          rw [hdrop, cstr_append hzero, hnext', cstr_cons_of_ne hn]
          rw [hnext'] at hc
          exact List.mem_append_right _ hc
        have hn0 : next.toNat ≠ 0 := fun h => hn (UInt8.toNat_inj.mp h)
        have hdot : dot ≠ 0 := by decide
        rw [if_pos hn0, hnext', cstr_cons_of_ne hn, List.singleton_append, cstr_cons_of_ne hdot,
          List.length_cons, List.length_cons]
        congr 1
        rcases ih hlow' with ⟨h0, -⟩ | ⟨-, hlen⟩
        · rw [hnext] at h0
          exact (hn (Option.some.inj h0)).elim
        · exact hlen
  | @pointer p k len off t hlen hc _ _ _ =>
      obtain ⟨hlt, rfl⟩ := List.getElem?_eq_some_iff.mp hlen
      have hfirst : (wire.drop p).take 1 = [wire[p]] := by
        rw [List.drop_eq_getElem_cons hlt, List.take_succ_cons, List.take_zero]
      have := hlow wire[p]
        (List.mem_append_left _ (by rw [hfirst]; exact List.mem_singleton_self _))
      omega

/-! ### Reading an uncompressed name -/

theorem nameAt_labels {ls : List Bytes} (h : ∀ l ∈ ls, IsLabel l) (pre post : Bytes) :
    NameAt (pre ++ labelsWire ls ++ post) pre.length (labelsText ls) (labelsWire ls).length := by
  induction ls generalizing pre with
  | nil => exact .stop (by simp)
  | cons l ls ih =>
      have hl := h l List.mem_cons_self
      have hls : ∀ x ∈ ls, IsLabel x := fun x hx => h x (List.mem_cons_of_mem _ hx)
      have hnat := hl.toNat_length
      -- the byte after the label: the next length byte, or the zero at the end
      obtain ⟨b, rest, hrest⟩ : ∃ b rest, labelsWire ls = b :: rest := by
        cases ls with
        | nil => exact ⟨0, [], rfl⟩
        | cons l' ls => exact ⟨_, _, labelsWire_cons l' ls⟩
      have hwire : pre ++ labelsWire (l :: ls) ++ post
          = (pre ++ UInt8.ofNat l.length :: l) ++ labelsWire ls ++ post := by
        simp [labelsWire_cons]
      have hpre : (pre ++ UInt8.ofNat l.length :: l).length
          = pre.length + 1 + (UInt8.ofNat l.length).toNat := by
        simp [hnat]; omega
      have hlen : (pre ++ labelsWire (l :: ls) ++ post)[pre.length]?
          = some (UInt8.ofNat l.length) := by
        simp [labelsWire_cons]
      have hnext : (pre ++ labelsWire (l :: ls) ++ post)[
          pre.length + 1 + (UInt8.ofNat l.length).toNat]? = some b := by
        rw [hwire, hrest, List.append_assoc, ← hpre, List.getElem?_append_right (Nat.le_refl _)]
        simp
      have hlabel : ((pre ++ labelsWire (l :: ls) ++ post).drop (pre.length + 1)).take
          (UInt8.ofNat l.length).toNat = l := by
        rw [hwire, show pre ++ UInt8.ofNat l.length :: l = (pre ++ [UInt8.ofNat l.length])
          ++ l by simp, List.append_assoc, List.append_assoc,
          show pre.length + 1 = (pre ++ [UInt8.ofNat l.length]).length by simp, List.drop_left,
          hnat, List.take_left]
      have h0 : (UInt8.ofNat l.length).toNat ≠ 0 := by
        rw [hnat]; exact Nat.pos_iff_ne_zero.mp hl.pos
      have hc : (UInt8.ofNat l.length).toNat < compressedVal := by
        have := hl.le
        rw [hnat, compressedVal]
        omega
      have ih := ih hls (pre ++ UInt8.ofNat l.length :: l)
      rw [← hwire, hpre] at ih
      have hname := NameAt.label hlen h0 hc hnext ih
      rw [hlabel] at hname
      convert hname using 1
      · cases ls with
        | nil => cases hrest; simp
        | cons l' ls =>
            have hl' := hls l' List.mem_cons_self
            have hb : b.toNat ≠ 0 := by
              rw [labelsWire_cons] at hrest
              obtain ⟨rfl, -⟩ := List.cons.inj hrest
              rw [hl'.toNat_length]
              exact Nat.pos_iff_ne_zero.mp hl'.pos
            rw [if_pos hb, labelsText_cons_cons]
            simp
      · rw [labelsWire_cons, hnat]
        simp only [List.length_cons, List.length_append]
        omega

/-- **The decoder reads an uncompressed wire name back as its text.** -/
theorem nameFromWire_wire (block pre post : Bytes) (n : Name) :
    nameFromWire block (pre ++ n.wire ++ post) pre.length
      = some (writeAt block 0 n.text, pre.length + n.wire.length) :=
  nameFromWire_iff.mpr ⟨_, _, nameAt_labels n.ok pre post, rfl⟩

end InternetLabs.Dns
