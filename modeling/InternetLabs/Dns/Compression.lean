/-
# `InternetLabs.Dns.Compression` — name decompression

`WireName wire p ls k` is a name as the protocol has it: labels up to a zero byte, or
up to a pointer whose fourteen-bit offset is that of a name other than the root.
`NameAt`, which is what `name_ascii_from_wire` reads (`nameFromWire_iff`), takes the
second byte of a pointer for the whole offset.  The two agree on a name up to the first
pointer with an offset from 256 on (`FarAt`), and behind it the decoder reads whatever
name there is at that offset modulo 256.

The text is not ended by a zero byte either: the block has to hold one behind it, which
the server library sees to and the resolver does not.
-/
import InternetLabs.Dns.Codec
import InternetLabs.Dns.Resolver

namespace InternetLabs.Dns

open InternetLabs

/-! ## Names in a message

What a name is by the offsets of its parts, with the whole fourteen bits of a pointer.
The decoder uses eight of them. -/

def pointerOffset (hi lo : UInt8) : Nat := (hi.toNat - compressedVal) * 256 + lo.toNat

theorem pointerOffset_mod (hi lo : UInt8) : pointerOffset hi lo % 256 = lo.toNat := by
  rw [pointerOffset, Nat.mul_add_mod']
  exact Nat.mod_eq_of_lt lo.toNat_lt

/-- At offset `p` there is a label: its length byte and its bytes. -/
structure LabelAt (wire : Bytes) (p : Nat) (l : Bytes) : Prop where
  pos : 0 < l.length
  le : l.length ≤ 63
  lengthByte : wire[p]? = some (UInt8.ofNat l.length)
  bytes : (wire.drop (p + 1)).take l.length = l

/-- At offset `p` there is a compression pointer to `off`. -/
def PointerAt (wire : Bytes) (p off : Nat) : Prop :=
  ∃ hi lo : UInt8, wire[p]? = some hi ∧ compressedVal ≤ hi.toNat ∧ wire[p + 1]? = some lo ∧
    off = pointerOffset hi lo

/-- From offset `p` on there is a name with the labels `ls`, which takes up `k` bytes
there. -/
inductive WireName (wire : Bytes) : Nat → List Bytes → Nat → Prop
  | stop {p : Nat} : wire[p]? = some 0 → WireName wire p [] 1
  | label {p k : Nat} {l : Bytes} {ls : List Bytes} : LabelAt wire p l →
      WireName wire (p + 1 + l.length) ls k → WireName wire p (l :: ls) (1 + l.length + k)
  | pointer {p off k : Nat} {ls : List Bytes} : PointerAt wire p off → ls ≠ [] →
      WireName wire off ls k → WireName wire p ls 2

/-- The name at `p` comes, behind the labels `head`, to a pointer to `off`, the first one
with an offset from 256 on. -/
inductive FarAt (wire : Bytes) : Nat → List Bytes → Nat → Prop
  | here {p off : Nat} : PointerAt wire p off → 256 ≤ off → FarAt wire p [] off
  | label {p off : Nat} {l : Bytes} {head : List Bytes} : LabelAt wire p l →
      FarAt wire (p + 1 + l.length) head off → FarAt wire p (l :: head) off
  | pointer {p near off : Nat} {head : List Bytes} : PointerAt wire p near → near < 256 →
      FarAt wire near head off → FarAt wire p head off

section Names
variable {wire : Bytes} {p off k : Nat} {l t : Bytes} {ls head : List Bytes}

theorem LabelAt.toNat_length (h : LabelAt wire p l) : (UInt8.ofNat l.length).toNat = l.length := by
  have := h.le
  rw [UInt8.toNat_ofNat']
  exact Nat.mod_eq_of_lt (by omega)

theorem PointerAt.first (h : PointerAt wire p off) :
    ∃ b : UInt8, wire[p]? = some b ∧ compressedVal ≤ b.toNat := by
  obtain ⟨hi, -, hhi, hc, -⟩ := h
  exact ⟨hi, hhi, hc⟩

/-- What stands at an offset is a label or a pointer, and not both. -/
theorem LabelAt.not_pointerAt (h : LabelAt wire p l) : ¬ PointerAt wire p off := by
  intro hp
  obtain ⟨b, hb, hc⟩ := hp.first
  rw [h.lengthByte] at hb
  obtain rfl := Option.some.inj hb
  rw [h.toNat_length, compressedVal] at hc
  have := h.le
  omega

theorem PointerAt.unique {off' : Nat} (h : PointerAt wire p off) (h' : PointerAt wire p off') :
    off = off' := by
  obtain ⟨hi, lo, hhi, -, hlo, rfl⟩ := h
  obtain ⟨hi', lo', hhi', -, hlo', rfl⟩ := h'
  rw [hhi] at hhi'
  rw [hlo] at hlo'
  cases hhi'
  cases hlo'
  rfl

theorem LabelAt.unique {l' : Bytes} (h : LabelAt wire p l) (h' : LabelAt wire p l') : l = l' := by
  have hlen := h.lengthByte
  rw [h'.lengthByte] at hlen
  have hlen : l'.length = l.length := by
    rw [← h.toNat_length, ← h'.toNat_length, Option.some.inj hlen]
  rw [← h.bytes, ← h'.bytes, hlen, h.bytes]

theorem PointerAt.ne_zero (h : PointerAt wire p off) : wire[p]? ≠ some 0 := by
  intro h0
  obtain ⟨b, hb, hc⟩ := h.first
  rw [h0] at hb
  obtain rfl := Option.some.inj hb
  exact absurd hc (by decide)

theorem LabelAt.ne_zero (h : LabelAt wire p l) : wire[p]? ≠ some 0 := by
  intro h0
  have hnat := h.toNat_length
  rw [h.lengthByte] at h0
  rw [Option.some.inj h0] at hnat
  exact Nat.ne_of_lt h.pos hnat

theorem wireName_label_iff (hl : LabelAt wire p l) :
    WireName wire p ls k ↔ ∃ (ls' : List Bytes) (k' : Nat), ls = l :: ls' ∧
      WireName wire (p + 1 + l.length) ls' k' ∧ k = 1 + l.length + k' := by
  constructor
  · intro h
    cases h with
    | stop h0 => exact (hl.ne_zero h0).elim
    | label hl' hrest =>
        obtain rfl := hl.unique hl'
        exact ⟨_, _, rfl, hrest, rfl⟩
    | pointer hp _ _ => exact (hl.not_pointerAt hp).elim
  · rintro ⟨ls', k', rfl, hrest, rfl⟩
    exact .label hl hrest

theorem wireName_pointer_iff (hp : PointerAt wire p off) :
    WireName wire p ls k ↔ ls ≠ [] ∧ (∃ k', WireName wire off ls k') ∧ k = 2 := by
  constructor
  · intro h
    cases h with
    | stop h0 => exact (hp.ne_zero h0).elim
    | label hl _ => exact (hl.not_pointerAt hp).elim
    | pointer hp' hne hrest =>
        obtain rfl := hp.unique hp'
        exact ⟨hne, ⟨_, hrest⟩, rfl⟩
  · rintro ⟨hne, ⟨k', hrest⟩, rfl⟩
    exact .pointer hp hne hrest

/-- A name begins with a zero byte if it is the root. -/
theorem WireName.first (h : WireName wire p ls k) :
    ∃ b : UInt8, wire[p]? = some b ∧ (b.toNat = 0 ↔ ls = []) := by
  cases h with
  | stop h => exact ⟨0, h, iff_of_true rfl rfl⟩
  | label hl _ =>
      refine ⟨_, hl.lengthByte, iff_of_false ?_ (List.cons_ne_nil _ _)⟩
      rw [hl.toNat_length]
      exact Nat.ne_of_gt hl.pos
  | pointer hp hne _ =>
      obtain ⟨b, hb, hc⟩ := hp.first
      exact ⟨b, hb, iff_of_false (Nat.ne_of_gt (Nat.lt_of_lt_of_le (by decide) hc)) hne⟩

theorem FarAt.first (h : FarAt wire p head off) : ∃ b : UInt8, wire[p]? = some b ∧ b.toNat ≠ 0 := by
  have hptr : ∀ {off : Nat}, PointerAt wire p off → ∃ b : UInt8, wire[p]? = some b ∧
      b.toNat ≠ 0 := by
    intro off hp
    obtain ⟨b, hb, hc⟩ := hp.first
    exact ⟨b, hb, Nat.ne_of_gt (Nat.lt_of_lt_of_le (by decide) hc)⟩
  cases h with
  | here hp _ => exact hptr hp
  | label hl _ =>
      refine ⟨_, hl.lengthByte, ?_⟩
      rw [hl.toNat_length]
      exact Nat.ne_of_gt hl.pos
  | pointer hp _ _ => exact hptr hp

/-! ### What the decoder reads -/

theorem nameAt_label_iff (hl : LabelAt wire p l) :
    NameAt wire p t k ↔ ∃ (next : UInt8) (t' : Bytes) (k' : Nat),
      wire[p + 1 + l.length]? = some next ∧ NameAt wire (p + 1 + l.length) t' k' ∧
      t = l ++ (if next.toNat ≠ 0 then [dot] else []) ++ t' ∧ k = 1 + l.length + k' := by
  have hnat := hl.toNat_length
  have hle := hl.le
  have hpos := hl.pos
  constructor
  · intro h
    cases h with
    | stop h0 => exact (hl.ne_zero h0).elim
    | label hlen _ _ hnext hname =>
        rw [hl.lengthByte] at hlen
        obtain rfl := Option.some.inj hlen
        rw [hnat] at hnext hname ⊢
        rw [hl.bytes]
        exact ⟨_, _, _, hnext, hname, rfl, rfl⟩
    | pointer hlen hc hoff _ => exact (hl.not_pointerAt ⟨_, _, hlen, hc, hoff, rfl⟩).elim
  · rintro ⟨next, t', k', hnext, hname, rfl, rfl⟩
    have h := @NameAt.label wire p k' (UInt8.ofNat l.length) next t' hl.lengthByte (by omega)
      (by rw [hnat, compressedVal]; omega) (by rw [hnat]; exact hnext) (by rw [hnat]; exact hname)
    rwa [hnat, hl.bytes] at h

theorem nameAt_pointer_iff (hp : PointerAt wire p off) :
    NameAt wire p t k ↔ (∃ k', NameAt wire (off % 256) t k') ∧ k = 2 := by
  have hp' := hp
  obtain ⟨hi, lo, hhi, hc, hlo, rfl⟩ := hp'
  rw [pointerOffset_mod]
  constructor
  · intro h
    cases h with
    | stop h0 => exact (hp.ne_zero h0).elim
    | label hlen _ hlow _ _ =>
        rw [hhi] at hlen
        obtain rfl := Option.some.inj hlen
        omega
    | pointer hlen _ hoff hname =>
        rw [hhi] at hlen
        rw [hlo] at hoff
        obtain rfl := Option.some.inj hlen
        obtain rfl := Option.some.inj hoff
        exact ⟨⟨_, hname⟩, rfl⟩
  · rintro ⟨⟨k', hname⟩, rfl⟩
    exact .pointer hhi hc hlo hname

/-- **Without a far pointer the decoder reads the name.** -/
theorem WireName.nameAt (h : WireName wire p ls k) (hfar : ∀ head off, ¬ FarAt wire p head off) :
    NameAt wire p (labelsText ls) k := by
  induction h with
  | stop h => exact .stop h
  | @label p k l ls hl hrest ih =>
      obtain ⟨b, hb, hzero⟩ := hrest.first
      refine (nameAt_label_iff hl).mpr ⟨b, labelsText ls, k, hb,
        ih fun head off h => hfar (l :: head) off (.label hl h), ?_, rfl⟩
      cases ls with
      | nil => rw [if_neg (not_not.mpr (hzero.mpr rfl))]; simp
      | cons l' ls =>
          rw [if_pos fun h0 => absurd (hzero.mp h0) (List.cons_ne_nil _ _), labelsText_cons_cons]
          simp
  | @pointer p off k ls hp hne hrest ih =>
      have hnear : off < 256 := Nat.lt_of_not_le fun hle => hfar [] off (.here hp hle)
      refine (nameAt_pointer_iff hp).mpr ⟨⟨k, ?_⟩, rfl⟩
      rw [Nat.mod_eq_of_lt hnear]
      exact ih fun head off' h => hfar head off' (.pointer hp hnear h)

/-- The name goes on where its far pointer leads. -/
theorem FarAt.rest (hfar : FarAt wire p head off) (h : WireName wire p ls k) :
    ∃ (rest : List Bytes) (k' : Nat), ls = head ++ rest ∧ rest ≠ [] ∧
    WireName wire off rest k' := by
  induction hfar generalizing ls k with
  | here hp _ =>
      obtain ⟨hne, ⟨k', hrest⟩, -⟩ := (wireName_pointer_iff hp).mp h
      exact ⟨ls, k', rfl, hne, hrest⟩
  | label hl _ ih =>
      obtain ⟨ls', k', rfl, hrest, -⟩ := (wireName_label_iff hl).mp h
      obtain ⟨rest, k₁, rfl, hne, hname⟩ := ih hrest
      exact ⟨rest, k₁, rfl, hne, hname⟩
  | pointer hp _ _ ih =>
      obtain ⟨-, ⟨k', hrest⟩, -⟩ := (wireName_pointer_iff hp).mp h
      exact ih hrest

/-- **With a far pointer the decoder reads on at the offset modulo 256.** -/
theorem FarAt.nameAt_iff {j : Nat} (hfar : FarAt wire p head off) (h : WireName wire p ls k) :
    NameAt wire p t j ↔ (∃ (t' : Bytes) (k' : Nat), NameAt wire (off % 256) t' k' ∧
      t = leadText head ++ t') ∧ j = k := by
  induction hfar generalizing ls k t j with
  | here hp _ =>
      obtain ⟨-, -, rfl⟩ := (wireName_pointer_iff hp).mp h
      rw [nameAt_pointer_iff hp]
      constructor
      · rintro ⟨⟨k', hname⟩, rfl⟩
        exact ⟨⟨t, k', hname, rfl⟩, rfl⟩
      · rintro ⟨⟨t', k', hname, rfl⟩, rfl⟩
        exact ⟨⟨k', hname⟩, rfl⟩
  | @label p off l head hl hfar ih =>
      obtain ⟨ls', k', rfl, hrest, rfl⟩ := (wireName_label_iff hl).mp h
      obtain ⟨b, hb, hne⟩ := hfar.first
      rw [nameAt_label_iff hl]
      constructor
      · rintro ⟨next, t₁, k₁, hnext, hname, rfl, rfl⟩
        obtain ⟨⟨t', k₂, hto, rfl⟩, rfl⟩ := (ih hrest).mp hname
        obtain rfl := Option.some.inj (hb.symm.trans hnext)
        refine ⟨⟨t', k₂, hto, ?_⟩, rfl⟩
        rw [if_pos hne, leadText_cons]
        simp
      · rintro ⟨⟨t', k₂, hto, rfl⟩, rfl⟩
        refine ⟨b, leadText head ++ t', k', hb, (ih hrest).mpr ⟨⟨t', k₂, hto, rfl⟩, rfl⟩, ?_, rfl⟩
        rw [if_pos hne, leadText_cons]
        simp
  | pointer hp hnear _ ih =>
      obtain ⟨-, ⟨k', hrest⟩, rfl⟩ := (wireName_pointer_iff hp).mp h
      rw [nameAt_pointer_iff hp, Nat.mod_eq_of_lt hnear]
      constructor
      · rintro ⟨⟨k₁, hname⟩, rfl⟩
        exact ⟨((ih hrest).mp hname).1, rfl⟩
      · rintro ⟨hto, rfl⟩
        exact ⟨⟨k', (ih hrest).mpr ⟨hto, rfl⟩⟩, rfl⟩

end Names

/-! ## What the block holds

The decoder writes no NUL behind the text.  In the server the block is cleared; in the
resolver it is as `malloc` returns it. -/

/-- What `name_ascii_from_wire` has returned is the text of `ls`, in a block it has not
left, and the index `i`. -/
def Spells (read : Option (Bytes × Nat)) (ls : List Bytes) (i : Nat) : Prop :=
  ∃ block : Bytes, read = some (block, i) ∧ block.length = bufferMax ∧
    labelsText ls ++ [0] <+: block

/-- `name_ascii_from_wire` of the resolver in a block that holds `heap`. -/
def Resolver.nameAsciiFromHeap (heap wire : Bytes) (indexp : Nat) : Option (Bytes × Nat) :=
  nameFromWire heap wire indexp

/-- No pointer of the name has an offset from 256 on, and the block holds a zero byte
behind the text; or there is such a pointer, and what the message has at that offset
modulo 256, with what the block holds behind it, spells the rest of the name. -/
def Decodes (block wire : Bytes) (p : Nat) (ls : List Bytes) : Prop :=
  ((∀ head off, ¬ FarAt wire p head off) ∧ block[(labelsText ls).length]? = some 0) ∨
    ∃ (head : List Bytes) (off : Nat) (t : Bytes) (k : Nat), FarAt wire p head off ∧
      NameAt wire (off % 256) t k ∧ (leadText head ++ t).length ≤ bufferMax ∧
      labelsText (ls.drop head.length) ++ [0] <+: t ++ block.drop (leadText head ++ t).length

section Block
variable {wire block : Bytes} {p k : Nat} {ls : List Bytes}

theorem spells_iff (hblock : block.length = bufferMax) :
    Spells (nameFromWire block wire p) ls (p + k) ↔ ∃ t, NameAt wire p t k ∧ t.length ≤ bufferMax ∧
      labelsText ls ++ [0] <+: t ++ block.drop t.length := by
  constructor
  · rintro ⟨b, hread, hlen, hpre⟩
    obtain ⟨t, k', hname, heq⟩ := nameFromWire_iff.mp hread
    obtain ⟨rfl, hk⟩ := Prod.mk.inj heq
    obtain rfl := Nat.add_left_cancel hk
    rw [length_writeAt, hblock, Nat.zero_add] at hlen
    rw [writeAt_zero] at hpre
    exact ⟨t, hname, by omega, hpre⟩
  · rintro ⟨t, hname, hfits, hpre⟩
    refine ⟨writeAt block 0 t, nameFromWire_iff.mpr ⟨t, k, hname, rfl⟩, ?_, ?_⟩
    · rw [length_writeAt, hblock, Nat.zero_add, Nat.max_eq_left hfits]
    · rwa [writeAt_zero]

theorem prefix_self_iff {t : Bytes} :
    t ++ [0] <+: t ++ block.drop t.length ↔ block[t.length]? = some 0 := by
  have hat : block[t.length]? = (block.drop t.length)[0]? := by rw [List.getElem?_drop]; rfl
  rw [List.prefix_append_right_inj, hat]
  cases block.drop t.length with
  | nil => simp
  | cons b bs => simp [List.cons_prefix_cons, eq_comm]

/-- **When a block holds the text of a name.** -/
theorem spells_iff_decodes (h : WireName wire p ls k) (hblock : block.length = bufferMax) :
    Spells (nameFromWire block wire p) ls (p + k) ↔ Decodes block wire p ls := by
  rw [spells_iff hblock]
  constructor
  · rintro ⟨t, hname, hfits, hpre⟩
    by_cases hfar : ∀ head off, ¬ FarAt wire p head off
    · obtain ⟨rfl, -⟩ := hname.unique (h.nameAt hfar)
      exact .inl ⟨hfar, prefix_self_iff.mp hpre⟩
    · simp only [not_forall, not_not] at hfar
      obtain ⟨head, off, hfar⟩ := hfar
      obtain ⟨rest, -, rfl, hne, -⟩ := hfar.rest h
      obtain ⟨⟨t', k', hto, rfl⟩, -⟩ := (hfar.nameAt_iff h).mp hname
      refine .inr ⟨head, off, t', k', hfar, hto, hfits, ?_⟩
      rw [labelsText_append head hne, List.append_assoc, List.append_assoc,
        List.prefix_append_right_inj] at hpre
      rwa [List.drop_left]
  · rintro (⟨hfar, hzero⟩ | ⟨head, off, t, k', hfar, hto, hfits, hpre⟩)
    · refine ⟨labelsText ls, h.nameAt hfar, ?_, prefix_self_iff.mpr hzero⟩
      have := (List.getElem?_eq_some_iff.mp hzero).1
      omega
    · obtain ⟨rest, -, rfl, hne, -⟩ := hfar.rest h
      refine ⟨leadText head ++ t, (hfar.nameAt_iff h).mpr ⟨⟨t, k', hto, rfl⟩, rfl⟩, hfits, ?_⟩
      rw [labelsText_append head hne, List.append_assoc, List.append_assoc,
        List.prefix_append_right_inj]
      rwa [List.drop_left] at hpre

/-- Two blocks with nothing in common do not both hold the byte behind a text. -/
theorem decodes_all_iff : (∀ heap : Bytes, heap.length = bufferMax → Decodes heap wire p ls) ↔
    ∃ (head : List Bytes) (off : Nat) (t : Bytes) (k : Nat), FarAt wire p head off ∧
      NameAt wire (off % 256) t k ∧ (leadText head ++ t).length ≤ bufferMax ∧
      labelsText (ls.drop head.length) ++ [0] <+: t := by
  constructor
  · intro h
    obtain ⟨hfar, hzero⟩ | ⟨head, off, t, k, hfar, hto, hfits, hpre⟩ :=
      h (List.replicate bufferMax 1) List.length_replicate
    · rw [List.getElem?_replicate] at hzero
      split at hzero <;> cases hzero
    · refine ⟨head, off, t, k, hfar, hto, hfits, ?_⟩
      rw [List.drop_replicate] at hpre
      refine List.prefix_of_prefix_length_le hpre (List.prefix_append _ _) ?_
      -- the zero byte is not one of the block's ones
      by_contra hlong
      rw [List.length_append, List.length_singleton] at hlong
      obtain ⟨rest, hrest⟩ := hpre
      have hzero : (labelsText (ls.drop head.length) ++ [0] ++ rest)[
          (labelsText (ls.drop head.length)).length]? = some 0 := by simp
      rw [hrest, List.getElem?_append_right (by omega), List.getElem?_replicate] at hzero
      split at hzero <;> cases hzero
  · rintro ⟨head, off, t, k, hfar, hto, hfits, hpre⟩ heap -
    exact .inr ⟨head, off, t, k, hfar, hto, hfits, hpre.trans (List.prefix_append _ _)⟩

/-- **Name decompression.**  Both decoders return the labels of a name joined by dots,
whatever their block held, and an index just past the name, if and only if the name comes
to a far pointer and what stands at its offset modulo 256 happens to spell the rest and
a zero byte behind it.  For one block the two cases of `Decodes` say when. -/
theorem nameAsciiFromWire_decompresses_iff (h : WireName wire p ls k) :
    (Spells (Server.nameAsciiFromWire wire p) ls (p + k) ∧
          (∀ heap : Bytes, heap.length = bufferMax →
            Spells (Resolver.nameAsciiFromHeap heap wire p) ls (p + k)) ↔
        ∃ (head : List Bytes) (off : Nat) (t : Bytes) (k : Nat), FarAt wire p head off ∧
          NameAt wire (off % 256) t k ∧ (leadText head ++ t).length ≤ bufferMax ∧
          labelsText (ls.drop head.length) ++ [0] <+: t) ∧
      (Spells (Server.nameAsciiFromWire wire p) ls (p + k)
        ↔ Decodes (List.replicate bufferMax 0) wire p ls) ∧
      ∀ heap : Bytes, heap.length = bufferMax →
        (Spells (Resolver.nameAsciiFromHeap heap wire p) ls (p + k) ↔ Decodes heap wire p ls) := by
  have hserver : Spells (Server.nameAsciiFromWire wire p) ls (p + k)
      ↔ Decodes (List.replicate bufferMax 0) wire p ls :=
    spells_iff_decodes h List.length_replicate
  have hresolver : ∀ heap : Bytes, heap.length = bufferMax →
      (Spells (Resolver.nameAsciiFromHeap heap wire p) ls (p + k) ↔ Decodes heap wire p ls) :=
    fun heap => spells_iff_decodes h
  refine ⟨?_, hserver, hresolver⟩
  rw [← decodes_all_iff, forall₂_congr hresolver, hserver]
  exact and_iff_right_of_imp fun hall => hall _ List.length_replicate

end Block

/-! ### Names it does not read -/

/-- A message whose only labels stand at offset 256, with a pointer to them at 259. -/
def farMessage : Bytes := List.replicate 256 0 ++ [1, 97, 0, 0xC1, 0]

theorem farMessage_name : WireName farMessage 259 [[97]] 2 := by
  have hlabel : LabelAt farMessage 256 [97] := ⟨by decide, by decide, by decide, by decide⟩
  have hptr : PointerAt farMessage 259 256 :=
    ⟨0xC1, 0, by decide, by decide, by decide, by decide⟩
  exact .pointer hptr (by decide) (.label hlabel (.stop (by decide)))

/-- The far pointer is taken for one to offset 0, and a used block runs on behind the text. -/
theorem farMessage_misread : farMessage.length ≤ bufferMax ∧ WireName farMessage 259 [[97]] 2 ∧
    ¬ Spells (Server.nameAsciiFromWire farMessage 259) [[97]] (259 + 2) ∧
    WireName [1, 97, 0] 0 [[97]] 3 ∧
    ¬ Spells (Resolver.nameAsciiFromHeap (List.replicate bufferMax 1) [1, 97, 0] 0) [[97]] 3 := by
  refine ⟨by decide +kernel, farMessage_name, ?_, ?_, ?_⟩
  · rintro ⟨b, hread, -, hpre⟩
    have hroot : Server.nameAsciiFromWire farMessage 259
        = some (List.replicate bufferMax 0, 261) := by
      decide +kernel
    rw [hroot] at hread
    obtain ⟨rfl, -⟩ := Prod.mk.inj (Option.some.inj hread)
    revert hpre
    decide
  · exact .label ⟨by decide, by decide, rfl, rfl⟩ (.stop rfl)
  · rintro ⟨b, hread, -, hpre⟩
    have htext : Resolver.nameAsciiFromHeap (List.replicate bufferMax 1) [1, 97, 0] 0
        = some (97 :: List.replicate 1023 1, 3) := by
      decide +kernel
    rw [htext] at hread
    obtain ⟨rfl, -⟩ := Prod.mk.inj (Option.some.inj hread)
    revert hpre
    decide

theorem farMessage_decompresses_iff :
    (Spells (Server.nameAsciiFromWire farMessage 259) [[97]] (259 + 2) ∧
          (∀ heap : Bytes, heap.length = bufferMax →
            Spells (Resolver.nameAsciiFromHeap heap farMessage 259) [[97]] (259 + 2)) ↔
        ∃ (head : List Bytes) (off : Nat) (t : Bytes) (k : Nat), FarAt farMessage 259 head off ∧
          NameAt farMessage (off % 256) t k ∧ (leadText head ++ t).length ≤ bufferMax ∧
          labelsText ([[97]].drop head.length) ++ [0] <+: t) ∧
      (Spells (Server.nameAsciiFromWire farMessage 259) [[97]] (259 + 2)
        ↔ Decodes (List.replicate bufferMax 0) farMessage 259 [[97]]) ∧
      ∀ heap : Bytes, heap.length = bufferMax →
        (Spells (Resolver.nameAsciiFromHeap heap farMessage 259) [[97]] (259 + 2)
          ↔ Decodes heap farMessage 259 [[97]]) :=
  nameAsciiFromWire_decompresses_iff farMessage_name

end InternetLabs.Dns
