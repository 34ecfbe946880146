/-
# `InternetLabs.Dns.Bounds` — what `get_question` reads and writes

The decoder takes length bytes up to 191 and pointers from the message and checks
neither against the buffer, so it reads on into what lies behind, `beyond`, and what it
does there is up to those bytes.  `InBounds` says it does not: every byte that a round
touches is one of the request's, the text stays shorter than its block, and the type and
the class behind the name are in the request too.

That is so exactly if the name that stands in the request ends there, with four bytes to
spare, and has a short text (`Contained`): a run that stays in the request does not see
`beyond`, so what it decodes is a name of the request.
-/
import InternetLabs.Dns.Termination

namespace InternetLabs.Dns

/-- The bytes of the message that a round reads. -/
def NameScan.touches (wire : Bytes) (s : NameScan) : List Nat :=
  if s.labelLen = 0 then []
  else if s.labelLen ≥ compressedVal then
    (s.wirePtr + 1) :: (wire[s.wirePtr + 1]?.map UInt8.toNat).toList
  else List.range' (s.wirePtr + 1) (s.labelLen + 1)

/-! ## Runs that stay in the message

A decoder that never reads behind the message cannot tell what lies there; one that does
has faulted on the message alone. -/

section Round
variable {m beyond : Bytes} {s : NameScan}

/-- A round that stays in the message does not depend on what lies behind it. -/
theorem nameBody_append (h : ∀ i ∈ s.touches (m ++ beyond), i < m.length) :
    nameBody (m ++ beyond) s = nameBody m s := by
  by_cases h0 : s.labelLen = 0
  · rw [nameBody_of_stop h0, nameBody_of_stop h0]
  by_cases hc : compressedVal ≤ s.labelLen
  · rw [NameScan.touches, if_neg h0, if_pos hc] at h
    have hlt := h _ List.mem_cons_self
    have hoff : (m ++ beyond)[s.wirePtr + 1]? = some m[s.wirePtr + 1] := by
      rw [List.getElem?_append_left hlt, List.getElem?_eq_getElem hlt]
    have hlt' : m[s.wirePtr + 1].toNat < m.length :=
      h _ (List.mem_cons_of_mem _ (by rw [hoff]; exact List.mem_singleton_self _))
    have hat : (m ++ beyond)[m[s.wirePtr + 1].toNat]? = some m[m[s.wirePtr + 1].toNat] := by
      rw [List.getElem?_append_left hlt', List.getElem?_eq_getElem hlt']
    rw [nameBody_of_pointer hc hoff hat,
      nameBody_of_pointer hc (List.getElem?_eq_getElem hlt) (List.getElem?_eq_getElem hlt')]
  · rw [NameScan.touches, if_neg h0, if_neg hc] at h
    have hlt : s.wirePtr + 1 + s.labelLen < m.length :=
      h _ (List.mem_range'_1.mpr ⟨by omega, by omega⟩)
    have hnext : (m ++ beyond)[s.wirePtr + 1 + s.labelLen]?
        = some m[s.wirePtr + 1 + s.labelLen] := by
      rw [List.getElem?_append_left hlt, List.getElem?_eq_getElem hlt]
    rw [nameBody_of_label h0 (Nat.lt_of_not_le hc) hnext,
      nameBody_of_label h0 (Nat.lt_of_not_le hc) (List.getElem?_eq_getElem hlt)]
    have hlabel : ((m ++ beyond).drop (s.wirePtr + 1)).take s.labelLen
        = (m.drop (s.wirePtr + 1)).take s.labelLen := by
      rw [List.drop_append_of_le_length (by omega), List.take_append_of_le_length
        (by rw [List.length_drop]; omega)]
    rw [NameScan.skip, NameScan.skip, hlabel]

theorem exists_touched_of_fault (h : nameBody m s = .fault) : ∃ i ∈ s.touches m, m.length ≤ i := by
  rcases nameBody_cases m s with ⟨-, hbody⟩ | ⟨hc, ⟨-, hnone⟩ | ⟨off, len, -, -, hbody⟩⟩ |
    ⟨h0, hc, ⟨-, hnone⟩ | ⟨next, -, hbody⟩⟩
  · rw [h] at hbody; cases hbody
  · rw [NameScan.touches, if_neg (ne_zero_of_pointer hc), if_pos hc]
    cases hoff : m[s.wirePtr + 1]? with
    | none => exact ⟨_, List.mem_cons_self, List.getElem?_eq_none_iff.mp hoff⟩
    | some off =>
        exact ⟨off.toNat, List.mem_cons_of_mem _ (List.mem_singleton_self _),
          List.getElem?_eq_none_iff.mp (hnone off hoff)⟩
  · rw [h] at hbody; cases hbody
  · rw [NameScan.touches, if_neg h0, if_neg (Nat.not_le_of_lt hc)]
    exact ⟨_, List.mem_range'_1.mpr ⟨by omega, by omega⟩, List.getElem?_eq_none_iff.mp hnone⟩
  · rw [h] at hbody; cases hbody

end Round

/-- In the state `s` the decoder is about to read the rest of a name of the message, which
makes the text `text` complete. -/
def NameScan.Completes (m text : Bytes) (s : NameScan) : Prop :=
  s.Reads m ∧ ∃ t k, NameAt m s.wirePtr t k ∧ s.name ++ t = text

section Completes
variable {m beyond text : Bytes} {s s' : NameScan}

theorem NameScan.Completes.touches (h : s.Completes m text) :
    ∀ i ∈ s.touches (m ++ beyond), i < m.length := by
  obtain ⟨hs, t, k, hname, -⟩ := h
  cases hname with
  | stop hb =>
      have h0 : s.labelLen = 0 := hs.labelLen hb
      rw [NameScan.touches, if_pos h0]
      nofun
  | @label _ _ len next _ hb h0 hc hnext _ =>
      rw [← hs.labelLen hb] at h0 hc hnext
      have hlt := (List.getElem?_eq_some_iff.mp hnext).1
      rw [NameScan.touches, if_neg h0, if_neg (Nat.not_le_of_lt hc)]
      intro i hi
      have hi := List.mem_range'_1.mp hi
      omega
  | @pointer _ _ len off _ hb hc hoff hname =>
      rw [← hs.labelLen hb] at hc
      have hlt := (List.getElem?_eq_some_iff.mp hoff).1
      obtain ⟨len', hat⟩ := hname.exists_byte
      rw [NameScan.touches, if_neg (ne_zero_of_pointer hc), if_pos hc,
        List.getElem?_append_left hlt, hoff]
      simp only [Option.map_some, Option.toList_some, List.forall_mem_cons]
      exact ⟨hlt, (List.getElem?_eq_some_iff.mp hat).1, nofun⟩

/-- A round keeps it. -/
theorem NameScan.Completes.next (h : s.Completes m text)
    (hbody : nameBody (m ++ beyond) s = .next s') : s'.Completes m text := by
  rw [nameBody_append h.touches] at hbody
  obtain ⟨hs, t, k, hname, htext⟩ := h
  cases hname with
  | stop hb =>
      have h0 : s.labelLen = 0 := hs.labelLen hb
      rw [nameBody_of_stop h0] at hbody
      cases hbody
  | @label _ _ len next _ hb h0 hc hnext hname =>
      have heq := hs.labelLen hb
      rw [← heq] at h0 hc hnext hname
      rw [nameBody_of_label h0 hc hnext] at hbody
      cases hbody
      refine ⟨⟨next, hnext, rfl⟩, _, _, hname, ?_⟩
      rw [← htext, ← heq]
      simp only [NameScan.skip, List.append_assoc]
  | @pointer _ _ len off _ hb hc hoff hname =>
      rw [← hs.labelLen hb] at hc
      obtain ⟨len', hat⟩ := hname.exists_byte
      rw [nameBody_of_pointer hc hoff hat] at hbody
      cases hbody
      exact ⟨⟨len', hat, rfl⟩, _, _, hname, htext⟩

end Completes

namespace Server

/-! ## The question

A bound on what is read gives a bound on what is written, since the text is no longer
than the labels read for it. -/

/-- `get_question` stays in its buffers when `beyond` lies behind the request: the name is
decoded from bytes of the request, its text leaves a byte of the block for the NUL, and the
type and the class are in the request. -/
structure InBounds (request : RequestBuffer) (beyond : Bytes) : Prop where
  rounds : ∀ n s, walk (Loop.advance (nameBody (request.bytes ++ beyond))) n
    (questionScan request) = some s →
      (∀ i ∈ s.touches (request.bytes ++ beyond), i < bufferMax) ∧ s.name.length < bufferMax
  fields : ∀ text indexp, Loop.Returns (nameBody (request.bytes ++ beyond))
    (questionScan request) (text, indexp) → indexp + 4 ≤ bufferMax

/-- The name in the request ends there, four bytes before the end, and has a short text. -/
def Contained (request : RequestBuffer) : Prop :=
  ∃ t k, NameAt request.bytes 12 t k ∧ t.length < bufferMax ∧ 12 + k + 4 ≤ bufferMax

section InBounds
variable {request : RequestBuffer} {beyond : Bytes}

theorem questionScan_reads_bytes (request : RequestBuffer) :
    (questionScan request).Reads request.bytes := by
  have h := questionScan_reads request []
  rwa [List.append_nil] at h

/-- Decoding that stays in the request reads a name of the request. -/
theorem InBounds.returns (h : InBounds request beyond)
    (hends : Loop.Halts (nameBody (request.bytes ++ beyond)) (questionScan request)) :
    ∃ text indexp, Loop.Returns (nameBody (request.bytes ++ beyond)) (questionScan request)
        (text, indexp) ∧
      Loop.Returns (nameBody request.bytes) (questionScan request) (text, indexp) := by
  rcases Loop.returns_or_fault_of_halts hends with ⟨⟨text, indexp⟩, hret⟩ | ⟨n, s, hs, hfault⟩
  · refine ⟨text, indexp, hret, hret.congr fun n s hs => nameBody_append fun i hi => ?_⟩
    rw [request.len]
    exact (h.rounds n s hs).1 i hi
  · obtain ⟨i, hi, hle⟩ := exists_touched_of_fault hfault
    have hlt := (h.rounds n s hs).1 i hi
    rw [List.length_append, request.len] at hle
    omega

theorem InBounds.length_text (h : InBounds request beyond) {text : Bytes} {indexp : Nat}
    (hret : Loop.Returns (nameBody (request.bytes ++ beyond)) (questionScan request)
      (text, indexp)) : text.length < bufferMax := by
  obtain ⟨n, s, hs, hbody⟩ := Loop.returns_iff_walk.mp hret
  have hlt := (h.rounds n s hs).2
  rcases nameBody_cases (request.bytes ++ beyond) s with
    ⟨-, hstop⟩ | ⟨-, ⟨hstop, -⟩ | ⟨off, len, -, -, hstop⟩⟩ | ⟨-, -, ⟨hstop, -⟩ | ⟨next, -, hstop⟩⟩
  all_goals rw [hbody] at hstop; cases hstop
  exact hlt

theorem Contained.inBounds (h : Contained request) : InBounds request beyond := by
  obtain ⟨t, k, hname, hshort, hfields⟩ := h
  have hreads := questionScan_reads_bytes request
  have hcompletes : (questionScan request).Completes request.bytes t := ⟨hreads, t, k, hname, rfl⟩
  have hall : ∀ n s, walk (Loop.advance (nameBody (request.bytes ++ beyond))) n
      (questionScan request) = some s → s.Completes request.bytes t :=
    fun n s hs => Loop.walk_invariant (fun _ _ hs hbody => hs.next hbody) hcompletes hs
  constructor
  case rounds =>
    intro n s hs
    have hs := hall n s hs
    refine ⟨fun i hi => request.len ▸ hs.touches i hi, Nat.lt_of_le_of_lt ?_ hshort⟩
    obtain ⟨-, t', -, -, htext⟩ := hs
    rw [← htext, List.length_append]
    exact Nat.le_add_right _ _
  case fields =>
    intro text indexp hret
    have hret := hret.congr fun n s hs => nameBody_append (hall n s hs).touches
    have huniq := hret.unique (returns_of_nameAt hname hreads rfl)
    rw [(Prod.mk.inj huniq).2]
    exact hfields

/-- **`get_question` stays in its buffers exactly if** the name in the request ends there in
time and is short. -/
theorem inBounds_iff
    (hends : Loop.Halts (nameBody (request.bytes ++ beyond)) (questionScan request)) :
    InBounds request beyond ↔ Contained request := by
  refine ⟨fun h => ?_, Contained.inBounds⟩
  obtain ⟨text, indexp, hret, hret'⟩ := h.returns hends
  obtain ⟨t, k, hname, heq⟩ := nameAt_of_returns (questionScan_reads_bytes request) hret'
  obtain ⟨htext, hindex⟩ := Prod.mk.inj heq
  have hlen := h.length_text hret
  have hfields := h.fields text indexp hret
  rw [htext] at hlen
  rw [hindex] at hfields
  exact ⟨t, k, hname, hlen, hfields⟩

end InBounds

/-- A query for `www`. -/
def wwwDatagram : RequestBuffer :=
  .ofDatagram [0x27, 0xd6, 1, 0, 0, 1, 0, 0, 0, 0, 0, 0, 3, 119, 119, 119, 0, 0, 1, 0, 1]

theorem wwwDatagram_halts :
    Loop.Halts (nameBody (wwwDatagram.bytes ++ [])) (questionScan wwwDatagram) :=
  ⟨2, by
    rw [← Option.isNone_iff_eq_none]
    decide⟩

theorem wwwDatagram_inBounds :
    Loop.Halts (nameBody (wwwDatagram.bytes ++ [])) (questionScan wwwDatagram) ∧
      (InBounds wwwDatagram [] ↔ Contained wwwDatagram) :=
  ⟨wwwDatagram_halts, inBounds_iff wwwDatagram_halts⟩

/-- A query with five labels of 191 bytes, and 60 for the length of the sixth. -/
def longDatagram : RequestBuffer :=
  .ofDatagram ([0x27, 0xd6, 1, 0, 0, 1, 0, 0, 0, 0, 0, 0]
    ++ (List.replicate 5 (191 :: List.replicate 191 97)).flatten ++ [60])

/-- The sixth label of `longDatagram` goes on behind the request. -/
theorem longDatagram_outOfBounds : ¬ ∀ (request : RequestBuffer) (beyond : Bytes),
    isValidRequest request.bytes = true →
    Loop.Halts (nameBody (request.bytes ++ beyond)) (questionScan request) →
      InBounds request beyond := by
  intro hall
  let zeros : Bytes := List.replicate 16 0
  have hvalid : isValidRequest longDatagram.bytes = true := by decide
  have hhalts : Loop.Halts (nameBody (longDatagram.bytes ++ zeros)) (questionScan longDatagram) :=
    ⟨7, by
      rw [← Option.isNone_iff_eq_none]
      decide +kernel⟩
  have htouched : ((walk (Loop.advance (nameBody (longDatagram.bytes ++ zeros))) 5
      (questionScan longDatagram)).map fun s => (s.touches (longDatagram.bytes ++ zeros)).getLast?)
        = some (some 1033) := by
    decide +kernel
  obtain ⟨s, hs, hlast⟩ := Option.map_eq_some_iff.mp htouched
  have hlt := ((hall longDatagram zeros hvalid hhalts).rounds 5 s hs).1 1033
    (List.mem_of_getLast? hlast)
  exact absurd hlt (by decide)

end Server

end InternetLabs.Dns
