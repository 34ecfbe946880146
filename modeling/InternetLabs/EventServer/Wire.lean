/-
# `InternetLabs.EventServer.Wire` — what the parser takes from the wire

The parser does not ask `sscanf` how many words it found: a word of the request line
that is not there is what `malloc` happened to return, and a request without a line
is parsed to a slot of `NULL`s.  A request is of one of six kinds (`kind`);
there is a lemma for what each comes to (`SegmentFits.complete` and those behind it).

**When the wire decides** (`Settled`).  All requests are complete, or one of them is
refused before the heap has a say: `settled_iff`.
-/
import InternetLabs.EventServer.Request

namespace InternetLabs.EventServer

open InternetLabs

/-! ## The kinds of requests

Words that a request line does not have are read from the heap.  Whether that matters
depends on which of them are missing. -/

def linesOf (seg : Bytes) : List Bytes := strtokAll isCrlf seg

def firstWords (seg : Bytes) : List Bytes := ((linesOf seg).head?.map words).getD []

/-- What the first line of a request is like.  `short` knows its method, and misses the
version; `wordless` is a line of blanks. -/
inductive Kind where
  | complete
  | blank
  | unknownMethod
  | wrongVersion
  | short
  | wordless
deriving DecidableEq

def kind (seg : Bytes) : Kind :=
  match linesOf seg with
  | [] => .blank
  | line :: _ =>
      match words line with
      | [] => .wordless
      | method :: rest =>
          if method ∉ methods then .unknownMethod
          else match rest with
            | _ :: version :: _ => if version = http11 then .complete else .wrongVersion
            | _ => .short

/-- The words and headers of the requests fit the parser's blocks, and the requests
the array. -/
structure TextFits (segs : List Bytes) : Prop where
  count : segs.length ≤ maxRequests
  wordsFit : ∀ seg ∈ segs, ∀ line ∈ (linesOf seg).head?, WordsFit line
  headersFit : ∀ seg ∈ segs, HeaderLinesFit (linesOf seg).tail

/-- The slot has the first three words of the request, a known method and version. -/
def FromWire (seg : Bytes) (slot : HttpRequest) : Prop :=
  ∃ method uri version rest, firstWords seg = method :: uri :: version :: rest ∧
    slot.method = some method ∧ slot.uri = some uri ∧ slot.version = some version ∧
    method ∈ methods ∧ version = http11

theorem FromWire.kind {seg : Bytes} {slot : HttpRequest} (h : FromWire seg slot) :
    kind seg = .complete := by
  obtain ⟨method, uri, version, rest, hwords, -, -, -, hmethod, hversion⟩ := h
  rw [firstWords] at hwords
  rw [EventServer.kind]
  match hlines : linesOf seg with
  | [] => rw [hlines] at hwords; cases hwords
  | line :: ls =>
      rw [hlines] at hwords
      have hwords : words line = method :: uri :: version :: rest := hwords
      simp only [hwords, if_neg (not_not.mpr hmethod), if_pos hversion]

/-! ## What a request of each kind comes to -/

section Segment
variable {seg : Bytes}

theorem of_mem_segments {text : Bytes} (h : seg ∈ segments text) :
    (0 : UInt8) ∉ seg ∧ seg.length < text.length := by
  induction hn : text.length using Nat.strong_induction_on generalizing text with
  | _ n ih =>
      subst hn
      match hfind : strstr crlfcrlf text with
      | none => rw [segments_of_none hfind] at h; cases h
      | some k =>
          obtain ⟨seg', rest, rfl, rfl, hnul⟩ := exists_segment hfind
          have hlen : (seg' ++ crlfcrlf ++ rest).length = seg'.length + 4 + rest.length := by
            rw [List.length_append, List.length_append]
            rfl
          rw [segments_cons hfind] at h
          rcases List.mem_cons.mp h with rfl | h
          · exact ⟨hnul, by omega⟩
          · obtain ⟨hnul, hlt⟩ := ih rest.length (by omega) h rfl
            exact ⟨hnul, by omega⟩

theorem of_mem_linesOf (hnul : (0 : UInt8) ∉ seg) (hlen : seg.length < bufferMax) :
    ∀ l ∈ linesOf seg, (0 : UInt8) ∉ l ∧ l.length < bufferMax := by
  intro l hl
  have hsub := sublist_of_mem_strtokAll isCrlf seg l hl
  exact ⟨fun h => hnul (hsub.mem h), Nat.lt_of_le_of_lt hsub.length_le hlen⟩

/-- The slot of a request whose words are the ones `seen`. -/
def seenSlot (blocks : Blocks) (line : Bytes) (ls : List Bytes) : HttpRequest where
  method := some (seen blocks.method (words line)[0]?)
  uri := some (seen blocks.uri (words line)[1]?)
  filetype := some (filetypeOf (seen blocks.uri (words line)[1]?))
  version := some (seen blocks.version (words line)[2]?)
  host := hostOf none ls
  headers := some ((storedLines ls).map headerOf)

/-- **A request with a line.** -/
theorem parseSegment_eq_seen (hnul : (0 : UInt8) ∉ seg) (hlen : seg.length < bufferMax)
    {line : Bytes} {ls : List Bytes} (hlines : linesOf seg = line :: ls)
    (blocks : Blocks) (i : Nat) :
    parseSegment blocks i .zero seg =
      if ¬ WordsFit line then .error .undefined
      else if seen blocks.method (words line)[0]? ∉ methods then .error (.status .notImplemented)
      else if maxRequests ≤ i then .error .undefined
      else if seen blocks.version (words line)[2]? ≠ http11 then .error (.status .internalError)
      else if (words line)[1]? = none ∧ (0 : UInt8) ∉ blocks.uri then .error .undefined
      else if ¬ HeaderLinesFit ls then .error .undefined
      else .ok (seenSlot blocks line ls) := by
  have hall := of_mem_linesOf hnul hlen
  rw [hlines] at hall
  obtain ⟨⟨hline, -⟩, hls⟩ := List.forall_mem_cons.mp hall
  have hfirst : lineStep blocks i ⟨true, .zero, []⟩ line
      = (requestLine blocks i line .zero).map fun httpr => ⟨false, httpr, []⟩ := rfl
  rw [parseSegment, show strtokAll isCrlf seg = line :: ls from hlines, List.foldlM_cons, hfirst,
    requestLine_eq_seen blocks i hline]
  by_cases hwords : ¬ WordsFit line
  · rw [if_pos hwords, if_pos hwords]
    rfl
  rw [if_neg hwords, if_neg hwords]
  by_cases hmethod : seen blocks.method (words line)[0]? ∉ methods
  · rw [if_pos hmethod, if_pos hmethod]
    rfl
  rw [if_neg hmethod, if_neg hmethod]
  by_cases hi : maxRequests ≤ i
  · rw [if_pos hi, if_pos hi]
    rfl
  rw [if_neg hi, if_neg hi]
  by_cases hversion : seen blocks.version (words line)[2]? ≠ http11
  · rw [if_pos hversion, if_pos hversion]
    rfl
  rw [if_neg hversion, if_neg hversion]
  by_cases huri : (words line)[1]? = none ∧ (0 : UInt8) ∉ blocks.uri
  · rw [if_pos huri, if_pos huri]
    rfl
  rw [if_neg huri, if_neg huri]
  simp only [Except.map, bind, Except.bind]
  rw [foldlM_lineStep blocks i ls rfl, foldlM_headerLine_eq hls (Nat.zero_le _), List.length_nil,
    Nat.zero_add]
  by_cases hheaders : HeaderLinesFit ls
  · rw [if_pos ⟨hheaders.1, hheaders.2⟩, if_neg (not_not.mpr hheaders)]
    rfl
  · rw [if_neg fun h => hheaders ⟨h.1, h.2⟩, if_pos hheaders]

theorem parseSegment_blank (hlines : linesOf seg = []) (blocks : Blocks) (i : Nat) :
    parseSegment blocks i .zero seg = .ok { HttpRequest.zero with headers := some [] } := by
  rw [parseSegment, show strtokAll isCrlf seg = [] from hlines]
  rfl

/-- The request is within the parser's limits. -/
structure SegmentFits (seg : Bytes) : Prop where
  nul : (0 : UInt8) ∉ seg
  length_lt : seg.length < bufferMax
  wordsFit : ∀ line ∈ (linesOf seg).head?, WordsFit line
  headersFit : HeaderLinesFit (linesOf seg).tail

/-- A request with a line, within the limits. -/
theorem SegmentFits.parse (h : SegmentFits seg) {line : Bytes} {ls : List Bytes}
    (hlines : linesOf seg = line :: ls) (blocks : Blocks) {i : Nat} (hi : i < maxRequests) :
    parseSegment blocks i .zero seg =
      if seen blocks.method (words line)[0]? ∉ methods then .error (.status .notImplemented)
      else if seen blocks.version (words line)[2]? ≠ http11 then .error (.status .internalError)
      else if (words line)[1]? = none ∧ (0 : UInt8) ∉ blocks.uri then .error .undefined
      else .ok (seenSlot blocks line ls) := by
  have hwords := h.wordsFit
  have hheaders := h.headersFit
  rw [hlines] at hwords hheaders
  rw [parseSegment_eq_seen h.nul h.length_lt hlines, if_neg (not_not.mpr (hwords line rfl)),
    if_neg (Nat.not_le_of_lt hi), if_neg (not_not.mpr (show HeaderLinesFit ls from hheaders))]

theorem kind_spec (seg : Bytes) :
    match kind seg with
    | .blank => linesOf seg = []
    | .wordless => ∃ line ls, linesOf seg = line :: ls ∧ words line = []
    | .unknownMethod => ∃ line ls method rest, linesOf seg = line :: ls ∧
        words line = method :: rest ∧ method ∉ methods
    | .short => ∃ line ls method, linesOf seg = line :: ls ∧ (words line)[0]? = some method ∧
        method ∈ methods ∧ (words line)[2]? = none
    | .wrongVersion => ∃ line ls method uri version rest, linesOf seg = line :: ls ∧
        words line = method :: uri :: version :: rest ∧ method ∈ methods ∧ version ≠ http11
    | .complete => ∃ line ls method uri version rest, linesOf seg = line :: ls ∧
        words line = method :: uri :: version :: rest ∧ method ∈ methods ∧ version = http11 := by
  match hlines : linesOf seg with
  | [] =>
      rw [show kind seg = .blank by simp only [kind, hlines]]
  | line :: ls =>
      match hwords : words line with
      | [] =>
          rw [show kind seg = .wordless by simp only [kind, hlines, hwords]]
          exact ⟨line, ls, rfl, hwords⟩
      | method :: rest =>
          by_cases hmethod : method ∈ methods
          swap
          · rw [show kind seg = .unknownMethod by simp only [kind, hlines, hwords, if_pos hmethod]]
            exact ⟨line, ls, method, rest, rfl, hwords, hmethod⟩
          have hknown : ¬ method ∉ methods := not_not.mpr hmethod
          match rest with
          | [] =>
              rw [show kind seg = .short by simp only [kind, hlines, hwords, if_neg hknown]]
              exact ⟨line, ls, method, rfl, by rw [hwords]; rfl, hmethod, by rw [hwords]; rfl⟩
          | [uri] =>
              rw [show kind seg = .short by simp only [kind, hlines, hwords, if_neg hknown]]
              exact ⟨line, ls, method, rfl, by rw [hwords]; rfl, hmethod, by rw [hwords]; rfl⟩
          | uri :: version :: rest =>
              by_cases hversion : version = http11
              · rw [show kind seg = .complete by
                  simp only [kind, hlines, hwords, if_neg hknown, if_pos hversion]]
                exact ⟨line, ls, method, uri, version, rest, rfl, hwords, hmethod, hversion⟩
              · rw [show kind seg = .wrongVersion by
                  simp only [kind, hlines, hwords, if_neg hknown, if_neg hversion]]
                exact ⟨line, ls, method, uri, version, rest, rfl, hwords, hmethod, hversion⟩

/-- A complete request is parsed to a slot from the wire. -/
theorem SegmentFits.complete (h : SegmentFits seg) (hkind : kind seg = .complete)
    (blocks : Blocks) {i : Nat} (hi : i < maxRequests) :
    ∃ slot, parseSegment blocks i .zero seg = .ok slot ∧ FromWire seg slot := by
  have hspec := kind_spec seg
  rw [hkind] at hspec
  obtain ⟨line, ls, method, uri, version, rest, hlines, hwords, hmethod, hversion⟩ := hspec
  refine ⟨seenSlot blocks line ls, ?_, method, uri, version, rest, ?_, ?_, ?_, ?_, hmethod,
    hversion⟩
  · rw [h.parse hlines blocks hi]
    simp [hwords, seen, hmethod, hversion]
  · rw [firstWords, hlines]
    exact hwords
  all_goals simp [seenSlot, hwords, seen]

theorem SegmentFits.unknownMethod (h : SegmentFits seg) (hkind : kind seg = .unknownMethod)
    (blocks : Blocks) {i : Nat} (hi : i < maxRequests) :
    parseSegment blocks i .zero seg = .error (.status .notImplemented) := by
  have hspec := kind_spec seg
  rw [hkind] at hspec
  obtain ⟨line, ls, method, rest, hlines, hwords, hmethod⟩ := hspec
  rw [h.parse hlines blocks hi]
  simp [hwords, seen, hmethod]

theorem SegmentFits.wrongVersion (h : SegmentFits seg) (hkind : kind seg = .wrongVersion)
    (blocks : Blocks) {i : Nat} (hi : i < maxRequests) :
    parseSegment blocks i .zero seg = .error (.status .internalError) := by
  have hspec := kind_spec seg
  rw [hkind] at hspec
  obtain ⟨line, ls, method, uri, version, rest, hlines, hwords, hmethod, hversion⟩ := hspec
  rw [h.parse hlines blocks hi]
  simp [hwords, seen, hmethod, hversion]

/-- A request that misses its version takes it from the heap. -/
theorem SegmentFits.short (h : SegmentFits seg) (hkind : kind seg = .short) (blocks : Blocks)
    {i : Nat} (hi : i < maxRequests) :
    ∃ r, parseSegment blocks i .zero seg =
        (if cstr blocks.version ≠ http11 then .error (.status .internalError) else r) ∧
      (r = .error .undefined ∧ (0 : UInt8) ∉ blocks.uri ∨ ∃ slot, r = .ok slot) := by
  have hspec := kind_spec seg
  rw [hkind] at hspec
  obtain ⟨line, ls, method, hlines, hfirst, hmethod, hthird⟩ := hspec
  rw [h.parse hlines blocks hi, hfirst, hthird,
    if_neg (not_not.mpr (show seen _ _ ∈ _ from hmethod))]
  refine ⟨_, rfl, ?_⟩
  split
  next huri => exact .inl ⟨rfl, huri.2⟩
  · exact .inr ⟨_, rfl⟩

theorem SegmentFits.wordless (h : SegmentFits seg) (hkind : kind seg = .wordless) (blocks : Blocks)
    {i : Nat} (hi : i < maxRequests) :
    ∃ slot, parseSegment blocks i .zero seg =
      if cstr blocks.method ∉ methods then .error (.status .notImplemented)
      else if cstr blocks.version ≠ http11 then .error (.status .internalError)
      else if (0 : UInt8) ∉ blocks.uri then .error .undefined
      else .ok slot := by
  have hspec := kind_spec seg
  rw [hkind] at hspec
  obtain ⟨line, ls, hlines, hwords⟩ := hspec
  refine ⟨seenSlot blocks line ls, ?_⟩
  rw [h.parse hlines blocks hi]
  simp [hwords, seen]

end Segment

/-! ## The whole text

The first request that is refused ends the parse.  Up to there, all that is stored must
be from the wire. -/

/-- **The wire decides.**  All requests are complete; or one has a method that is not
known, behind complete and blank ones; or one has the wrong version, behind complete,
blank and short ones. -/
def Settled (segs : List Bytes) : Prop :=
  (∀ seg ∈ segs, kind seg = .complete) ∨
    ∃ before seg after, segs = before ++ seg :: after ∧
      (kind seg = .unknownMethod ∧ (∀ s ∈ before, kind s = .complete ∨ kind s = .blank) ∨
        kind seg = .wrongVersion ∧
          ∀ s ∈ before, kind s = .complete ∨ kind s = .blank ∨ kind s = .short)

theorem parseSegments_append {heap : Nat → Blocks} {before after : List Bytes} {i : Nat}
    (h : ∀ seg ∈ before, ∀ i < maxRequests, ∃ slot, parseSegment (heap i) i .zero seg = .ok slot)
    (hi : i + before.length ≤ maxRequests) :
    ∃ slots : List HttpRequest, slots.length = before.length ∧
      parseSegments heap i (before ++ after)
        = (parseSegments heap (i + before.length) after).map fun (status, more) =>
            (status, slots ++ more) := by
  induction before generalizing i with
  | nil => exact ⟨[], rfl, by simp⟩
  | cons seg before ih =>
      rw [List.length_cons] at hi
      obtain ⟨hseg, hbefore⟩ := List.forall_mem_cons.mp h
      obtain ⟨slot, hslot⟩ := hseg i (by omega)
      obtain ⟨slots, hlen, hslots⟩ := ih hbefore (i := i + 1) (by omega)
      refine ⟨slot :: slots, by rw [List.length_cons, List.length_cons, hlen], ?_⟩
      rw [List.cons_append, parseSegments, hslot]
      simp only [if_pos (show i < maxRequests by omega), hslots, Option.map_map, List.length_cons,
        Nat.add_comm before.length, ← Nat.add_assoc]
      rfl

/-- Blocks whose last use has left these words in them. -/
def leftBy (method version : Bytes) : Blocks where
  method := (method ++ List.replicate 16 0).take 16
  uri := List.replicate bufferMax 0
  version := (version ++ List.replicate 32 0).take 32
  method_length := by simp
  uri_length := zeroBlocks.uri_length
  version_length := by simp

theorem leftBy_uri (method version : Bytes) : (0 : UInt8) ∈ (leftBy method version).uri := by
  simp [leftBy]

section Text
variable {segs : List Bytes}

/-- Requests that are not refused are taken if the heap has what they miss. -/
theorem SegmentFits.taken {seg : Bytes} (h : SegmentFits seg)
    (hunknown : kind seg ≠ .unknownMethod) (hwrong : kind seg ≠ .wrongVersion) {i : Nat}
    (hi : i < maxRequests) :
    ∃ slot, parseSegment (leftBy (ascii "GET") http11) i .zero seg = .ok slot := by
  have hmethod : ¬ cstr (leftBy (ascii "GET") http11).method ∉ methods := by decide
  have hversion : ¬ cstr (leftBy (ascii "GET") http11).version ≠ http11 := by decide
  match hkind : kind seg with
  | .complete =>
      obtain ⟨slot, hslot, -⟩ := h.complete hkind (leftBy (ascii "GET") http11) hi
      exact ⟨slot, hslot⟩
  | .blank =>
      have hspec := kind_spec seg
      rw [hkind] at hspec
      exact ⟨_, parseSegment_blank hspec _ i⟩
  | .unknownMethod => exact absurd hkind hunknown
  | .wrongVersion => exact absurd hkind hwrong
  | .short =>
      obtain ⟨r, hr, ⟨-, huri⟩ | ⟨slot, rfl⟩⟩ := h.short hkind (leftBy (ascii "GET") http11) hi
      · exact absurd (leftBy_uri _ _) huri
      · exact ⟨slot, by rw [hr, if_neg hversion]⟩
  | .wordless =>
      obtain ⟨slot, hslot⟩ := h.wordless hkind (leftBy (ascii "GET") http11) hi
      exact ⟨slot, by rw [hslot, if_neg hmethod, if_neg hversion,
        if_neg (not_not.mpr (leftBy_uri _ _))]⟩

theorem SegmentFits.taken_always {seg : Bytes} (h : SegmentFits seg)
    (hkind : kind seg = .complete ∨ kind seg = .blank) (blocks : Blocks) {i : Nat}
    (hi : i < maxRequests) : ∃ slot, parseSegment blocks i .zero seg = .ok slot := by
  rcases hkind with hkind | hkind
  · obtain ⟨slot, hslot, -⟩ := h.complete hkind blocks hi
    exact ⟨slot, hslot⟩
  · have hspec := kind_spec seg
    rw [hkind] at hspec
    exact ⟨_, parseSegment_blank hspec blocks i⟩

theorem parseSegments_refused {heap : Nat → Blocks} {before after : List Bytes} {seg : Bytes}
    {status : Status}
    (hbefore : ∀ s ∈ before, ∀ i < maxRequests, ∃ slot, parseSegment (heap i) i .zero s = .ok slot)
    (hseg : ∀ i < maxRequests, parseSegment (heap i) i .zero seg = .error (.status status))
    (hcount : (before ++ seg :: after).length ≤ maxRequests) :
    ∃ slots, parseSegments heap 0 (before ++ seg :: after) = some (status, slots) := by
  rw [List.length_append, List.length_cons] at hcount
  obtain ⟨slots, -, hslots⟩ := @parseSegments_append heap before (seg :: after) 0 hbefore (by omega)
  refine ⟨slots ++ [], ?_⟩
  rw [hslots, parseSegments, hseg _ (by omega)]
  rfl

theorem parseSegments_complete (heap : Nat → Blocks) {i : Nat}
    (hcount : i + segs.length ≤ maxRequests)
    (h : ∀ seg ∈ segs, SegmentFits seg ∧ kind seg = .complete) :
    ∃ slots, parseSegments heap i segs = some (.ok, slots) ∧ List.Forall₂ FromWire segs slots := by
  induction segs generalizing i with
  | nil => exact ⟨[], rfl, .nil⟩
  | cons seg segs ih =>
      rw [List.length_cons] at hcount
      obtain ⟨⟨hfits, hkind⟩, hsegs⟩ := List.forall_mem_cons.mp h
      have hi : i < maxRequests := by omega
      obtain ⟨slot, hslot, hwire⟩ := hfits.complete hkind (heap i) hi
      obtain ⟨slots, hslots, hall⟩ := ih (show i + 1 + segs.length ≤ maxRequests by omega) hsegs
      refine ⟨slot :: slots, ?_, .cons hwire hall⟩
      rw [parseSegments, hslot]
      simp only [if_pos hi, hslots, Option.map_some]

/-- Behind complete, blank and short requests, one with the wrong version answers with
the status a short one may answer with too. -/
theorem parseSegments_wrongVersion {heap : Nat → Blocks} {before after : List Bytes} {seg : Bytes}
    (hbefore : ∀ s ∈ before, SegmentFits s ∧
      (kind s = .complete ∨ kind s = .blank ∨ kind s = .short))
    (hfits : SegmentFits seg) (hseg : kind seg = .wrongVersion) {i : Nat}
    (hcount : i + (before ++ seg :: after).length ≤ maxRequests) {status : Status}
    {slots : List HttpRequest}
    (h : parseSegments heap i (before ++ seg :: after) = some (status, slots)) :
    status = .internalError := by
  induction before generalizing i slots with
  | nil =>
      rw [List.nil_append, List.length_cons] at hcount
      rw [List.nil_append, parseSegments, hfits.wrongVersion hseg (heap i) (by omega)] at h
      cases h
      rfl
  | cons s before ih =>
      rw [List.cons_append, List.length_cons] at hcount
      obtain ⟨⟨hs, hkind⟩, hbefore⟩ := List.forall_mem_cons.mp hbefore
      have hi : i < maxRequests := by omega
      have hnext : (∃ slot, parseSegment (heap i) i .zero s = .ok slot) →
          status = .internalError := by
        rintro ⟨slot, hslot⟩
        rw [List.cons_append, parseSegments, hslot] at h
        simp only [if_pos hi] at h
        obtain ⟨⟨status', slots'⟩, hrest, heq⟩ := Option.map_eq_some_iff.mp h
        cases heq
        exact ih hbefore (show i + 1 + _ ≤ maxRequests by omega) hrest
      rcases hkind with hkind | hkind | hkind
      · exact hnext (hs.taken_always (.inl hkind) _ hi)
      · exact hnext (hs.taken_always (.inr hkind) _ hi)
      · obtain ⟨r, hr, hcases⟩ := hs.short hkind (heap i) hi
        by_cases hversion : cstr (heap i).version ≠ http11
        · rw [if_pos hversion] at hr
          rw [List.cons_append, parseSegments, hr] at h
          cases h
          rfl
        · rw [if_neg hversion] at hr
          rcases hcases with ⟨rfl, -⟩ | ⟨slot, rfl⟩
          · rw [List.cons_append, parseSegments, hr] at h
            cases h
          · exact hnext ⟨slot, hr⟩

theorem exists_first (p : Bytes → Bool) (segs : List Bytes) :
    (∀ seg ∈ segs, p seg = false) ∨ ∃ before seg after, segs = before ++ seg :: after ∧
      p seg = true ∧ ∀ s ∈ before, p s = false := by
  match hfind : segs.find? p with
  | none => exact .inl fun seg hseg => by simpa using List.find?_eq_none.mp hfind seg hseg
  | some seg =>
      obtain ⟨hseg, before, after, hsplit, hbefore⟩ := List.find?_eq_some_iff_append.mp hfind
      exact .inr ⟨before, seg, after, hsplit, hseg, fun s hs => by simpa using hbefore s hs⟩

/-- The slots are the requests' own. -/
def AllFromWire (segs : List Bytes) (slots : List HttpRequest) : Prop :=
  ∀ i < slots.length, ∃ slot seg, slots[i]? = some slot ∧ segs[i]? = some seg ∧ FromWire seg slot

/-- No heap makes a difference to the status. -/
def OneStatus (segs : List Bytes) : Prop :=
  ∀ heap heap' status status' slots slots', parseSegments heap 0 segs = some (status, slots) →
    parseSegments heap' 0 segs = some (status', slots') → status = status'

section Before
variable {before after : List Bytes} {seg : Bytes}
  (hstatus : OneStatus (before ++ seg :: after))
  (hcount : (before ++ seg :: after).length ≤ maxRequests)
include hstatus hcount

/-- No request before `seg` ends the parse with another status on the blocks `blocks`. -/
theorem none_ends {status status' : Status} {heap : Nat → Blocks} {slots : List HttpRequest}
    (hslots : parseSegments heap 0 (before ++ seg :: after) = some (status, slots))
    (hne : status ≠ status') (blocks : Blocks) (p : Bytes → Bool)
    (hpass : ∀ s ∈ before, p s = false → ∀ i < maxRequests,
      ∃ slot, parseSegment blocks i .zero s = .ok slot)
    (hends : ∀ s ∈ before, p s = true → ∀ i < maxRequests,
      parseSegment blocks i .zero s = .error (.status status')) :
    ∀ s ∈ before, p s = false := by
  rcases exists_first p before with hall | ⟨first, s, rest, rfl, hs, hfirst⟩
  · exact hall
  rw [List.append_assoc] at hcount
  obtain ⟨slots', hslots'⟩ := @parseSegments_refused (fun _ => blocks) first (rest ++ seg :: after)
    s status' (fun x hx => hpass x (List.mem_append_left _ hx) (hfirst x hx))
    (hends s (List.mem_append_right _ List.mem_cons_self) hs) hcount
  rw [← List.cons_append, ← List.append_assoc] at hslots'
  exact absurd (hstatus _ _ _ _ _ _ hslots hslots') hne

variable (hfits : ∀ s ∈ before ++ seg :: after, SegmentFits s)
  (hbefore : ∀ s ∈ before, kind s ≠ .unknownMethod ∧ kind s ≠ .wrongVersion)
include hfits hbefore

/-- What stands before a method that is not known is complete or blank. -/
theorem before_unknownMethod (hseg : kind seg = .unknownMethod) :
    ∀ s ∈ before, kind s = .complete ∨ kind s = .blank := by
  have hbeforefits : ∀ s ∈ before, SegmentFits s :=
    fun s hs => hfits s (List.mem_append_left _ hs)
  have hsegfits : SegmentFits seg := hfits seg (List.mem_append_right _ List.mem_cons_self)
  obtain ⟨slots, hslots⟩ := @parseSegments_refused (fun _ => leftBy (ascii "GET") http11) before
    after seg _ (fun s hs i hi => (hbeforefits s hs).taken (hbefore s hs).1 (hbefore s hs).2 hi)
    (fun i hi => hsegfits.unknownMethod hseg _ hi) hcount
  -- on blocks without the version, a request that misses it has another status
  have hmethod : ¬ cstr (leftBy (ascii "GET") []).method ∉ methods := by decide
  have hversion : cstr (leftBy (ascii "GET") []).version ≠ http11 := by decide
  have hkinds := none_ends hstatus hcount hslots
    (show Status.notImplemented ≠ .internalError by decide) (leftBy (ascii "GET") [])
    (fun s => kind s ≠ .complete ∧ kind s ≠ .blank)
    (fun s hs hp i hi => (hbeforefits s hs).taken_always
      (or_iff_not_imp_left.mpr (by simpa using hp)) _ hi)
    fun s hs hp i hi => by
      have hsfits := hbeforefits s hs
      match hkind : kind s with
      | .complete => simp [hkind] at hp
      | .blank => simp [hkind] at hp
      | .unknownMethod => exact absurd hkind (hbefore s hs).1
      | .wrongVersion => exact absurd hkind (hbefore s hs).2
      | .short =>
          obtain ⟨r, hr, -⟩ := hsfits.short hkind (leftBy (ascii "GET") []) hi
          rw [hr, if_pos hversion]
      | .wordless =>
          obtain ⟨slot, hslot⟩ := hsfits.wordless hkind (leftBy (ascii "GET") []) hi
          rw [hslot, if_neg hmethod, if_pos hversion]
  exact fun s hs => or_iff_not_imp_left.mpr (by simpa using hkinds s hs)

/-- What stands before a wrong version is complete, blank or short. -/
theorem before_wrongVersion (hseg : kind seg = .wrongVersion) :
    ∀ s ∈ before, kind s = .complete ∨ kind s = .blank ∨ kind s = .short := by
  have hbeforefits : ∀ s ∈ before, SegmentFits s :=
    fun s hs => hfits s (List.mem_append_left _ hs)
  have hsegfits : SegmentFits seg := hfits seg (List.mem_append_right _ List.mem_cons_self)
  obtain ⟨slots, hslots⟩ := @parseSegments_refused (fun _ => leftBy (ascii "GET") http11) before
    after seg _ (fun s hs i hi => (hbeforefits s hs).taken (hbefore s hs).1 (hbefore s hs).2 hi)
    (fun i hi => hsegfits.wrongVersion hseg _ hi) hcount
  -- on blocks without the method, a line of blanks has another status
  have hmethod : cstr (leftBy [] http11).method ∉ methods := by decide
  have hversion : ¬ cstr (leftBy [] http11).version ≠ http11 := by decide
  have hkinds := none_ends hstatus hcount hslots
    (show Status.internalError ≠ .notImplemented by decide) (leftBy [] http11)
    (fun s => kind s = .wordless)
    (fun s hs hp i hi => by
      have hsfits := hbeforefits s hs
      match hkind : kind s with
      | .complete => exact hsfits.taken_always (.inl hkind) _ hi
      | .blank => exact hsfits.taken_always (.inr hkind) _ hi
      | .unknownMethod => exact absurd hkind (hbefore s hs).1
      | .wrongVersion => exact absurd hkind (hbefore s hs).2
      | .short =>
          obtain ⟨r, hr, ⟨-, huri⟩ | ⟨slot, rfl⟩⟩ := hsfits.short hkind (leftBy [] http11) hi
          · exact absurd (leftBy_uri _ _) huri
          · exact ⟨slot, by rw [hr, if_neg hversion]⟩
      | .wordless => simp [hkind] at hp)
    fun s hs hp i hi => by
      obtain ⟨slot, hslot⟩ := (hbeforefits s hs).wordless (of_decide_eq_true hp)
        (leftBy [] http11) hi
      rw [hslot, if_pos hmethod]
  intro s hs
  have hword := hkinds s hs
  match hkind : kind s with
  | .complete => exact .inl rfl
  | .blank => exact .inr (.inl rfl)
  | .short => exact .inr (.inr rfl)
  | .unknownMethod => exact absurd hkind (hbefore s hs).1
  | .wrongVersion => exact absurd hkind (hbefore s hs).2
  | .wordless => simp [hkind] at hword

end Before

theorem settled_of_wire (hcount : segs.length ≤ maxRequests) (hfits : ∀ seg ∈ segs, SegmentFits seg)
    (hwire : ∀ heap slots, parseSegments heap 0 segs = some (.ok, slots) → AllFromWire segs slots)
    (hstatus : OneStatus segs) : Settled segs := by
  rcases exists_first (fun seg => kind seg = .unknownMethod ∨ kind seg = .wrongVersion) segs with
    hnone | ⟨before, seg, after, rfl, hseg, hbefore⟩
  · -- no request is refused: a heap that has what they miss takes them all
    left
    simp only [decide_eq_false_iff_not, not_or] at hnone
    obtain ⟨slots, hlen, hslots⟩ := @parseSegments_append (fun _ => leftBy (ascii "GET") http11)
      segs [] 0 (fun seg hseg i hi =>
        (hfits seg hseg).taken (hnone seg hseg).1 (hnone seg hseg).2 hi)
      (by rwa [Nat.zero_add])
    rw [List.append_nil] at hslots
    have hall := hwire _ (slots ++ []) hslots
    rw [List.append_nil] at hall
    intro seg hseg
    obtain ⟨i, hi, hget⟩ := List.getElem_of_mem hseg
    obtain ⟨slot, seg', -, hseg', hfrom⟩ := hall i (by omega)
    rw [List.getElem?_eq_getElem hi, Option.some.injEq] at hseg'
    rw [← hget, hseg']
    exact hfrom.kind
  · right
    refine ⟨before, seg, after, rfl, ?_⟩
    simp only [decide_eq_false_iff_not, not_or] at hbefore
    rcases of_decide_eq_true hseg with hunknown | hwrong
    · exact .inl ⟨hunknown, before_unknownMethod hstatus hcount hfits hbefore hunknown⟩
    · exact .inr ⟨hwrong, before_wrongVersion hstatus hcount hfits hbefore hwrong⟩

theorem wire_of_settled (hcount : segs.length ≤ maxRequests)
    (hfits : ∀ seg ∈ segs, SegmentFits seg) (h : Settled segs) :
    (∃ status, ∀ heap status' slots, parseSegments heap 0 segs = some (status', slots) →
      status' = status ∧ (status = .ok → AllFromWire segs slots)) := by
  rcases h with hall | ⟨before, seg, after, rfl, ⟨hunknown, hbefore⟩ | ⟨hwrong, hbefore⟩⟩
  · refine ⟨.ok, fun heap status' slots hslots => ?_⟩
    obtain ⟨slots', hslots', hwire⟩ :=
      parseSegments_complete heap (show 0 + segs.length ≤ _ by omega)
        fun seg hseg => ⟨hfits seg hseg, hall seg hseg⟩
    rw [hslots] at hslots'
    cases hslots'
    refine ⟨rfl, fun _ i hi => ?_⟩
    have hi' : i < segs.length := by rw [hwire.length_eq]; exact hi
    exact ⟨slots[i], segs[i], List.getElem?_eq_getElem hi, List.getElem?_eq_getElem hi',
      (List.forall₂_iff_get.mp hwire).2 i hi' hi⟩
  · refine ⟨.notImplemented, fun heap status' slots hslots => ⟨?_, nofun⟩⟩
    obtain ⟨slots', hslots'⟩ := @parseSegments_refused heap before after seg _
      (fun s hs i hi => (hfits s (List.mem_append_left _ hs)).taken_always (hbefore s hs) _ hi)
      (fun i hi => (hfits seg (List.mem_append_right _ List.mem_cons_self)).unknownMethod hunknown _
        hi) hcount
    rw [hslots] at hslots'
    cases hslots'
    rfl
  · refine ⟨.internalError, fun heap status' slots hslots => ⟨?_, nofun⟩⟩
    exact parseSegments_wrongVersion
      (fun s hs => ⟨hfits s (List.mem_append_left _ hs), hbefore s hs⟩)
      (hfits seg (List.mem_append_right _ List.mem_cons_self)) hwrong (by rwa [Nat.zero_add]) hslots

end Text

/-! ## The parser -/

/-- **What the parser takes comes from the wire, and the heap has no say, exactly when**
the requests in the buffer are `Settled`. -/
theorem settled_iff {c : Client} (hreq : c.requests = List.replicate maxRequests .zero)
    (hnum : c.numRequests = 0) (hlen : c.recvBuf.data.length = bufferMax)
    (hfits : TextFits (segments c.recvBuf.data)) :
    ((∀ heap c', requestToStruct heap c = some (.ok, c') → ∀ i < c'.numRequests, ∃ slot seg,
        c'.requests[i]? = some slot ∧ (segments c.recvBuf.data)[i]? = some seg ∧
        FromWire seg slot) ∧
      ∀ heap heap' status status' c' c'', requestToStruct heap c = some (status, c') →
        requestToStruct heap' c = some (status', c'') → status = status') ↔
      Settled (segments c.recvBuf.data) := by
  have hsegs : ∀ seg ∈ segments c.recvBuf.data, SegmentFits seg := fun seg hseg =>
    ⟨(of_mem_segments hseg).1, hlen ▸ (of_mem_segments hseg).2, hfits.wordsFit seg hseg,
      hfits.headersFit seg hseg⟩
  constructor
  · rintro ⟨hwire, hstatus⟩
    refine settled_of_wire hfits.count hsegs (fun heap slots hslots i hi => ?_)
      fun heap heap' status status' slots slots' h h' => ?_
    · obtain ⟨c', hc', hrequests, hnum'⟩ := exists_requestToStruct hreq hnum hslots
      obtain ⟨slot, seg, hslot, hseg, hfrom⟩ := hwire heap c' hc' i (hnum' ▸ hi)
      rw [hrequests, requestArray_getElem? hi] at hslot
      exact ⟨slot, seg, hslot, hseg, hfrom⟩
    · obtain ⟨c', hc', -⟩ := exists_requestToStruct hreq hnum h
      obtain ⟨c'', hc'', -⟩ := exists_requestToStruct hreq hnum h'
      exact hstatus heap heap' status status' c' c'' hc' hc''
  · intro hsettled
    obtain ⟨status, hall⟩ := wire_of_settled hfits.count hsegs hsettled
    refine ⟨fun heap c' hc' i hi => ?_, fun heap heap' s s' c' c'' hc' hc'' => ?_⟩
    · obtain ⟨slots, hslots, hrequests, hnum'⟩ := requestToStruct_slots hreq hnum hc'
      obtain ⟨rfl, hwire⟩ := hall heap _ slots hslots
      rw [hnum'] at hi
      rw [hrequests, requestArray_getElem? hi]
      exact hwire rfl i hi
    · obtain ⟨slots, hslots, -⟩ := requestToStruct_slots hreq hnum hc'
      obtain ⟨slots', hslots', -⟩ := requestToStruct_slots hreq hnum hc''
      rw [(hall heap s slots hslots).1, (hall heap' s' slots' hslots').1]

/-- A new client that has received `text`. -/
def holding (text : Bytes) : Client :=
  { newClient 0 with recvBuf := {
      data := text ++ List.replicate (bufferMax - text.length) 0
      length := text.length
      maxLength := bufferMax
      position := 0 } }

theorem settled_getRoot : ∃ c' slot seg,
    requestToStruct (fun _ => zeroBlocks) (holding (renderAll [getRoot])) = some (.ok, c') ∧
      c'.requests[0]? = some slot ∧
      (segments (holding (renderAll [getRoot])).recvBuf.data)[0]? = some seg ∧
      FromWire seg slot := by
  have hrun : ((requestToStruct (fun _ => zeroBlocks) (holding (renderAll [getRoot]))).any
      fun r => r.1 == .ok && decide (0 < r.2.numRequests)) = true := by
    decide +kernel
  obtain ⟨⟨status, c'⟩, hc', hok⟩ := (Option.any_eq_true _ _).mp hrun
  simp only [Bool.and_eq_true, beq_iff_eq, decide_eq_true_eq] at hok
  obtain ⟨rfl, hnum⟩ := hok
  have hsettled : Settled (segments (holding (renderAll [getRoot])).recvBuf.data) :=
    .inl (by decide +kernel)
  have hwire := ((settled_iff rfl rfl (by decide +kernel) ⟨by decide +kernel, by decide +kernel,
    by decide +kernel⟩).mpr hsettled).1 _ _ hc' 0 hnum
  obtain ⟨slot, seg, hslot, hseg, hfrom⟩ := hwire
  exact ⟨c', slot, seg, hc', hslot, hseg, hfrom⟩

/-- A request without its version: the status is the heap's. -/
theorem short_not_settled : ¬ ∀ c : Client, c.requests = List.replicate maxRequests .zero →
    c.numRequests = 0 → c.recvBuf.data.length = bufferMax → TextFits (segments c.recvBuf.data) →
    ∀ heap heap' status status' c' c'', requestToStruct heap c = some (status, c') →
      requestToStruct heap' c = some (status', c'') → status = status' := by
  intro hall
  have hrun : ((requestToStruct (fun _ => zeroBlocks) (holding (ascii "GET /" ++ crlfcrlf))).any
        fun r => r.1 == .internalError) = true ∧
      ((requestToStruct (fun _ => leftBy (ascii "GET") http11)
        (holding (ascii "GET /" ++ crlfcrlf))).any fun r => r.1 == .ok) = true := by
    decide +kernel
  obtain ⟨⟨s, c'⟩, hc', hs⟩ := (Option.any_eq_true _ _).mp hrun.1
  obtain ⟨⟨s', c''⟩, hc'', hs'⟩ := (Option.any_eq_true _ _).mp hrun.2
  rw [beq_iff_eq] at hs hs'
  have := hall (holding (ascii "GET /" ++ crlfcrlf)) rfl rfl (by decide +kernel)
    ⟨by decide +kernel, by decide +kernel, by decide +kernel⟩ _ _ _ _ _ _ hc' hc''
  simp only at hs hs'
  rw [hs, hs'] at this
  cases this

end InternetLabs.EventServer
