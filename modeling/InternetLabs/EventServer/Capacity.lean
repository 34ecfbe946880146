/-
# `InternetLabs.EventServer.Capacity` — the fixed sizes of the event server

The receive buffer has `BUFFER_MAX` bytes, a client `MAX_REQUESTS` slots, a request
`HEADER_MAX` headers, and the text of `str_replace` 1024 bytes.  `ReceiveWithin` says
that a call of `receive_requests` keeps to them on its way: with every piece that
arrives, at every line and at every slot it stores.  The source checks none of them:
the call keeps to them exactly if what has arrived fits (`ReceiveFits`).

`capacity_iff` is the same for whole runs of a client.  A call the model has no result
for ends the run (`none`).
-/
import InternetLabs.Lib.System
import InternetLabs.EventServer.Wire
import InternetLabs.EventServer.Lifecycle

namespace InternetLabs.EventServer

open InternetLabs

/-! ## On the way of a parse

The sizes as the parser meets them: before each store, there must be room for what is
stored. -/

/-- A line keeps to the sizes: a known method goes to a slot of the array, a header to
an entry of the request's headers, and its name through the block of `str_replace`. -/
def LineWithin (blocks : Blocks) (slot : Nat) (s : Lines) (line : Bytes) : Prop :=
  if s.first then
    ∀ method uri version, scanWord blocks.method (words line)[0]? = .ok method →
      scanWord blocks.uri (words line)[1]? = .ok uri →
      scanWord blocks.version (words line)[2]? = .ok version →
      cstr method ∈ methods → slot < maxRequests
  else
    ∀ name value, scanWord (List.replicate bufferMax 0) (words line)[0]? = .ok name →
      scanWord (List.replicate bufferMax 0) (words line)[1]? = .ok value →
      cstr name ≠ ascii "Host:" →
      (strReplace (cstr name) (ascii ":") []).isSome ∧ s.headers.length < headerMax

/-- The lines of a request keep to the sizes, one after the other. -/
def LinesWithin (blocks : Blocks) (slot : Nat) (s : Lines) : List Bytes → Prop
  | [] => True
  | line :: lines => LineWithin blocks slot s line ∧
      match lineStep blocks slot s line with
      | .ok s' => LinesWithin blocks slot s' lines
      | .error _ => True

/-- The requests keep to the sizes: the lines of each do, and one that is taken is
counted as one of `MAX_REQUESTS`. -/
def SegmentsWithin (heap : Nat → Blocks) (slot : Nat) : List Bytes → Prop
  | [] => True
  | seg :: segs => LinesWithin (heap slot) slot ⟨true, .zero, []⟩ (linesOf seg) ∧
      match parseSegment (heap slot) slot .zero seg with
      | .ok _ => slot + 1 ≤ maxRequests ∧ SegmentsWithin heap (slot + 1) segs
      | .error _ => True

section Defined
variable {blocks : Blocks} {slot : Nat} {s : Lines}

end Defined

/-! ## What fits

The same sizes, told from the text that has arrived and the blocks the heap gives. -/

/-- The first line of a request has a method the parser knows, in words that fit their
blocks; a request without a line passes too. -/
def MethodKnown (blocks : Blocks) (seg : Bytes) : Prop :=
  ∀ line ∈ (linesOf seg).head?, WordsFit line ∧ seen blocks.method (words line)[0]? ∈ methods

/-- The rest of the first line is taken too: the version is `HTTP/1.1`, and the URI ends. -/
def LineTaken (blocks : Blocks) (seg : Bytes) : Prop :=
  MethodKnown blocks seg ∧ ∀ line ∈ (linesOf seg).head?,
    seen blocks.version (words line)[2]? = http11 ∧
      ¬ ((words line)[1]? = none ∧ (0 : UInt8) ∉ blocks.uri)

/-- The requests fit, up to the first one that is not taken. -/
def SegmentsFit (heap : Nat → Blocks) (slot : Nat) : List Bytes → Prop
  | [] => True
  | seg :: segs => (MethodKnown (heap slot) seg → slot < maxRequests) ∧
      (LineTaken (heap slot) seg →
        HeaderLinesFit (linesOf seg).tail ∧ SegmentsFit heap (slot + 1) segs)

section Decide
variable (blocks : Blocks) (seg : Bytes)

instance : Decidable (MethodKnown blocks seg) :=
  inferInstanceAs (Decidable (∀ line ∈ (linesOf seg).head?, _))

instance : Decidable (LineTaken blocks seg) := inferInstanceAs (Decidable (_ ∧ _))

instance (heap : Nat → Blocks) : (slot : Nat) → (segs : List Bytes) →
    Decidable (SegmentsFit heap slot segs)
  | _, [] => isTrue trivial
  | slot, _ :: segs =>
      have := instDecidableSegmentsFit heap (slot + 1) segs
      inferInstanceAs (Decidable (_ ∧ _))

end Decide

/-! ## A parse keeps to the sizes if the text fits -/

section Parse
variable {blocks : Blocks} {slot : Nat} {seg line : Bytes} {ls : List Bytes} {s : Lines}

theorem lineWithin_first (hline : (0 : UInt8) ∉ line) (hfirst : s.first = true) :
    LineWithin blocks slot s line ↔
      (WordsFit line ∧ seen blocks.method (words line)[0]? ∈ methods → slot < maxRequests) := by
  rw [LineWithin, if_pos hfirst]
  rcases scanWords_eq blocks hline with
    ⟨hfit, hundef⟩ | ⟨hfit, method, uri, version, hm, hu, hv, hcm, -⟩
  · refine ⟨fun _ hno => absurd hno.1 hfit, fun _ method uri version hm hu hv => ?_⟩
    have := hundef Unit fun _ _ _ => .ok ()
    rw [hm, hu, hv] at this
    cases this
  · rw [← hcm]
    constructor
    · rintro h ⟨-, hknown⟩
      exact h method uri version hm hu hv hknown
    · intro h method' uri' version' hm' _ _ hknown
      cases hm.symm.trans hm'
      exact h ⟨hfit, hknown⟩

theorem lineWithin_header (hline : (0 : UInt8) ∉ line) (hlen : line.length < bufferMax)
    (hfirst : s.first = false) :
    LineWithin blocks slot s line ↔
      (¬ IsHost line → (headerOf line).name.length < 1024 ∧ s.headers.length < headerMax) := by
  obtain ⟨name, hname, hcname⟩ := scanWord_header hline hlen 0
  obtain ⟨value, hvalue, -⟩ := scanWord_header hline hlen 1
  have hcname : cstr name = headerName line := hcname
  have hnul : (0 : UInt8) ∉ headerName line := hcname ▸ zero_notMem_cstr name
  have hfits : (strReplace (headerName line) (ascii ":") []).isSome
      ↔ (headerOf line).name.length < 1024 := by
    rw [strReplace_colons hnul]
    show _ ↔ ((headerName line).filter (· ≠ 58)).length < 1024
    split
    next hlt => exact ⟨fun _ => hlt, fun _ => rfl⟩
    next hlt => exact ⟨nofun, fun hlt' => absurd hlt' hlt⟩
  rw [LineWithin, if_neg (by rw [hfirst]; decide), ← hfits]
  constructor
  · intro h hhost
    have hwithin := h name value hname hvalue (by rw [hcname]; exact hhost)
    rwa [hcname] at hwithin
  · intro h name' value' hname' _ hhost
    cases hname.symm.trans hname'
    rw [hcname] at hhost ⊢
    exact h hhost

/-- **The header lines.** -/
theorem headerLinesWithin_iff (hls : ∀ l ∈ ls, (0 : UInt8) ∉ l ∧ l.length < bufferMax)
    (hfirst : s.first = false) (hcount : s.headers.length ≤ headerMax) :
    LinesWithin blocks slot s ls ↔
      (∀ l ∈ storedLines ls, (headerOf l).name.length < 1024) ∧
        s.headers.length + (storedLines ls).length ≤ headerMax := by
  induction ls generalizing s with
  | nil => exact ⟨fun _ => ⟨nofun, hcount⟩, fun _ => trivial⟩
  | cons l ls ih =>
      obtain ⟨⟨hnul, hlen⟩, hls⟩ := List.forall_mem_cons.mp hls
      have hstep : lineStep blocks slot s l = headerLine l s := by
        rw [lineStep, hfirst]
        rfl
      rw [LinesWithin, lineWithin_header hnul hlen hfirst, hstep, headerLine_eq_header hnul hlen]
      by_cases hhost : IsHost l
      · rw [if_pos hhost, storedLines_cons_host hhost]
        have hrest := @ih { s with httpr := { s.httpr with host := some (headerOf l).value } } hls
          hfirst hcount
        exact ⟨fun h => hrest.mp h.2, fun h => ⟨absurd hhost, hrest.mpr h⟩⟩
      rw [if_neg hhost, storedLines_cons hhost, List.forall_mem_cons, List.length_cons]
      by_cases hfits : (headerOf l).name.length < 1024 ∧ s.headers.length < headerMax
      swap
      · refine ⟨fun h => absurd (h.1 hhost) hfits, fun h => absurd ⟨h.1.1, ?_⟩ hfits⟩
        have := h.2
        omega
      rw [if_pos hfits]
      have hrest := @ih { s with headers := s.headers ++ [headerOf l] } hls hfirst
        (by rw [List.length_append, List.length_singleton]; exact hfits.2)
      rw [List.length_append, List.length_singleton, Nat.add_right_comm, Nat.add_assoc] at hrest
      constructor
      · intro h
        obtain ⟨hnames, hlen⟩ := hrest.mp h.2
        exact ⟨⟨hfits.1, hnames⟩, hlen⟩
      · intro h
        exact ⟨fun _ => hfits, hrest.mpr ⟨h.1.2, h.2⟩⟩

/-- The lines of a request, and whether it is taken, when there is a line. -/
theorem segmentWithin_iff (hnul : (0 : UInt8) ∉ seg) (hlen : seg.length < bufferMax)
    (hlines : linesOf seg = line :: ls) :
    (LinesWithin blocks slot ⟨true, .zero, []⟩ (linesOf seg) ↔
      (MethodKnown blocks seg → slot < maxRequests) ∧ (LineTaken blocks seg → HeaderLinesFit ls)) ∧
    (slot < maxRequests → ((∃ httpr, parseSegment blocks slot .zero seg = .ok httpr) ↔
      LineTaken blocks seg ∧ HeaderLinesFit ls)) := by
  have hall := of_mem_linesOf hnul hlen
  rw [hlines] at hall
  obtain ⟨⟨hline, -⟩, hls⟩ := List.forall_mem_cons.mp hall
  have hknown : MethodKnown blocks seg ↔
      WordsFit line ∧ seen blocks.method (words line)[0]? ∈ methods := by
    rw [MethodKnown, hlines]
    exact ⟨fun h => h line rfl, fun h l hl => by cases hl; exact h⟩
  have htaken : LineTaken blocks seg ↔ MethodKnown blocks seg ∧
      seen blocks.version (words line)[2]? = http11 ∧
        ¬ ((words line)[1]? = none ∧ (0 : UInt8) ∉ blocks.uri) := by
    rw [LineTaken, hlines]
    exact ⟨fun h => ⟨h.1, h.2 line rfl⟩, fun h => ⟨h.1, fun l hl => by cases hl; exact h.2⟩⟩
  have hfirst : lineStep blocks slot ⟨true, .zero, []⟩ line
      = (requestLine blocks slot line .zero).map fun httpr => ⟨false, httpr, []⟩ := rfl
  rw [hlines, LinesWithin, lineWithin_first hline rfl, hfirst,
    requestLine_eq_seen blocks slot hline, parseSegment_eq_seen hnul hlen hlines, ← hknown]
  -- the branches of the request line, in its order
  by_cases hwords : WordsFit line
  swap
  · have hno : ¬ MethodKnown blocks seg := fun h => hwords (hknown.mp h).1
    have hno' : ¬ LineTaken blocks seg := fun h => hno (htaken.mp h).1
    simp [hwords, hno, hno', Except.map]
  by_cases hmethod : seen blocks.method (words line)[0]? ∈ methods
  swap
  · have hno : ¬ MethodKnown blocks seg := fun h => hmethod (hknown.mp h).2
    have hno' : ¬ LineTaken blocks seg := fun h => hno (htaken.mp h).1
    simp [hwords, hmethod, hno, hno', Except.map]
  have hyes : MethodKnown blocks seg := hknown.mpr ⟨hwords, hmethod⟩
  by_cases hslot : slot < maxRequests
  swap
  · simp [hyes, hslot]
  have hslot' : ¬ maxRequests ≤ slot := Nat.not_le_of_lt hslot
  by_cases hversion : seen blocks.version (words line)[2]? = http11
  swap
  · have hno' : ¬ LineTaken blocks seg := fun h => hversion (htaken.mp h).2.1
    simp [hwords, hmethod, hslot, hslot', hversion, hno', Except.map]
  by_cases huri : (words line)[1]? = none ∧ (0 : UInt8) ∉ blocks.uri
  · have hno' : ¬ LineTaken blocks seg := fun h => (htaken.mp h).2.2 huri
    simp [hwords, hmethod, hslot, hslot', hversion, huri, hno', Except.map]
  have hyes' : LineTaken blocks seg := htaken.mpr ⟨hyes, hversion, huri⟩
  rw [if_neg (not_not.mpr hwords), if_neg (not_not.mpr hmethod), if_neg hslot',
    if_neg (not_not.mpr hversion), if_neg huri]
  refine ⟨⟨fun h => ⟨h.1, fun _ => ?_⟩, fun h => ⟨h.1, ?_⟩⟩, fun _ => ?_⟩
  · have := (headerLinesWithin_iff hls rfl (Nat.zero_le _)).mp h.2
    rw [List.length_nil, Nat.zero_add] at this
    exact this
  · refine (headerLinesWithin_iff hls rfl (Nat.zero_le _)).mpr ?_
    rw [List.length_nil, Nat.zero_add]
    exact h.2 hyes'
  · rw [if_neg (not_not.mpr hwords), if_neg (not_not.mpr hmethod), if_neg hslot',
      if_neg (not_not.mpr hversion), if_neg huri]
    by_cases hheaders : HeaderLinesFit ls
    · rw [if_neg (not_not.mpr hheaders)]
      exact ⟨fun _ => ⟨hyes', hheaders⟩, fun _ => ⟨_, rfl⟩⟩
    · rw [if_pos hheaders]
      exact ⟨nofun, fun h => absurd h.2 hheaders⟩

/-- **The requests of a text** keep to the sizes exactly if they fit. -/
theorem segmentsWithin_iff {heap : Nat → Blocks} {segs : List Bytes}
    (hsegs : ∀ seg ∈ segs, (0 : UInt8) ∉ seg ∧ seg.length < bufferMax) :
    SegmentsWithin heap slot segs ↔ SegmentsFit heap slot segs := by
  induction segs generalizing slot with
  | nil => exact Iff.rfl
  | cons seg segs ih =>
      obtain ⟨⟨hnul, hlen⟩, hsegs⟩ := List.forall_mem_cons.mp hsegs
      rw [SegmentsWithin, SegmentsFit]
      match hlines : linesOf seg with
      | [] =>
          have hknown : MethodKnown (heap slot) seg := by
            rw [MethodKnown, hlines]
            exact nofun
          have htaken : LineTaken (heap slot) seg := by
            rw [LineTaken, hlines]
            exact ⟨hknown, nofun⟩
          simp only [parseSegment_blank hlines, ih hsegs]
          exact ⟨fun h => ⟨fun _ => h.2.1, fun _ => ⟨⟨nofun, Nat.zero_le _⟩, h.2.2⟩⟩,
            fun h => ⟨trivial, h.1 hknown, (h.2 htaken).2⟩⟩
      | line :: ls =>
          obtain ⟨hlinesWithin, hok⟩ :=
            @segmentWithin_iff (heap slot) slot seg line ls hnul hlen hlines
          rw [hlines] at hlinesWithin
          rw [hlinesWithin, List.tail_cons]
          match hparse : parseSegment (heap slot) slot .zero seg with
          | .ok httpr =>
              have hlt : slot < maxRequests := by
                by_contra hge
                rw [parseSegment_eq_seen hnul hlen hlines] at hparse
                split at hparse
                · cases hparse
                · split at hparse
                  · cases hparse
                  · rw [if_pos (Nat.le_of_not_lt hge)] at hparse
                    cases hparse
              obtain ⟨htaken, hheaders⟩ := (hok hlt).mp ⟨httpr, hparse⟩
              simp only [ih hsegs]
              exact ⟨fun h => ⟨fun _ => hlt, fun _ => ⟨hheaders, h.2.2⟩⟩,
                fun h => ⟨⟨fun _ => hlt, fun _ => hheaders⟩, hlt, (h.2 htaken).2⟩⟩
          | .error stop =>
              refine ⟨fun h => ⟨h.1.1, fun htaken => ?_⟩,
                fun h => ⟨⟨h.1, fun ht => (h.2 ht).1⟩, trivial⟩⟩
              obtain ⟨httpr, hbad⟩ := (hok (h.1.1 htaken.1)).mpr ⟨htaken, h.1.2 htaken⟩
              rw [hparse] at hbad
              cases hbad

end Parse

/-! ## A call of `receive_requests` -/

/-- A call of `receive_requests` keeps to the sizes: the buffer has room for a NUL behind
what has arrived, with every piece, and the parse keeps to them. -/
structure ReceiveWithin (env : RecvEnv) (c : Client) : Prop where
  recv : ∀ script, script <+: env.script → ∃ ret c₁, recvData script c = some (ret, c₁) ∧
    c₁.recvBuf.length < c₁.recvBuf.maxLength
  parse : ∀ c₁, recvData env.script c = some (0, c₁) → strstr crlfcrlf c₁.recvBuf.data ≠ none →
    SegmentsWithin env.heap c₁.numRequests (segments c₁.recvBuf.data)

/-- What has arrived leaves room in the buffer, and its requests fit; they are not looked
at if `recv` fails. -/
structure ReceiveFits (env : RecvEnv) (c : Client) : Prop where
  recv : (c.recvBuf.contents ++ delivered env.script).length < bufferMax
  parse : recvFails env.script = false →
    SegmentsFit env.heap 0 (segments (c.recvBuf.contents ++ delivered env.script))

theorem delivered_mono {s script : List RecvOutcome} (h : s <+: script) :
    delivered s <+: delivered script := by
  induction script generalizing s with
  | nil =>
      rw [List.prefix_nil.mp h]
  | cons o script ih =>
      cases s with
      | nil => exact List.nil_prefix
      | cons o' s =>
          obtain ⟨rfl, hs⟩ := List.cons_prefix_cons.mp h
          cases o' with
          | data bytes now => exact (List.prefix_append_right_inj bytes).mpr (ih hs)
          | interrupted serverRunning =>
              cases serverRunning with
              | true =>
                  show delivered s <+: delivered script
                  exact ih hs
              | false => exact List.prefix_refl _
          | wouldBlock => exact List.prefix_refl _
          | closed => exact List.prefix_refl _
          | failed => exact List.prefix_refl _

theorem Receiving.contents {p : Bytes} {c : Client} (h : Receiving p c) :
    c.recvBuf.contents = p := by
  rw [Buffer.contents, h.data, h.length, List.take_left]

/-- **A call keeps to the sizes** exactly if what has arrived fits. -/
theorem receiveWithin_iff {env : RecvEnv} {c : Client} {p : Bytes} (hp : Receiving p c)
    (hmax : c.recvBuf.maxLength = bufferMax) : ReceiveWithin env c ↔ ReceiveFits env c := by
  have harrived : ∀ script, (p ++ delivered script).length < bufferMax →
      ∃ c₁, recvData script c = some (if recvFails script then 1 else 0, c₁) ∧
        Receiving (p ++ delivered script) c₁ ∧ c₁.recvBuf.maxLength = bufferMax := by
    intro script hlt
    have hall := recvData_arrived hp script
    rw [if_pos (Nat.le_of_lt hlt)] at hall
    obtain ⟨c₁, hrecv, hc₁⟩ := hall
    refine ⟨c₁, hrecv, hc₁, ?_⟩
    obtain ⟨data, length, lastActive, rfl⟩ := recvData_frame hrecv
    exact hmax
  have hsegments : ∀ c₁, Receiving (p ++ delivered env.script) c₁ →
      (p ++ delivered env.script).length < bufferMax →
      segments c₁.recvBuf.data = segments (p ++ delivered env.script) := by
    intro c₁ hc₁ hlt
    obtain ⟨zeros, -, hdata⟩ := hc₁.data_eq hlt
    rw [hdata, segments_append_zero]
  have hfit : ∀ seg ∈ segments (p ++ delivered env.script),
      (p ++ delivered env.script).length < bufferMax → (0 : UInt8) ∉ seg ∧ seg.length < bufferMax :=
    fun seg hseg hlt => ⟨(of_mem_segments hseg).1, (of_mem_segments hseg).2.trans hlt⟩
  constructor
  · intro h
    have hlt : (p ++ delivered env.script).length < bufferMax := by
      obtain ⟨ret, c₁, hrecv, hlt⟩ := h.recv env.script (List.prefix_refl _)
      have hall := recvData_arrived hp env.script
      split at hall
      · obtain ⟨c₂, hrecv₂, hc₂⟩ := hall
        cases hrecv.symm.trans hrecv₂
        obtain ⟨data, length, lastActive, rfl⟩ := recvData_frame hrecv₂
        rw [hc₂.length] at hlt
        exact hlt.trans_eq hmax
      · rw [hall] at hrecv
        cases hrecv
    refine ⟨by rw [hp.contents]; exact hlt, fun hfails => ?_⟩
    obtain ⟨c₁, hrecv, hc₁, -⟩ := harrived env.script hlt
    rw [hfails] at hrecv
    rw [hp.contents, ← segmentsWithin_iff (fun seg hseg => hfit seg hseg hlt)]
    by_cases hfind : strstr crlfcrlf c₁.recvBuf.data = none
    · rw [← hsegments c₁ hc₁ hlt, segments_of_none hfind]
      trivial
    · have hparse := h.parse c₁ hrecv hfind
      rwa [hc₁.numRequests, hsegments c₁ hc₁ hlt] at hparse
  · intro h
    have hlt := h.recv
    rw [hp.contents] at hlt
    refine ⟨fun script hscript => ?_, fun c₁ hrecv hfind => ?_⟩
    · have hle := (delivered_mono hscript).length_le
      simp only [List.length_append] at hlt
      obtain ⟨c₁, hrecv, hc₁, hmax₁⟩ := harrived script (by rw [List.length_append]; omega)
      refine ⟨_, c₁, hrecv, ?_⟩
      rw [hc₁.length, hmax₁, List.length_append]
      omega
    · obtain ⟨c₂, hrecv₂, hc₂, -⟩ := harrived env.script hlt
      have hsame := Option.some.inj (hrecv.symm.trans hrecv₂)
      obtain rfl : c₁ = c₂ := congrArg Prod.snd hsame
      have hfails : recvFails env.script = false := by
        cases hf : recvFails env.script with
        | false => rfl
        | true => rw [hf] at hsame; cases hsame
      rw [hc₂.numRequests, hsegments c₁ hc₂ hlt,
        segmentsWithin_iff (fun seg hseg => hfit seg hseg hlt), ← hp.contents]
      exact h.parse hfails

/-! ## The runs of a client

A batch begins with an empty buffer and an empty array, and what a call receives comes
behind what has arrived before. -/

/-- A call the event loop makes on a client. -/
inductive Call where
  | receive (env : RecvEnv)
  | send (env : SendEnv)

/-- The calls on a client, one after the other: `receive_requests` while it receives,
`send_responses` while it sends.  `none` is behind a call that is undefined. -/
def clientSystem : System (Option Client) Call where
  init s := ∃ now, s = some (newClient now)
  step
    | .receive env, s, s' => ∃ c, s = some c ∧ c.state = .receivingHeaders ∧
        s' = (receiveRequests env c).map Prod.snd
    | .send env, s, s' => ∃ c, s = some c ∧ (c.state = .sendingHeaders ∨ c.state = .sendingBody) ∧
        match (sendResponses env c).ending with
        | .returned _ c' => s' = some c'
        | .sending => False
        | .undefined => s' = none

/-- The client keeps to the sizes. -/
structure Client.Within (c : Client) : Prop where
  recvBuf : c.recvBuf.length < c.recvBuf.maxLength
  numRequests : c.numRequests ≤ maxRequests
  headers : ∀ slot ∈ c.parsed, ∀ headers ∈ slot.headers, headers.length ≤ headerMax

/-- The call keeps to the sizes on its way; `send_responses` stores nothing. -/
def CallWithin : Option Client → Call → Prop
  | some c, .receive env => ReceiveWithin env c
  | _, _ => True

/-- What the call receives fits. -/
def CallFits : Option Client → Call → Prop
  | some c, .receive env => ReceiveFits env c
  | _, _ => True

/-- The headers of a parsed slot are counted. -/
theorem HttpRequest.Parsed.headers {slot : HttpRequest} (h : slot.Parsed) :
    ∀ headers ∈ slot.headers, headers.length ≤ headerMax := by
  obtain ⟨blocks, i, seg, hparse⟩ := h
  have hall : Parses (fun slot : HttpRequest => ∀ headers ∈ slot.headers,
      headers.length ≤ headerMax) (parseSegment blocks i .zero seg) := by
    refine Parses.map (P := fun lines : Lines => lines.headers.length ≤ headerMax) ?_
      fun lines hlines headers hheaders => Option.some.inj hheaders ▸ hlines
    refine Parses.foldlM (P := fun lines : Lines => lines.headers.length ≤ headerMax)
      (fun lines line hlines => ?_) (Nat.zero_le _) _
    unfold lineStep
    split
    · exact requestLine_parses.map fun _ _ => hlines
    · refine (scanWord_parses _ _).bind fun name _ => (scanWord_parses _ _).bind fun value _ => ?_
      split
      · exact hlines
      · split
        · exact nofun
        · split
          next hlt =>
            show (lines.headers ++ [_]).length ≤ headerMax
            rw [List.length_append, List.length_singleton]
            exact hlt
          · exact nofun
  rw [hparse] at hall
  exact hall

section Run
variable {c c' : Client}

theorem Reach.within (h : Reach c) (hlength : c.recvBuf.length < c.recvBuf.maxLength) :
    c.Within where
  recvBuf := hlength
  numRequests := h.lifecycle.numRequests
  headers slot hslot := (h.lifecycle.parsed slot hslot).headers

theorem takeRequests_recvBuf {heap : Nat → Blocks} {w : World}
    (h : takeRequests heap w c = some c') :
    c'.recvBuf.length = c.recvBuf.length ∧ c'.recvBuf.maxLength = c.recvBuf.maxLength := by
  obtain ⟨status, c₁, c₂, hparse, hbuild, rfl⟩ := takeRequests_spec h
  obtain ⟨data, requests, numRequests, rfl⟩ := requestToStruct_frame hparse
  have hframe := (buildHeader_frame hbuild).recvBuf
  simp only at hframe ⊢
  rw [hframe]
  exact ⟨rfl, rfl⟩

/-- What a call of `receive_requests` leaves in the buffer is what `recv_data` does. -/
theorem receiveRequests_recvBuf {env : RecvEnv} {ret : Nat}
    (h : receiveRequests env c = some (ret, c')) : ∃ r c₁, recvData env.script c = some (r, c₁) ∧
      c'.recvBuf.length = c₁.recvBuf.length ∧ c'.recvBuf.maxLength = c₁.recvBuf.maxLength := by
  obtain ⟨r, c₁, hrecv, hcases⟩ := receiveRequests_cases h
  refine ⟨r, c₁, hrecv, ?_⟩
  rcases hcases with ⟨-, -, rfl⟩ | ⟨-, -, ⟨-, -, rfl⟩ | ⟨-, -, htake⟩⟩
  · exact ⟨rfl, rfl⟩
  · exact ⟨rfl, rfl⟩
  · exact takeRequests_recvBuf htake

theorem sendRule_recvBuf (n : Nat) : SendRule fun c =>
    c.recvBuf.maxLength = bufferMax ∧ c.recvBuf.length ≤ n where
  advance h _ _ := h
  disconnect h := h
  body h _ hbuild := by
    have hframe := (buildBody_frame hbuild).1.recvBuf
    rw [hframe]
    exact h
  header h _ _ hbuild := by
    rw [(buildHeader_frame hbuild).recvBuf]
    exact h
  finish h _ := ⟨h.1, Nat.zero_le _⟩

theorem Reach.recvMax (h : Reach c) : c.recvBuf.maxLength = bufferMax := by
  induction h with
  | new now => rfl
  | receive hc hstate h ih =>
      obtain ⟨r, c₁, hrecv, -, hmax⟩ := receiveRequests_recvBuf h
      obtain ⟨data, length, lastActive, rfl⟩ := recvData_frame hrecv
      exact hmax.trans ih
  | send hc hstate h ih =>
      exact ((sendRule_recvBuf _).sendResponses ⟨ih, Nat.le_refl _⟩ h).1

theorem receive_run (env : RecvEnv) :
    clientSystem.Run [(some (newClient 0), .receive env)]
      ((receiveRequests env (newClient 0)).map Prod.snd) := by
  have hstart : clientSystem.Run [] (some (newClient 0)) := .start ⟨0, rfl⟩
  exact hstart.step ⟨newClient 0, rfl, rfl, rfl⟩

/-- **The sizes hold along a run** of a client, on the way of every call and between
them, exactly if what each call receives fits. -/
theorem capacity_iff {past : List (Option Client × Call)} {s : Option Client}
    (h : clientSystem.Run past s) :
    ((∀ x ∈ past, CallWithin x.1 x.2) ∧
        System.Always (fun s => ∀ c ∈ s, c.Within) past s) ↔ ∀ x ∈ past, CallFits x.1 x.2 := by
  refine System.Run.during_iff (I := fun s => ∀ c ∈ s, Reach c) ?_ ?_ ?_ ?_ h
  · rintro s ⟨now, rfl⟩
    refine ⟨fun c hc => ?_, fun c hc => ?_⟩
    · cases hc
      exact .new now
    · cases hc
      exact (Reach.new now).within (show 0 < bufferMax by decide)
  · intro a s s' hI hs c' hc'
    cases a with
    | receive env =>
        obtain ⟨c, rfl, hstate, rfl⟩ := hs
        obtain ⟨⟨ret, c₁⟩, hrecv, rfl⟩ := Option.map_eq_some_iff.mp hc'
        exact (hI c rfl).receive hstate hrecv
    | send env =>
        obtain ⟨c, rfl, hstate, hs⟩ := hs
        split at hs
        next ret c₁ hend =>
          subst hs
          cases hc'
          exact (hI c rfl).send hstate hend
        · exact hs.elim
        · subst hs
          cases hc'
  · intro a s s' hI hs
    cases a with
    | receive env =>
        obtain ⟨c, rfl, hstate, -⟩ := hs
        obtain ⟨p, hp⟩ := (hI c rfl).receiving hstate
        exact receiveWithin_iff hp (hI c rfl).recvMax
    | send env =>
        obtain ⟨c, rfl, -⟩ := hs
        exact Iff.rfl
  · intro a s s' hI hQ hs hwithin c' hc'
    cases a with
    | receive env =>
        obtain ⟨c, rfl, hstate, rfl⟩ := hs
        obtain ⟨⟨ret, c₁⟩, hrecv, rfl⟩ := Option.map_eq_some_iff.mp hc'
        obtain ⟨r, c₂, hrecv₂, hlength, hmax⟩ := receiveRequests_recvBuf hrecv
        obtain ⟨r', c₃, hrecv₃, hlt⟩ := hwithin.recv env.script (List.prefix_refl _)
        cases hrecv₂.symm.trans hrecv₃
        refine ((hI c rfl).receive hstate hrecv).within ?_
        rw [hlength, hmax]
        exact hlt
    | send env =>
        obtain ⟨c, rfl, hstate, hs⟩ := hs
        split at hs
        next ret c₁ hend =>
          subst hs
          cases hc'
          have hlt := (hQ c rfl).recvBuf
          have hc := (hI c rfl).recvMax
          obtain ⟨hmax, hle⟩ := (sendRule_recvBuf _).sendResponses ⟨hc, Nat.le_refl _⟩ hend
          refine ((hI c rfl).send hstate hend).within ?_
          omega
        · exact hs.elim
        · subst hs
          cases hc'

end Run

/-- One page is requested: the call keeps to the sizes. -/
theorem page_within :
    ReceiveWithin (pageRecv (ascii "GET / HTTP/1.1" ++ crlfcrlf)) (newClient 0) := by
  refine ((capacity_iff (receive_run _)).mpr fun x hx => ?_).1 _ (List.mem_singleton_self _)
  obtain rfl := List.mem_singleton.mp hx
  exact ⟨by decide, fun _ => by decide⟩

/-- Texts that do not fit: eleven requests; thirteen headers; a long name of a header; and
as many bytes as the receive buffer has. -/
def overruns : List Bytes :=
  [(List.replicate 11 (ascii "GET / HTTP/1.1" ++ crlfcrlf)).flatten,
    ascii "GET / HTTP/1.1" ++ crlf ++ (List.replicate 13 (ascii "A: b" ++ crlf)).flatten ++ crlf,
    ascii "GET / HTTP/1.1" ++ crlf ++ List.replicate 1024 65 ++ ascii ": b" ++ crlfcrlf,
    List.replicate bufferMax 65]

theorem overruns_not_within : ∀ text ∈ overruns, ¬ ReceiveWithin (pageRecv text) (newClient 0) := by
  have hdecide : ∀ text ∈ overruns, ¬ ((text.length < bufferMax) ∧
      SegmentsFit (fun _ => zeroBlocks) 0 (segments text)) := by
    decide +kernel
  intro text htext hwithin
  have hfits := (receiveWithin_iff (newClient_receiving 0) rfl).mp hwithin
  have hdelivered : delivered (pageRecv text).script = text := List.append_nil text
  refine hdecide text htext ⟨?_, ?_⟩
  · have := hfits.recv
    rwa [hdelivered] at this
  · have := hfits.parse rfl
    rwa [hdelivered] at this

/-- A run that receives one of them does not keep to the sizes. -/
theorem capacity_overrun : ¬ ∀ (past : List (Option Client × Call)) (s : Option Client),
    clientSystem.Run past s → (∀ x ∈ past, CallWithin x.1 x.2) ∧
      System.Always (fun s => ∀ c ∈ s, c.Within) past s := by
  intro hall
  have hwithin := (hall _ _ (receive_run (pageRecv (overruns.headD [])))).1 _
    (List.mem_singleton_self _)
  exact overruns_not_within _ List.mem_cons_self hwithin

end InternetLabs.EventServer
