/-
# `InternetLabs.EventServer.Lifecycle` — the states of a client

The fields of a client are updated one by one, by the parser, the builders and
`send_data`.  `Lifecycle` is what all of them keep together: which request is being
answered, and how the send buffer is filled.  The buffer has room for every header
since a parsed slot holds no long text but the URI (`HttpRequest.Parsed.short`).

`client_lifecycle` reads it off for every reachable client.  That the builders only
read parsed slots is said of the calls as a whole: they do the same whatever the
other slots hold.
-/
import InternetLabs.EventServer.Segments
import InternetLabs.EventServer.Send

namespace InternetLabs.EventServer

open InternetLabs

/-! ## Parsed slots

What the parser guarantees of the slots it has filled, whatever the text. -/

/-- A slot `request_to_struct` has filled. -/
def HttpRequest.Parsed (slot : HttpRequest) : Prop :=
  ∃ blocks i seg, parseSegment blocks i .zero seg = .ok slot

/-- The texts of a slot that go into a header are short. -/
structure HttpRequest.Short (slot : HttpRequest) : Prop where
  version : ∀ version ∈ slot.version, version.length ≤ 8
  filetype : ∀ filetype ∈ slot.filetype, filetype.length ≤ 15

theorem filetypeOf_length (uri : Bytes) : (filetypeOf uri).length ≤ 15 := by
  unfold filetypeOf
  extract_lets ext
  repeat' split
  all_goals decide +revert

/-- A step of the parser comes to a value that meets `P`, or stops, but not with
`STATUS_OK`. -/
def Parses {α : Type} (P : α → Prop) : Except Stop α → Prop
  | .ok a => P a
  | .error stop => stop ≠ .status .ok

section Parses
variable {α β : Type} {P : α → Prop} {Q : β → Prop}

theorem Parses.bind {r : Except Stop α} (hr : Parses P r) {f : α → Except Stop β}
    (hf : ∀ a, P a → Parses Q (f a)) : Parses Q (r >>= f) := by
  cases r with
  | ok a => exact hf a hr
  | error stop => exact hr

theorem Parses.map {r : Except Stop α} (hr : Parses P r) {f : α → β} (hf : ∀ a, P a → Q (f a)) :
    Parses Q (r.map f) := by
  cases r with
  | ok a => exact hf a hr
  | error stop => exact hr

theorem Parses.foldlM {f : α → β → Except Stop α} (hf : ∀ a b, P a → Parses P (f a b)) {a : α}
    (ha : P a) (bs : List β) : Parses P (bs.foldlM f a) := by
  induction bs generalizing a with
  | nil => exact ha
  | cons b bs ih => exact (hf a b ha).bind fun a' ha' => ih ha'

theorem scanWord_parses (block : Bytes) (w : Option Bytes) : Parses (fun _ => True)
    (scanWord block w) := by
  cases w with
  | none => trivial
  | some w =>
      rw [scanWord]
      split
      · trivial
      · intro heq
        cases heq

variable {blocks : Blocks} {i : Nat} {line : Bytes} {httpr : HttpRequest} {lines : Lines}

theorem requestLine_parses : Parses HttpRequest.Short (requestLine blocks i line httpr) := by
  refine (scanWord_parses _ _).bind fun method _ => (scanWord_parses _ _).bind fun uri _ =>
    (scanWord_parses _ _).bind fun version _ => ?_
  split
  · exact nofun
  · split
    · exact nofun
    · split
      · exact nofun
      next hversion =>
        split
        · exact nofun
        · refine ⟨fun v hv => ?_, fun f hf => ?_⟩
          · obtain rfl := Option.some.inj hv
            rw [not_not.mp hversion]
            decide
          · obtain rfl := Option.some.inj hf
            exact filetypeOf_length _

theorem headerLine_parses (h : lines.httpr.Short) :
    Parses (fun lines' => lines'.httpr.Short) (headerLine line lines) := by
  refine (scanWord_parses _ _).bind fun name _ => (scanWord_parses _ _).bind fun value _ => ?_
  split
  · exact ⟨h.version, h.filetype⟩
  · split
    · exact nofun
    · split
      · exact h
      · exact nofun

theorem parseSegment_parses (blocks : Blocks) (i : Nat) (seg : Bytes) :
    Parses HttpRequest.Short (parseSegment blocks i .zero seg) := by
  refine Parses.map (P := fun lines : Lines => lines.httpr.Short) ?_ fun lines hlines =>
    ⟨hlines.version, hlines.filetype⟩
  refine Parses.foldlM (fun lines line hlines => ?_) ⟨nofun, nofun⟩ _
  unfold lineStep
  split
  · exact requestLine_parses.map fun httpr hhttpr => hhttpr
  · exact headerLine_parses hlines

end Parses

theorem HttpRequest.Parsed.short {slot : HttpRequest} (h : slot.Parsed) : slot.Short := by
  obtain ⟨blocks, i, seg, hparse⟩ := h
  have := parseSegment_parses blocks i seg
  rwa [hparse] at this

/-- The slots of a parse are parsed, one for each request if it is not refused. -/
theorem parseSegments_parsed {heap : Nat → Blocks} {i : Nat} {segs : List Bytes} {status : Status}
    {slots : List HttpRequest} (h : parseSegments heap i segs = some (status, slots)) :
    (∀ slot ∈ slots, slot.Parsed) ∧ (slots ≠ [] → i + slots.length ≤ maxRequests) ∧
      (status = .ok → slots.length = segs.length) := by
  induction segs generalizing i status slots with
  | nil => cases h; exact ⟨nofun, fun hne => absurd rfl hne, fun _ => rfl⟩
  | cons seg segs ih =>
      rw [parseSegments] at h
      split at h
      next httpr hparse =>
        split at h
        next hlt =>
          obtain ⟨⟨status', more⟩, hmore, heq⟩ := Option.map_eq_some_iff.mp h
          cases heq
          obtain ⟨hparsed, hmax, hall⟩ := ih hmore
          refine ⟨List.forall_mem_cons.mpr ⟨⟨_, _, _, hparse⟩, hparsed⟩, fun _ => ?_, fun hok => ?_⟩
          · rw [List.length_cons]
            by_cases hnil : more = []
            · rw [hnil]
              exact hlt
            · have := hmax hnil
              omega
          · rw [List.length_cons, List.length_cons, hall hok]
        · cases h
      next status' hparse =>
        cases h
        refine ⟨nofun, fun hne => absurd rfl hne, fun hok => ?_⟩
        have hne := parseSegment_parses (heap i) i seg
        rw [hparse, hok] at hne
        exact absurd rfl hne
      · cases h

/-! ## The length of a header

All headers fit the buffer they are built in: their texts are short, and their numbers
and dates have bounds. -/

section Length
variable {w : World} {c c' : Client}

theorem Response.sprintf_length (r : Response) (text : Bytes) :
    (r.sprintf text).length = r.length + text.length := rfl

theorem setHeader_length (name value : Bytes) (r : Response) :
    (setHeader name value r).length = r.length + (name.length + value.length + 4) := by
  have hcolon : (ascii ": ").length = 2 := rfl
  have hcrlf : crlf.length = 2 := rfl
  rw [setHeader, Response.sprintf_length]
  simp only [List.length_append, hcolon, hcrlf]
  omega

theorem setContentLengthHeader_length {n : Int} {r r' : Response}
    (h : setContentLengthHeader n r = some r') : r'.length ≤ r.length + 28 := by
  rw [setContentLengthHeader] at h
  split at h
  next hshort =>
    cases h
    have hname : (ascii "Content-Length").length = 14 := rfl
    rw [setHeader_length, hname]
    omega
  · cases h

theorem errorText_length {s : Status} {line data : Bytes} (h : errorText s = some (line, data)) :
    line.length ≤ 25 ∧ data.length ≤ 36 := by
  cases s <;> cases h <;> decide

theorem buildErrorHeader_length (h : buildErrorHeader w c = some c') :
    c'.sendBuf.length ≤ bufferMax ∧ c'.sendBuf.maxLength = c.sendBuf.maxLength := by
  obtain ⟨⟨line, data⟩, htext, h⟩ := Option.bind_eq_some_iff.mp h
  obtain ⟨hline, hdata⟩ := errorText_length htext
  obtain ⟨r, hr, h⟩ := Option.bind_eq_some_iff.mp h
  have hlen := setContentLengthHeader_length hr
  cases h
  refine ⟨?_, rfl⟩
  have hmax : bufferMax = 2048 := rfl
  have hdate := w.date_length w.now
  have hcrlf : crlf.length = 2 := rfl
  have hnames : (ascii "HTTP/1.1 ").length = 9 ∧ (ascii "Date").length = 4 ∧
      (ascii "Server").length = 6 ∧ (ascii "Prestige/CS360 (Ubuntu 64-bit)").length = 30 ∧
      (ascii "Content-Type").length = 12 ∧ (ascii "text/html").length = 9 ∧
      (ascii "Last-Modified").length = 13 := by decide
  obtain ⟨h1, h2, h3, h4, h5, h6, h7⟩ := hnames
  simp only [setDateHeader, setServernameHeader, setContentTypeHeader, setModifiedDateHeader,
    setHeader_length, Response.sprintf_length, List.length_append] at hlen ⊢
  omega

/-- The header of a file that is there; the slot it is for is short. -/
theorem buildOkHeader_length (hshort : ∀ slot ∈ c.requests[c.curRequest]?, slot.Short)
    (h : buildOkHeader w c = some c') :
    c'.sendBuf.length ≤ bufferMax ∧ c'.sendBuf.maxLength = c.sendBuf.maxLength := by
  obtain ⟨request, hrequest, h⟩ := Option.bind_eq_some_iff.mp h
  obtain ⟨uri, -, h⟩ := Option.bind_eq_some_iff.mp h
  obtain ⟨path, -, h⟩ := Option.bind_eq_some_iff.mp h
  cases hopen : w.openFile path with
  | error errno =>
      rw [hopen] at h
      have hlen := buildErrorHeader_length h
      exact hlen
  | ok file =>
      rw [hopen] at h
      obtain ⟨version, hversion, h⟩ := Option.bind_eq_some_iff.mp h
      obtain ⟨filetype, hfiletype, h⟩ := Option.bind_eq_some_iff.mp h
      obtain ⟨r, hr, h⟩ := Option.bind_eq_some_iff.mp h
      have hlen := setContentLengthHeader_length hr
      cases h
      refine ⟨?_, rfl⟩
      have hv := (hshort _ hrequest).version _ hversion
      have hf := (hshort _ hrequest).filetype _ hfiletype
      have hmax : bufferMax = 2048 := rfl
      have hdate := w.date_length w.now
      have hmodified := w.date_length file.ctime
      have hcrlf : crlf.length = 2 := rfl
      have hnames : (ascii " ").length = 1 ∧ (ascii "200 OK").length = 6 ∧
          (ascii "Date").length = 4 ∧ (ascii "Server").length = 6 ∧
          (ascii "Prestige/CS360 (Ubuntu 64-bit)").length = 30 ∧
          (ascii "Content-Type").length = 12 ∧ (ascii "Last-Modified").length = 13 := by decide
      obtain ⟨h1, h2, h3, h4, h5, h6, h7⟩ := hnames
      simp only [setDateHeader, setServernameHeader, setContentTypeHeader, setModifiedDateHeader,
        setHeader_length, Response.sprintf_length, List.length_append] at hlen ⊢
      omega

theorem buildHeader_length (hshort : ∀ slot ∈ c.requests[c.curRequest]?,
    c.status = .ok → slot.Short)
    (h : buildHeader w c = some c') :
    c'.sendBuf.length ≤ bufferMax ∧ c'.sendBuf.maxLength = c.sendBuf.maxLength := by
  unfold buildHeader at h
  split at h
  next hok => exact buildOkHeader_length (fun slot hslot => hshort slot hslot hok) h
  · exact buildErrorHeader_length h

theorem readLoop_length {reads : List Bytes} {b b' : Buffer} (hb : b.length ≤ b.maxLength)
    (h : readLoop reads b = some b') : b'.length ≤ b'.maxLength ∧ b.maxLength ≤ b'.maxLength := by
  induction reads generalizing b with
  | nil => cases h; exact ⟨hb, Nat.le_refl _⟩
  | cons bytes rest ih =>
      rw [readLoop] at h
      split at h
      · cases h; exact ⟨hb, Nat.le_refl _⟩
      · obtain ⟨b₁, happend, h⟩ := Option.bind_eq_some_iff.mp h
        have hstep : b₁.length ≤ b₁.maxLength ∧ b.maxLength ≤ b₁.maxLength := by
          simp only [appendRead] at happend
          split at happend
          · split at happend
            · cases happend
              simp only
              omega
            · cases happend
          · cases happend
            simp only
            omega
        obtain ⟨hlen, hmax⟩ := ih hstep.1 h
        exact ⟨hlen, hstep.2.trans hmax⟩

theorem buildBody_length (hc : c.sendBuf.length = 0) (h : buildBody w c = some c') :
    c'.sendBuf.length ≤ c'.sendBuf.maxLength ∧ c.sendBuf.maxLength ≤ c'.sendBuf.maxLength := by
  unfold buildBody at h
  split at h
  · obtain ⟨request, -, h⟩ := Option.bind_eq_some_iff.mp h
    obtain ⟨uri, -, h⟩ := Option.bind_eq_some_iff.mp h
    obtain ⟨path, -, h⟩ := Option.bind_eq_some_iff.mp h
    obtain ⟨sendBuf, hread, h⟩ := Option.bind_eq_some_iff.mp h
    cases h
    exact readLoop_length (by omega) hread
  · cases h
    exact ⟨Nat.zero_le _, Nat.le_refl _⟩

end Length

/-! ## The invariant

What a client keeps in every state it can be in, and that each handler keeps it. -/

/-- What every reachable client keeps. -/
structure Client.Lifecycle (c : Client) : Prop where
  requests : c.requests.length = maxRequests
  parsed : ∀ slot ∈ c.parsed, slot.Parsed
  numRequests : c.numRequests ≤ maxRequests
  receiving : c.state = .receivingHeaders → c.numRequests = 0 ∧ c.curRequest = 0
  sending : c.state = .sendingHeaders ∨ c.state = .sendingBody → c.status = .ok →
    c.curRequest < c.numRequests
  position : c.sendBuf.position ≤ c.sendBuf.length
  length : c.sendBuf.length ≤ c.sendBuf.maxLength
  maxLength : bufferMax ≤ c.sendBuf.maxLength

/-- The slot being answered is parsed. -/
theorem Client.Lifecycle.slot {c : Client} (h : c.Lifecycle) (hlt : c.curRequest < c.numRequests) :
    ∃ slot, c.requests[c.curRequest]? = some slot ∧ slot.Parsed := by
  have hbound : c.curRequest < c.requests.length := by
    rw [h.requests]
    exact Nat.lt_of_lt_of_le hlt h.numRequests
  refine ⟨c.requests[c.curRequest], List.getElem?_eq_getElem hbound, h.parsed _ ?_⟩
  exact List.mem_take_iff_getElem.mpr ⟨c.curRequest, by omega, rfl⟩

section Keep
variable {c c' : Client}

theorem newClient_lifecycle (now : Int) : (newClient now).Lifecycle where
  requests := rfl
  parsed := nofun
  numRequests := Nat.zero_le _
  receiving _ := ⟨rfl, rfl⟩
  sending hsending := by rcases hsending with hs | hs <;> cases hs
  position := Nat.le_refl _
  length := Nat.zero_le _
  maxLength := Nat.le_refl _

theorem Client.Lifecycle.disconnect (h : c.Lifecycle) :
    ({ c with state := .disconnected } : Client).Lifecycle where
  requests := h.requests
  parsed := h.parsed
  numRequests := h.numRequests
  receiving := nofun
  sending hsending := by rcases hsending with hs | hs <;> cases hs
  position := h.position
  length := h.length
  maxLength := h.maxLength

theorem recvData_frame {script : List RecvOutcome} {ret : Nat}
    (h : recvData script c = some (ret, c')) :
    ∃ data length lastActive, c' = { c with
      recvBuf := { c.recvBuf with data := data, length := length }, lastActive := lastActive } := by
  induction script generalizing c with
  | nil => cases h; exact ⟨_, _, _, rfl⟩
  | cons o script ih =>
      cases o with
      | data bytes now =>
          rw [recvData] at h
          split at h
          · obtain ⟨data, length, lastActive, rfl⟩ := ih h
            exact ⟨_, _, _, rfl⟩
          · cases h
      | interrupted serverRunning =>
          rw [recvData] at h
          split at h
          · exact ih h
          · cases h; exact ⟨_, _, _, rfl⟩
      | wouldBlock => cases h; exact ⟨_, _, _, rfl⟩
      | closed => cases h; exact ⟨_, _, _, rfl⟩
      | failed => cases h; exact ⟨_, _, _, rfl⟩

theorem requestToStruct_frame {heap : Nat → Blocks} {status : Status}
    (h : requestToStruct heap c = some (status, c')) :
    ∃ data requests numRequests, c' = { c with
      recvBuf := { c.recvBuf with data := data }, requests := requests, numRequests :=
      numRequests } := by
  obtain ⟨⟨status', s⟩, -, h⟩ := Option.map_eq_some_iff.mp h
  cases h
  exact ⟨_, _, _, rfl⟩

/-- A new header keeps the invariant: it fits the buffer, whatever was in it. -/
theorem buildHeader_lifecycle {w : World} (h : buildHeader w c = some c')
    (hposition : c.sendBuf.position = 0) (hmax : bufferMax ≤ c.sendBuf.maxLength) (b : Buffer)
    (hc : ({ c with sendBuf := b, state := .sendingHeaders } : Client).Lifecycle) :
    ({ c' with state := .sendingHeaders } : Client).Lifecycle := by
  have hframe := buildHeader_frame h
  obtain ⟨hlength, hmaxLength⟩ := buildHeader_length (fun slot hslot hok => by
    obtain ⟨slot', hslot', hparsed⟩ := hc.slot (hc.sending (.inl rfl) hok)
    cases hslot.symm.trans hslot'
    exact hparsed.short) h
  have hstatus : c'.status = .ok → c.status = .ok := by
    intro hok
    unfold buildHeader at h
    split at h
    · assumption
    · rw [← (buildErrorHeader_frame h).2]
      exact hok
  refine ⟨?_, ?_, ?_, nofun, fun _ hok => ?_, ?_, ?_, ?_⟩
  · rw [hframe.requests]; exact hc.requests
  · rw [Client.parsed, hframe.requests, hframe.numRequests]; exact hc.parsed
  · rw [hframe.numRequests]; exact hc.numRequests
  · rw [hframe.curRequest, hframe.numRequests]
    exact hc.sending (.inl rfl) (hstatus hok)
  · rw [hframe.position, hposition]; exact Nat.zero_le _
  · rw [hmaxLength]; exact hlength.trans hmax
  · rw [hmaxLength]; exact hmax

/-- The batch taken: if no request is refused there is a first one to answer. -/
theorem requestToStruct_lifecycle {heap : Nat → Blocks} {status : Status} {p : Bytes}
    (hc : c.Lifecycle) (hp : Receiving p c) (hfind : strstr crlfcrlf c.recvBuf.data ≠ none)
    (h : requestToStruct heap c = some (status, c')) :
    ({ c' with status := status, state := .sendingHeaders } : Client).Lifecycle := by
  obtain ⟨slots, hslots, hrequests, hnum⟩ := requestToStruct_slots hp.requests hp.numRequests h
  obtain ⟨hparsed, hmax, hall⟩ := parseSegments_parsed hslots
  obtain ⟨data, requests, numRequests, rfl⟩ := requestToStruct_frame h
  simp only at hrequests hnum
  subst hrequests hnum
  have hle : slots.length ≤ maxRequests := by
    by_cases hnil : slots = []
    · rw [hnil]
      exact Nat.zero_le _
    · have := hmax hnil
      omega
  refine ⟨?_, ?_, hle, nofun, fun _ hok => ?_, hc.position, hc.length, hc.maxLength⟩
  · simp only [requestArray, List.length_append, List.length_replicate]
    omega
  · simp only [Client.parsed, requestArray, List.take_left]
    exact hparsed
  · obtain ⟨k, hk⟩ := Option.ne_none_iff_exists'.mp hfind
    obtain ⟨seg, rest, hdata, rfl, -⟩ := exists_segment hk
    rw [hdata] at hk
    rw [hdata, segments_cons hk] at hall
    simp only [hp.curRequest, hall hok, List.length_cons]
    exact Nat.succ_pos _

theorem receiveRequests_lifecycle {env : RecvEnv} {ret : Nat} {p : Bytes} (hc : c.Lifecycle)
    (hp : Receiving p c) (h : receiveRequests env c = some (ret, c')) : c'.Lifecycle := by
  obtain ⟨r, c₁, hrecv, hcases⟩ := receiveRequests_cases h
  obtain ⟨q, hq⟩ := recvData_receiving hp hrecv
  have hc₁ : c₁.Lifecycle := by
    obtain ⟨data, length, lastActive, rfl⟩ := recvData_frame hrecv
    exact ⟨hc.requests, hc.parsed, hc.numRequests, hc.receiving, hc.sending, hc.position,
      hc.length, hc.maxLength⟩
  rcases hcases with ⟨-, -, rfl⟩ | ⟨-, -, ⟨-, -, rfl⟩ | ⟨hfind, -, htake⟩⟩
  · exact hc₁.disconnect
  · exact hc₁
  · obtain ⟨status, c₂, c₃, hparse, hbuild, rfl⟩ := takeRequests_spec htake
    have hc₂ := requestToStruct_lifecycle hc₁ hq hfind hparse
    exact buildHeader_lifecycle hbuild rfl hc₂.maxLength c₂.sendBuf hc₂

theorem Client.Lifecycle.sendRule : SendRule Client.Lifecycle where
  advance {c n} h _ hn := by
    have hposition := h.position
    refine ⟨h.requests, h.parsed, h.numRequests, h.receiving, h.sending, ?_, h.length, h.maxLength⟩
    simp only [Client.advance]
    omega
  disconnect h := h.disconnect
  body {c w c'} h hstate hbuild := by
    obtain ⟨hframe, hstatus⟩ := buildBody_frame hbuild
    obtain ⟨hlength, hmaxLength⟩ := buildBody_length rfl hbuild
    refine ⟨?_, ?_, ?_, fun hreceiving => ?_, fun _ hok => ?_, ?_, hlength,
      h.maxLength.trans hmaxLength⟩
    · exact hframe.requests ▸ h.requests
    · rw [Client.parsed, hframe.requests, hframe.numRequests]; exact h.parsed
    · exact hframe.numRequests ▸ h.numRequests
    · cases hreceiving
    · rw [hframe.curRequest, hframe.numRequests]
      exact h.sending (.inl hstate) (hstatus.symm.trans hok)
    · rw [hframe.position]; exact Nat.zero_le _
  header {c w c'} h _ hnext hbuild := by
    have hnextCycle : ({ c with
        curRequest := c.curRequest + 1, state := .sendingHeaders } : Client).Lifecycle :=
      ⟨h.requests, h.parsed, h.numRequests, fun hreceiving => State.noConfusion hreceiving,
        fun _ _ => hnext, h.position, h.length, h.maxLength⟩
    have hnew := buildHeader_lifecycle hbuild rfl h.maxLength c.sendBuf hnextCycle
    have hstate := (buildHeader_frame hbuild).state
    obtain ⟨state, _, _, _, _, _, _, _⟩ := c'
    cases hstate
    exact hnew
  finish {c} h _ := {
    requests := List.length_replicate
    parsed := fun slot hslot => by cases hslot
    numRequests := Nat.zero_le _
    receiving := fun _ => ⟨rfl, rfl⟩
    sending := fun hsending => by rcases hsending with hs | hs <;> cases hs
    position := h.position
    length := h.length
    maxLength := h.maxLength }

end Keep

theorem Reach.lifecycle {c : Client} (h : Reach c) : c.Lifecycle := by
  induction h with
  | new now => exact newClient_lifecycle now
  | receive hc hstate h ih =>
      obtain ⟨p, hp⟩ := hc.receiving hstate
      exact receiveRequests_lifecycle ih hp h
  | send hc hstate h ih => exact Client.Lifecycle.sendRule.sendResponses ih h

/-! ## Slots that are not parsed are not read

A client with other contents in those slots behaves in the same way. -/

abbrev Client.withRequests (slots : List HttpRequest) (c : Client) : Client :=
  { c with requests := slots }

/-- The call, but for the slots of the client it returns. -/
def Sent.withoutRequests (r : Sent) : Sent :=
  { r with ending := match r.ending with
    | .returned ret c => .returned ret (c.withRequests [])
    | .sending => .sending
    | .undefined => .undefined }

/-- The other slots are those of the client, where a request was parsed to them. -/
def SameParsed (slots : List HttpRequest) (c : Client) : Prop :=
  slots.take c.numRequests = c.parsed

section Slots
variable {slots : List HttpRequest} {w : World} {c : Client}

theorem SameParsed.slot (h : SameParsed slots c) {i : Nat} (hlt : i < c.numRequests) :
    slots[i]? = c.requests[i]? := by
  have := congrArg (fun l => l[i]?) h
  simpa only [Client.parsed, List.getElem?_take_of_lt hlt] using this

theorem buildErrorHeader_withRequests (w : World) (c : Client) :
    buildErrorHeader w (c.withRequests slots)
      = (buildErrorHeader w c).map (Client.withRequests slots) := by
  simp only [buildErrorHeader, Client.withRequests, bind, Option.map_bind, Function.comp_def,
    Option.map_some]

theorem buildHeader_withRequests (h : c.status = .ok → slots[c.curRequest]?
    = c.requests[c.curRequest]?) :
    buildHeader w (c.withRequests slots) = (buildHeader w c).map (Client.withRequests slots) := by
  unfold buildHeader
  by_cases hok : c.status = .ok
  swap
  · rw [if_neg hok, if_neg (show (c.withRequests slots).status ≠ .ok from hok)]
    exact buildErrorHeader_withRequests w c
  rw [if_pos hok, if_pos (show (c.withRequests slots).status = .ok from hok)]
  simp only [buildOkHeader, bind, Option.map_bind, Function.comp_def]
  rw [show (c.withRequests slots).requests[(c.withRequests slots).curRequest]?
    = c.requests[c.curRequest]? from h hok]
  refine Option.bind_congr fun request _ => Option.bind_congr fun uri _ =>
    Option.bind_congr fun path _ => ?_
  cases w.openFile path with
  | error errno => exact buildErrorHeader_withRequests w { c with status := errno.status }
  | ok file =>
      simp only [Option.map_bind, Function.comp_def, Option.map_some]

theorem buildBody_withRequests (h : c.status = .ok → slots[c.curRequest]?
    = c.requests[c.curRequest]?) :
    buildBody w (c.withRequests slots) = (buildBody w c).map (Client.withRequests slots) := by
  unfold buildBody
  by_cases hok : c.status = .ok
  swap
  · rw [if_neg hok, if_neg (show (c.withRequests slots).status ≠ .ok from hok)]
    rfl
  rw [if_pos hok, if_pos (show (c.withRequests slots).status = .ok from hok)]
  simp only [buildOkBody, bind, Option.map_bind, Function.comp_def, Option.map_some]
  rw [show (c.withRequests slots).requests[(c.withRequests slots).curRequest]?
    = c.requests[c.curRequest]? from h hok]

theorem sendData_withRequests (script : List SendOutcome) (c : Client) :
    sendData script (c.withRequests slots)
      = { sendData script c with client := (sendData script c).client.withRequests slots } := by
  induction script generalizing c with
  | nil =>
      by_cases hleft : c.sendBuf.length - c.sendBuf.position = 0
      · rw [sendData_done hleft, sendData_done (show (c.withRequests slots).sendBuf.length - _
          = 0 from hleft)]
      · rw [sendData_nil hleft,
          sendData_nil (show (c.withRequests slots).sendBuf.length - _ ≠ 0 from hleft)]
  | cons o script ih =>
      by_cases hleft : c.sendBuf.length - c.sendBuf.position = 0
      · rw [sendData_done hleft, sendData_done (show (c.withRequests slots).sendBuf.length - _
          = 0 from hleft)]
      have hleft' :
          (c.withRequests slots).sendBuf.length - (c.withRequests slots).sendBuf.position ≠ 0 :=
        hleft
      cases o with
      | accepted k =>
          rw [sendData_accepted hleft, sendData_accepted hleft']
          have hrest := ih (c.advance (min (k + 1) (c.sendBuf.length - c.sendBuf.position)))
          simp only [Client.withRequests, Client.advance] at hrest ⊢
          rw [hrest]
      | wouldBlock => rw [sendData_wouldBlock hleft, sendData_wouldBlock hleft']
      | interrupted serverRunning =>
          rw [sendData_interrupted hleft, sendData_interrupted hleft']
          split
          · exact ih c
          · rfl
      | reset => rw [sendData_reset hleft, sendData_reset hleft']
      | failed => rw [sendData_failed hleft, sendData_failed hleft']

theorem sendBody_withRequests (env : SendEnv) (script : List SendOutcome) (h : SameParsed slots c) :
    (sendBody env script (c.withRequests slots)).withoutRequests
      = (sendBody env script c).withoutRequests := by
  unfold sendBody
  by_cases hstate : c.state = .sendingBody
  swap
  · rw [if_neg hstate, if_neg (show (c.withRequests slots).state ≠ .sendingBody from hstate)]
    rfl
  rw [if_pos hstate, if_pos (show (c.withRequests slots).state = .sendingBody from hstate),
    sendData_withRequests]
  obtain ⟨sendBuf, state, hsent⟩ := sendData_frame script c
  generalize sendData script c = sent at *
  obtain ⟨ret, c₁, accepted, rest⟩ := sent
  obtain rfl : c₁ = _ := hsent
  match ret with
  | none => rfl
  | some (_ + 1) => rfl
  | some 0 =>
      by_cases hnext : c.curRequest + 1 < c.numRequests
      swap
      · simp only [if_neg hnext]
        rfl
      simp only [if_pos hnext]
      have hbuild := @buildHeader_withRequests slots env.header { c with
          curRequest := c.curRequest + 1, state := .sendingHeaders, sendBuf := sendBuf.rewind }
        fun _ => h.slot hnext
      simp only [Client.withRequests] at hbuild
      rw [hbuild]
      cases buildHeader env.header { c with
          curRequest := c.curRequest + 1, state := .sendingHeaders, sendBuf := sendBuf.rewind } with
      | none => rfl
      | some c₂ => rfl

/-- **A call of `send_responses`** does the same whatever the slots hold that are not
parsed, if the request being answered is. -/
theorem sendResponses_withRequests (env : SendEnv) (h : SameParsed slots c)
    (hcur : c.state = .sendingHeaders → c.status = .ok → c.curRequest < c.numRequests) :
    (sendResponses env (c.withRequests slots)).withoutRequests
      = (sendResponses env c).withoutRequests := by
  unfold sendResponses
  by_cases hstate : c.state = .sendingHeaders
  swap
  · rw [if_neg hstate, if_neg (show (c.withRequests slots).state ≠ .sendingHeaders from hstate)]
    exact sendBody_withRequests env env.script h
  rw [if_pos hstate, if_pos (show (c.withRequests slots).state = .sendingHeaders from hstate),
    sendData_withRequests]
  obtain ⟨sendBuf, state, hsent⟩ := sendData_frame env.script c
  generalize sendData env.script c = sent at *
  obtain ⟨ret, c₁, accepted, rest⟩ := sent
  obtain rfl : c₁ = _ := hsent
  match ret with
  | none => rfl
  | some (_ + 1) =>
      have hrest :=
        @sendBody_withRequests slots { c with sendBuf := sendBuf, state := state } env rest h
      simp only [Sent.withoutRequests, Sent.mk.injEq] at hrest ⊢
      exact ⟨by rw [hrest.1], hrest.2⟩
  | some 0 =>
      have hbuild := @buildBody_withRequests slots env.body
        { c with sendBuf := sendBuf.clear, state := state } fun hok => h.slot (hcur hstate hok)
      simp only [Client.withRequests] at hbuild ⊢
      rw [hbuild]
      cases hbody : buildBody env.body { c with sendBuf := sendBuf.clear, state := state } with
      | none => rfl
      | some c₂ =>
          obtain ⟨hframe, -⟩ := buildBody_frame hbody
          have hsame : SameParsed slots { c₂ with state := .sendingBody } := by
            rw [SameParsed, Client.parsed, hframe.requests, hframe.numRequests]
            exact h
          have hrest := sendBody_withRequests env rest hsame
          simp only [Sent.withoutRequests, Sent.mk.injEq, Client.withRequests, Option.map_some]
            at hrest ⊢
          exact ⟨by rw [hrest.1], by rw [hrest.2.1], hrest.2.2⟩

end Slots

/-! ## Reachable clients -/

/-- **The states of a client.**  While it receives, nothing is being answered; while it
sends with status 200, the request being answered is one that was parsed, so that no
call depends on the other slots; and the send buffer is never overrun.  A client's run
ends where a call is undefined, so this is about the calls before. -/
theorem client_lifecycle {c : Client} (h : Reach c) :
    (c.state = .receivingHeaders → c.numRequests = 0 ∧ c.curRequest = 0) ∧
      (c.state = .sendingHeaders ∨ c.state = .sendingBody → c.status = .ok →
        c.curRequest < c.numRequests) ∧
      (c.sendBuf.position ≤ c.sendBuf.length ∧ c.sendBuf.length ≤ c.sendBuf.maxLength) ∧
      (∀ slot ∈ c.parsed, slot.Parsed) ∧
      (∀ (env : RecvEnv) c₁ c₂, c.state = .receivingHeaders → recvData env.script c = some (0, c₁) →
        strstr crlfcrlf c₁.recvBuf.data ≠ none → requestToStruct env.heap c₁ = some (.ok, c₂) →
        c₂.curRequest < c₂.numRequests ∧ ∀ slot ∈ c₂.parsed, slot.Parsed) ∧
      ∀ env slots, c.state = .sendingHeaders ∨ c.state = .sendingBody → SameParsed slots c →
        (sendResponses env (c.withRequests slots)).withoutRequests
          = (sendResponses env c).withoutRequests := by
  have hc := h.lifecycle
  refine ⟨hc.receiving, hc.sending, ⟨hc.position, hc.length⟩, hc.parsed, ?_, ?_⟩
  · intro env c₁ c₂ hstate hrecv hfind hparse
    obtain ⟨p, hp⟩ := h.receiving hstate
    obtain ⟨q, hq⟩ := recvData_receiving hp hrecv
    have hc₁ : c₁.Lifecycle := by
      obtain ⟨data, length, lastActive, rfl⟩ := recvData_frame hrecv
      exact ⟨hc.requests, hc.parsed, hc.numRequests, hc.receiving, hc.sending, hc.position,
        hc.length, hc.maxLength⟩
    have hc₂ := requestToStruct_lifecycle hc₁ hq hfind hparse
    exact ⟨hc₂.sending (.inl rfl) rfl, hc₂.parsed⟩
  · intro env slots hstate hslots
    exact sendResponses_withRequests env hslots fun hheader => hc.sending (.inl hheader)

/-- A page is requested, and its slot is there while it is sent. -/
theorem page_lifecycle :
    ∃ c, receiveRequests (pageRecv (ascii "GET / HTTP/1.1" ++ crlfcrlf))
    (newClient 0) = some (0, c) ∧
      c.state = .sendingHeaders ∧ c.status = .ok ∧ c.curRequest < c.numRequests := by
  have hrun : ((receiveRequests (pageRecv (ascii "GET / HTTP/1.1" ++ crlfcrlf)) (newClient 0)).any
      fun r => r.1 == 0 && (r.2.state == .sendingHeaders && r.2.status == .ok)) = true := by
    decide +kernel
  obtain ⟨⟨ret, c⟩, hrecv, hrun⟩ := (Option.any_eq_true _ _).mp hrun
  simp only [Bool.and_eq_true, beq_iff_eq] at hrun
  obtain ⟨rfl, hstate, hstatus⟩ := hrun
  have hall := client_lifecycle (.receive (.new 0) rfl hrecv)
  exact ⟨c, hrecv, hstate, hstatus, hall.2.1 (.inl hstate) hstatus⟩

end InternetLabs.EventServer
