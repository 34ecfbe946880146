/-
# `InternetLabs.EventServer.Pipeline` — the responses to the requests of a batch

One status serves all requests of a batch.  The parser sets it, and a header builder
that cannot open its file changes it for good: `statusAfter`.  Every response shows
the page of the status after its header is built (`Shown`, kept by an answer).

A request by itself has a status of its own (`Request.status`).  So the responses to
a batch are those its requests would have by themselves exactly if the shared status
goes along with theirs: `responses_independent_iff`.
-/
import InternetLabs.EventServer.Serve

namespace InternetLabs.EventServer

open InternetLabs

/-! ## The shared status

A client has one status for all of its requests: once a file cannot be opened, all that
follow are answered with that error. -/

theorem OpenError.status_ne_ok (e : OpenError) : e.status ≠ .ok := by
  cases e <;> decide

/-- The status after the header for a slot is built. -/
def nextStatus (files : Files) (s : Status) (slot : Option HttpRequest) : Status :=
  if s = .ok then
    match (slot.bind (·.uri)).bind filepath with
    | none => s
    | some path => match files path with
        | .ok _ => .ok
        | .error errno => errno.status
  else s

/-- The status after the first `n` headers. -/
def statusAfter (files : Files) (slots : List HttpRequest) (s : Status) : Nat → Status
  | 0 => s
  | n + 1 => nextStatus files (statusAfter files slots s n) slots[n]?

/-- The page a response shows that is built with a status. -/
def pageFor (files : Files) (s : Status) (slot : Option HttpRequest) : Option Page :=
  if s = .ok then do
    let request ← slot
    let uri ← request.uri
    let path ← filepath uri
    match files path with
    | .ok file => some (okPage (request.version.getD []) (request.filetype.getD []) file)
    | .error _ => none
  else errorPage s

/-- A part shows the page of its request: an error page is sent with the header. -/
def Built.Shows (files : Files) (slots : List HttpRequest) (s : Status) (b : Built) : Prop :=
  let status := statusAfter files slots s (b.request + 1)
  match b.part with
  | .header => ∃ p d m, pageFor files status slots[b.request]? = some p ∧ (13 : UInt8) ∉ d ∧
      (13 : UInt8) ∉ m ∧ b.bytes = p.head d m ++ if status = .ok then [] else p.body
  | .body => ∀ p, pageFor files status slots[b.request]? = some p →
      b.bytes = if status = .ok then p.body else []

section Shows
variable {files : Files} {slots : List HttpRequest} {s : Status} {b : Built} {i : Nat}

theorem Built.Shows.header (h : b.Shows files slots s) (hlabel : b.label = (.header, i)) :
    ∃ p d m, pageFor files (statusAfter files slots s (i + 1)) slots[i]? = some p ∧
      (13 : UInt8) ∉ d ∧ (13 : UInt8) ∉ m ∧
      b.bytes = p.head d m ++ if statusAfter files slots s (i + 1) = .ok then [] else p.body := by
  obtain ⟨part, request, bytes⟩ := b
  cases hlabel
  exact h

theorem Built.Shows.body (h : b.Shows files slots s) (hlabel : b.label = (.body, i)) {p : Page}
    (hp : pageFor files (statusAfter files slots s (i + 1)) slots[i]? = some p) :
    b.bytes = if statusAfter files slots s (i + 1) = .ok then p.body else [] := by
  obtain ⟨part, request, bytes⟩ := b
  cases hlabel
  exact h p hp

end Shows

/-- **The invariant.**  A batch with the slots `slots` was parsed with the status `s`, and
every part built shows its page. -/
structure Shown (files : Files) (slots : List HttpRequest) (s : Status) (log : List Built)
    (c : Client) : Prop where
  requests : c.requests = slots
  status : c.status = statusAfter files slots s (c.curRequest + 1)
  shows : ∀ b ∈ log, b.Shows files slots s

section Shown
variable {files : Files} {slots : List HttpRequest} {s : Status} {w : World} {c c' : Client}

theorem World.cr_notMem_date (w : World) (t : Int) : (13 : UInt8) ∉ w.date t :=
  fun h => absurd (w.date_printable t 13 h) (by decide)

theorem buildHeader_shows (hfiles : w.openFile = files) (hslots : c.requests = slots)
    (hstatus : c.status = statusAfter files slots s c.curRequest)
    (h : buildHeader w c = some c') :
    c'.status = statusAfter files slots s (c.curRequest + 1) ∧
      Built.Shows files slots s ⟨.header, c.curRequest, c'.sendBuf.contents⟩ := by
  have hnow := w.cr_notMem_date w.now
  unfold buildHeader at h
  simp only [Built.Shows, statusAfter, ← hstatus]
  split at h
  next hok =>
    obtain ⟨request, uri, path, hrequest, huri, hpath, hopen⟩ := buildOkHeader_page h
    rw [hslots] at hrequest
    rw [hfiles] at hopen
    have hnext : nextStatus files c.status slots[c.curRequest]? =
        match files path with
        | .ok _ => .ok
        | .error errno => errno.status := by
      simp only [nextStatus, if_pos hok, hrequest, Option.bind_some, huri, hpath]
    rw [hnext]
    cases hfile : files path with
    | error errno =>
        rw [hfile] at hopen
        obtain ⟨hstatus', p, hpage, hbytes⟩ := hopen
        have hne := errno.status_ne_ok
        refine ⟨hstatus', p, w.date w.now, w.date w.now, ?_, hnow, hnow, ?_⟩
        · simp only [pageFor, if_neg hne, hpage]
        · simp only [if_neg hne, hbytes]
    | ok file =>
        rw [hfile] at hopen
        obtain ⟨hstatus', version, filetype, hversion, hfiletype, hbytes⟩ := hopen
        refine ⟨hstatus'.trans hok, okPage version filetype file, w.date w.now, w.date file.ctime,
          ?_, hnow, w.cr_notMem_date _, ?_⟩
        · simp [pageFor, hrequest, huri, hpath, hfile, hversion, hfiletype]
        · simp only [if_true, List.append_nil, hbytes]
  next hne =>
    obtain ⟨p, hpage, hbytes⟩ := buildErrorHeader_page h
    have hnext : nextStatus files c.status slots[c.curRequest]? = c.status := if_neg hne
    rw [hnext]
    refine ⟨(buildErrorHeader_frame h).2, p, w.date w.now, w.date w.now, ?_, hnow, hnow, ?_⟩
    · simp only [pageFor, if_neg hne, hpage]
    · simp only [if_neg hne, hbytes]

theorem buildBody_shows (hfiles : w.openFile = files) (hslots : c.requests = slots)
    (hstatus : c.status = statusAfter files slots s (c.curRequest + 1))
    (hlength : c.sendBuf.length = 0) (h : buildBody w c = some c') :
    Built.Shows files slots s ⟨.body, c.curRequest, c'.sendBuf.contents⟩ := by
  unfold buildBody at h
  simp only [Built.Shows, ← hstatus]
  intro p hp
  split at h
  next hok =>
    obtain ⟨request, uri, path, hrequest, huri, hpath, hopen⟩ := buildOkBody_page hlength h
    rw [hslots] at hrequest
    rw [hfiles] at hopen
    rw [if_pos hok]
    simp only [pageFor, if_pos hok, hrequest, Option.bind_eq_bind, Option.bind_some, huri,
      hpath] at hp
    split at hp
    next file hfile =>
      cases hp
      exact hopen file hfile
    · cases hp
  next hne =>
    cases h
    rw [if_neg hne]
    rfl

theorem Shown.kept (files : Files) (slots : List HttpRequest) (s : Status) :
    Kept (fun w => w.openFile = files) fun log _ c => Shown files slots s log c where
  send {log acc c script} h hord := by
    obtain ⟨⟨k, hclient⟩, -⟩ := sendData_spec hord c
    rw [hclient]
    exact ⟨h.requests, h.status, h.shows⟩
  body {log acc c w c'} h _ _ hfiles hbuild := by
    obtain ⟨hframe, hstatus⟩ := buildBody_frame hbuild
    have hcur : c'.curRequest = c.curRequest := hframe.curRequest
    refine ⟨hframe.requests.trans h.requests, ?_, ?_⟩
    · simp only [hstatus, hcur, h.status]
    · intro b hb
      rcases List.mem_append.mp hb with hb | hb
      · exact h.shows b hb
      · rw [List.mem_singleton.mp hb, hcur]
        exact buildBody_shows (c := { c with sendBuf := c.sendBuf.clear })
          hfiles h.requests h.status rfl hbuild
  header {log acc c w c'} h _ _ _ hfiles hbuild := by
    have hframe := buildHeader_frame hbuild
    have hcur : c'.curRequest = c.curRequest + 1 := hframe.curRequest
    obtain ⟨hstatus, hshows⟩ := buildHeader_shows (c := { c with
      curRequest := c.curRequest + 1, state := .sendingHeaders, sendBuf := c.sendBuf.rewind })
      hfiles h.requests h.status hbuild
    refine ⟨hframe.requests.trans h.requests, ?_, ?_⟩
    · rw [hcur]
      exact hstatus
    · intro b hb
      rcases List.mem_append.mp hb with hb | hb
      · exact h.shows b hb
      · rw [List.mem_singleton.mp hb, hcur]
        exact hshows

end Shown


/-! ## Responses -/

/-- The responses in a log: header and body of each request. -/
def responses : List Built → List Bytes
  | header :: body :: log => (header.bytes ++ body.bytes) :: responses log
  | _ => []

theorem responses_append_pair {log : List Built} {n : Nat} (hlen : log.length = 2 * n)
    (header body : Built) :
    responses (log ++ [header, body]) = responses log ++ [header.bytes ++ body.bytes] := by
  induction n generalizing log with
  | zero =>
      obtain rfl := List.length_eq_zero_iff.mp hlen
      rfl
  | succ n ih =>
      match log, hlen with
      | h :: b :: log, hlen =>
          rw [List.cons_append, List.cons_append, responses, responses,
            ih (by simp only [List.length_cons] at hlen; omega), List.cons_append]

theorem length_parts (n : Nat) : (parts n).length = 2 * n := by
  induction n with
  | zero => rfl
  | succ n ih =>
      rw [parts, List.length_append, ih]
      rfl

/-- A log of the parts of `n` responses has `n` responses, each of a header and a body. -/
theorem responses_of_labels {log : List Built} {n : Nat} (h : log.map Built.label = parts n) :
    (responses log).flatten = logBytes log ∧ (responses log).length = n ∧
      ∀ i < n, ∃ header ∈ log, ∃ body ∈ log, header.label = (.header, i) ∧
        body.label = (.body, i) ∧ (responses log)[i]? = some (header.bytes ++ body.bytes) := by
  induction n generalizing log with
  | zero =>
      obtain rfl := List.map_eq_nil_iff.mp h
      exact ⟨rfl, rfl, fun i hi => absurd hi (Nat.not_lt_zero i)⟩
  | succ n ih =>
      obtain ⟨log', last, rfl, hlog, hlast⟩ := List.map_eq_append_iff.mp h
      obtain ⟨header, last, rfl, hheader, hlast⟩ := List.map_eq_cons_iff.mp hlast
      obtain ⟨body, last, rfl, hbody, hlast⟩ := List.map_eq_cons_iff.mp hlast
      obtain rfl := List.map_eq_nil_iff.mp hlast
      have hlen : log'.length = 2 * n := by
        rw [← List.length_map, hlog, length_parts]
      obtain ⟨hbytes, hcount, hparts⟩ := ih hlog
      rw [responses_append_pair hlen]
      refine ⟨?_, ?_, fun i hi => ?_⟩
      · rw [List.flatten_append, hbytes]
        simp [logBytes]
      · rw [List.length_append, hcount]
        rfl
      · rcases Nat.lt_succ_iff_lt_or_eq.mp hi with hlt | rfl
        · obtain ⟨x, hx, y, hy, hxl, hyl, hxy⟩ := hparts i hlt
          refine ⟨x, List.mem_append_left _ hx, y, List.mem_append_left _ hy, hxl, hyl, ?_⟩
          rw [List.getElem?_append_left (by rw [hcount]; exact hlt), hxy]
        · refine ⟨header, by simp, body, by simp, hheader, hbody, ?_⟩
          rw [List.getElem?_append_right (Nat.le_of_eq hcount), hcount, Nat.sub_self]
          rfl

/-! ## An exchange

Requests that arrive together, and what is sent until the client receives again. -/

/-- The requests arrive together at a client that has nothing pending. -/
structure Arrival (files : Files) (rs : List Request) where
  start : Client
  recv : RecvEnv
  reach : Reach start
  state : start.state = .receivingHeaders
  nothing : start.recvBuf.length = 0
  arrive : ∀ o ∈ recv.script, o.Ordinary
  text : delivered recv.script = renderAll rs
  recvFiles : recv.world.openFile = files

/-- A run: the requests arrive together, are taken for a batch and answered until the
client receives again.  All builders see the same files. -/
structure Exchange (files : Files) (rs : List Request) extends Arrival files rs where
  taken : Client
  sends : List SendEnv
  back : Client
  take : receiveRequests recv start = some (0, taken)
  ordinary : ∀ env ∈ sends, env.Ordinary fun w => w.openFile = files
  ending : (answer sends taken).ending = .returned 0 back

namespace Exchange
variable {files : Files} {rs : List Request}

def sent (x : Exchange files rs) : Bytes := (answer x.sends x.taken).accepted

/-- The responses it sent. -/
def responses (x : Exchange files rs) : List Bytes :=
  EventServer.responses (builtParts x.taken x.sends)

/-- The batch is parsed, and its first header built. -/
theorem parsed (x : Exchange files rs) (hlen : rs.length ≤ maxRequests) :
    ∃ status slots, parseBatch rs = some (status, slots) ∧ x.taken.numRequests = slots.length ∧
      Shown files (requestArray slots) status [⟨.header, 0, x.taken.sendBuf.contents⟩] x.taken := by
  obtain ⟨p, hp⟩ := x.reach.receiving x.state
  obtain rfl : p = [] := List.length_eq_zero_iff.mp (hp.length ▸ x.nothing)
  obtain ⟨r, c₁, hrecv, hcases⟩ := receiveRequests_cases x.take
  have hdel := recvData_delivered hp x.arrive
  rw [List.nil_append, x.text] at hdel
  split at hdel
  swap
  · rw [hrecv] at hdel
    cases hdel
  obtain ⟨c₁', hrecv', hc₁⟩ := hdel
  rw [hrecv] at hrecv'
  cases hrecv'
  rcases hcases with ⟨h0, -⟩ | ⟨-, -, ⟨-, h01, -⟩ | ⟨-, -, htake⟩⟩
  · exact absurd rfl h0
  · cases h01
  obtain ⟨status, c₂, c₃, hparse, hbuild, htaken⟩ := takeRequests_spec htake
  have hz : strstr crlfcrlf (List.replicate (bufferMax - (renderAll rs).length) 0) = none := by
    cases bufferMax - (renderAll rs).length with
    | zero => rfl
    | succ k => rfl
  have hbatch := requestToStruct_batch x.recv.heap hz hlen hc₁.data hc₁.requests hc₁.numRequests
  rw [hparse, Option.map_some] at hbatch
  obtain ⟨⟨status', slots⟩, hslots, heq⟩ := Option.map_eq_some_iff.mp hbatch.symm
  simp only [Prod.mk.injEq] at heq
  obtain ⟨rfl, hrequests, hnum⟩ := heq
  obtain ⟨hcur, -, -⟩ := requestToStruct_spec hparse
  have hcur0 : c₂.curRequest = 0 := hcur.trans hc₁.curRequest
  have hframe := buildHeader_frame hbuild
  obtain ⟨hstatus, hshows⟩ := buildHeader_shows (s := status') (c := { c₂ with
    status := status', sendBuf := c₂.sendBuf.clear }) x.recvFiles hrequests.symm
    (by rw [hcur0]; rfl) hbuild
  rw [htaken]
  refine ⟨status', slots, hslots, hframe.numRequests.trans hnum.symm,
    hframe.requests.trans hrequests.symm, ?_, ?_⟩
  · change c₃.status = statusAfter files (requestArray slots) status' (c₃.curRequest + 1)
    rw [hframe.curRequest]
    exact hstatus
  · intro b hb
    rw [List.mem_singleton.mp hb]
    simpa only [hcur0] using hshows

/-- **The responses of an exchange**: one for each slot, or one if there is none. -/
theorem response (x : Exchange files rs) (hlen : rs.length ≤ maxRequests) :
    ∃ status slots, parseBatch rs = some (status, slots) ∧
      x.sent = x.responses.flatten ∧ x.responses.length = max slots.length 1 ∧
      ∀ i < max slots.length 1, ∃ p d m, (13 : UInt8) ∉ d ∧ (13 : UInt8) ∉ m ∧
        x.responses[i]? = some (p.head d m ++ p.body) ∧
        pageFor files (statusAfter files (requestArray slots) status (i + 1))
          (requestArray slots)[i]? = some p := by
  obtain ⟨status, slots, hslots, hnum, hshown⟩ := x.parsed hlen
  have hkept := ((Progress.kept x.taken.numRequests).mono (fun _ _ => trivial)).and
    (Shown.kept files (requestArray slots) status)
  have hspec := hkept.answer x.ordinary ⟨Progress.start x.reach x.state x.take, hshown⟩
  rw [Sent.Spec, x.ending, List.nil_append] at hspec
  obtain ⟨c, ⟨hprogress, hshown⟩, hsending, hunsent, hlast, -⟩ := hspec
  obtain ⟨hlabels, hbytes⟩ := hprogress.finished hsending hunsent hlast
  rw [hnum] at hlabels
  obtain ⟨hflatten, hcount, hparts⟩ := responses_of_labels hlabels
  refine ⟨status, slots, hslots, hbytes.trans hflatten.symm, hcount, fun i hi => ?_⟩
  obtain ⟨header, hheader, body, hbody, hhl, hbl, hresponse⟩ := hparts i hi
  obtain ⟨p, d, m, hpage, hd, hm, hhead⟩ := (hshown.shows header hheader).header hhl
  refine ⟨p, d, m, hd, hm, ?_, hpage⟩
  refine hresponse.trans ?_
  rw [hhead, (hshown.shows body hbody).body hbl hpage]
  split <;> simp

end Exchange

/-! ## A request by itself

What a response should be is what the server sends to the request when it comes alone. -/

/-- The status of the response to a request by itself. -/
def Request.status (files : Files) (r : Request) : Status :=
  if r.Accepted then
    match filepath r.uri with
    | none => .ok
    | some path => match files path with
        | .ok _ => .ok
        | .error errno => errno.status
  else r.refusal

/-- The page of a request under a status. -/
def Request.page (files : Files) (r : Request) (s : Status) : Option Page :=
  if s = .ok then do
    let path ← filepath r.uri
    match files path with
    | .ok file => some (okPage r.version (filetypeOf r.uri) file)
    | .error _ => none
  else errorPage s

theorem nextStatus_slot (files : Files) {r : Request} {slot : HttpRequest}
    (h : r.outcome = .ok slot) : nextStatus files .ok (some slot) = r.status files := by
  rcases r.outcome_cases with h' | ⟨-, h'⟩ | ⟨hacc, host, headers, h'⟩
  · rw [h] at h'; cases h'
  · rw [h] at h'; cases h'
  · rw [h] at h'
    cases h'
    rw [nextStatus, if_pos rfl, Request.status, if_pos hacc]
    rfl

theorem pageFor_slot (files : Files) {r : Request} {slot : HttpRequest}
    (h : r.outcome = .ok slot) (s : Status) : pageFor files s (some slot) = r.page files s := by
  rcases r.outcome_cases with h' | ⟨-, h'⟩ | ⟨hacc, host, headers, h'⟩
  · rw [h] at h'; cases h'
  · rw [h] at h'; cases h'
  · rw [h] at h'
    cases h'
    rfl

/-- The status line of the pages of a status. -/
def statusLine (s : Status) : Option Bytes :=
  if s = .ok then some (ascii "HTTP/1.1 200 OK")
  else (errorText s).map fun (line, _) => ascii "HTTP/1.1 " ++ line

theorem statusLine_inj {s s' : Status} {line : Bytes} (h : statusLine s = some line)
    (h' : statusLine s' = some line) : s = s' := by
  rw [← h] at h'
  cases s <;> cases s' <;> first | rfl | exact absurd h' (by decide)

theorem statusLine_printable {s : Status} {line : Bytes} (h : statusLine s = some line) :
    (13 : UInt8) ∉ line ∧ (68 : UInt8) ∉ line := by
  cases s <;> cases h <;> decide

theorem Request.page_statusLine {files : Files} {r : Request} {s : Status} {p : Page}
    (hacc : s = .ok → r.Accepted) (hp : r.page files s = some p) :
    statusLine s = some p.statusLine := by
  rw [page] at hp
  rw [statusLine]
  split at hp
  next hok =>
    obtain ⟨path, -, hp⟩ := Option.bind_eq_some_iff.mp hp
    split at hp
    · cases hp
      rw [if_pos hok, okPage, (hacc hok).2]
      exact congrArg some (by decide : ascii "HTTP/1.1 200 OK" = http11 ++ ascii " 200 OK")
    · cases hp
  next hne =>
    obtain ⟨⟨line, data⟩, htext, hp⟩ := Option.map_eq_some_iff.mp hp
    cases hp
    rw [if_neg hne, htext]
    rfl

/-- Two responses to a request are the same but for their dates exactly if they have the
same status. -/
theorem Request.sameButDates_iff {files : Files} {r : Request} {s s' : Status} {p p' : Page}
    (hacc : s = .ok → r.Accepted) (hacc' : s' = .ok → r.Accepted)
    (hp : r.page files s = some p) (hp' : r.page files s' = some p')
    {d m d' m' : Bytes} (hdates : ∀ x ∈ [d, m, d', m'], (13 : UInt8) ∉ x) :
    SameButDates (p.head d m ++ p.body) (p'.head d' m' ++ p'.body) ↔ s = s' := by
  constructor
  · intro hsame
    have hline := page_statusLine hacc hp
    have hline' := page_statusLine hacc' hp'
    obtain ⟨hcr, hD⟩ := statusLine_printable hline
    have hfirst : ∀ (p : Page) (d m : Bytes), (13 : UInt8) ∉ p.statusLine →
        firstLine (p.head d m ++ p.body) = p.statusLine := by
      intro p d m hp
      simp only [Page.head, List.append_assoc]
      exact firstLine_append_cr hp _
    have heq := hsame.firstLine_eq (by rwa [hfirst p d m hcr])
    rw [hfirst p d m hcr, hfirst p' d' m' (statusLine_printable hline').1] at heq
    rw [← heq] at hline'
    exact statusLine_inj hline hline'
  · rintro rfl
    obtain rfl := Option.some.inj (hp.symm.trans hp')
    exact p.sameButDates hdates

/-! ## One status for all -/

/-- A failure that is carried on from then on gives each its own status exactly if all
that follow the first failure fail alike. -/
theorem carried_eq_iff {S : Nat → Status} {ts : List Status} (h0 : S 0 = .ok)
    (hstep : ∀ i (hi : i < ts.length), S (i + 1) = if S i = .ok then ts[i] else S i) :
    (∀ i (hi : i < ts.length), S (i + 1) = ts[i]) ↔
      ts.Pairwise fun t u => t ≠ .ok → u = t := by
  rw [List.pairwise_iff_getElem]
  constructor
  · intro hown i j hi hj hij hne
    -- the failure of `i` is still there at `j`
    have hcarry : ∀ k, i + 1 + k < ts.length + 1 → S (i + 1 + k) = ts[i] := by
      intro k
      induction k with
      | zero => exact fun _ => hown i hi
      | succ k ih =>
          intro hk
          have ih := ih (by omega)
          rw [← Nat.add_assoc, hstep _ (by omega), ih, if_neg hne]
    obtain ⟨k, rfl⟩ : ∃ k, j = i + 1 + k := ⟨j - (i + 1), by omega⟩
    rw [← hown _ hj]
    exact hcarry (k + 1) (by omega)
  · intro halike i
    induction i with
    | zero => intro hi; rw [hstep 0 hi, h0, if_pos rfl]
    | succ i ih =>
        intro hi
        have ih := ih (by omega)
        rw [hstep _ hi]
        split
        · rfl
        next hne =>
          rw [ih] at hne ⊢
          exact (halike i (i + 1) (by omega) hi (Nat.lt_succ_self i) hne).symm

/-! ## The responses to a batch

The statuses that the responses of a batch get, in the order of its requests. -/

/-- The statuses the responses to a batch have: `k` responses are sent, the one to
request `i` under the status `S (i + 1)`. -/
inductive Shares (files : Files) (rs : List Request) (S : Nat → Status) : Nat → Prop where
  | all (haccepted : ∀ r ∈ rs, r.Accepted) (h0 : S 0 = .ok)
      (hstep : ∀ i (hi : i < rs.length),
        S (i + 1) = if S i = .ok then rs[i].status files else S i) : Shares files rs S rs.length
  | refused (j : Nat) (hj : j < rs.length) (hrefused : ¬ rs[j].Accepted)
      (hfirst : j = 0 → S 1 = rs[j].status files) : Shares files rs S (max j 1)

namespace Exchange
variable {files : Files} {rs : List Request}

theorem shares (x : Exchange files rs) (hpos : rs ≠ []) (hlen : rs.length ≤ maxRequests) :
    ∃ S, Shares files rs S x.responses.length ∧ x.sent = x.responses.flatten ∧
      ∀ i (hi : i < x.responses.length), ∃ r p d m, rs[i]? = some r ∧
        (13 : UInt8) ∉ d ∧ (13 : UInt8) ∉ m ∧ x.responses[i] = p.head d m ++ p.body ∧
        (S (i + 1) = .ok → r.Accepted) ∧ r.page files (S (i + 1)) = some p := by
  obtain ⟨status, slots, hparse, hsent, hcount, hresponses⟩ := x.response hlen
  obtain ⟨hslots, hend⟩ := parseBatch_cases hparse
  obtain ⟨S, hS⟩ : ∃ S, S = statusAfter files (requestArray slots) status := ⟨_, rfl⟩
  rw [← hS] at hresponses
  -- the slot of a parsed request
  have harray : ∀ i (hi : i < slots.length), ∃ r slot, rs[i]? = some r ∧
      (requestArray slots)[i]? = some slot ∧ r.outcome = .ok slot := by
    intro i hi
    obtain ⟨r, hr, ho⟩ := hslots i slots[i] (List.getElem?_eq_getElem hi)
    exact ⟨r, slots[i], hr,
      (List.getElem?_append_left hi).trans (List.getElem?_eq_getElem hi), ho⟩
  have haccepted : ∀ {r : Request} {slot : HttpRequest}, r.outcome = .ok slot → r.Accepted := by
    intro r slot ho
    rcases r.outcome_cases with h | ⟨-, h⟩ | ⟨hacc, -⟩
    · rw [ho] at h; cases h
    · rw [ho] at h; cases h
    · exact hacc
  -- the first status after a refusal
  have hrefused : ∀ {r : Request}, status = r.refusal → S 1 = r.refusal := by
    intro r hstatus
    have hne : status ≠ .ok := hstatus ▸ r.refusal_ne_ok
    rw [hS, ← hstatus, statusAfter, statusAfter, nextStatus, if_neg hne]
  refine ⟨S, ?_, hsent, fun i hi => ?_⟩
  · rcases hend with ⟨hall, hok⟩ | ⟨r, hr, hacc, hstatus⟩
    · have hk : max slots.length 1 = rs.length := by
        have := List.length_pos_iff.mpr hpos
        omega
      rw [hcount, hk]
      refine .all (fun r hr => ?_) (by rw [hS, statusAfter, hok]) fun i hi => ?_
      · obtain ⟨i, hi, rfl⟩ := List.mem_iff_getElem.mp hr
        obtain ⟨r, slot, hr, -, ho⟩ := harray i (hall ▸ hi)
        rw [List.getElem?_eq_getElem hi] at hr
        cases hr
        exact haccepted ho
      · obtain ⟨r, slot, hr, hslot, ho⟩ := harray i (hall ▸ hi)
        rw [List.getElem?_eq_getElem hi] at hr
        cases hr
        rw [hS, statusAfter, hslot, ← hS]
        split
        next hSi => rw [hSi, nextStatus_slot files ho]
        next hSi => rw [nextStatus, if_neg hSi]
    · rw [hcount]
      obtain ⟨hj, rfl⟩ := List.getElem?_eq_some_iff.mp hr
      refine .refused slots.length hj hacc fun h0 => ?_
      rw [hrefused hstatus, Request.status, if_neg hacc]
  · obtain ⟨p, d, m, hd, hm, hresponse, hpage⟩ := hresponses i (hcount ▸ hi)
    rw [List.getElem?_eq_getElem hi] at hresponse
    by_cases hi' : i < slots.length
    · obtain ⟨r, slot, hr, hslot, ho⟩ := harray i hi'
      rw [hslot, pageFor_slot files ho] at hpage
      exact ⟨r, p, d, m, hr, hd, hm, Option.some.inj hresponse, fun _ => haccepted ho, hpage⟩
    · rw [hcount] at hi
      obtain rfl : i = 0 := by omega
      have h0 : slots.length = 0 := by omega
      rcases hend with ⟨hall, -⟩ | ⟨r, hr, hacc, hstatus⟩
      · exact absurd (List.length_eq_zero_iff.mp (hall.symm.trans h0)) hpos
      have hne : S 1 ≠ .ok := by
        rw [hrefused hstatus]
        exact r.refusal_ne_ok
      rw [pageFor, if_neg hne] at hpage
      refine ⟨r, p, d, m, h0 ▸ hr, hd, hm, Option.some.inj hresponse, fun h => absurd h hne, ?_⟩
      rw [Request.page, if_neg hne]
      exact hpage

end Exchange

/-- **Independent requests**: one alone, or requests that the parser takes and of which
all after the first that fails fail alike. -/
def Independent (files : Files) (rs : List Request) : Prop :=
  rs.length = 1 ∨ (∀ r ∈ rs, r.Accepted) ∧
    rs.Pairwise fun r r' => r.status files ≠ .ok → r'.status files = r.status files

section Independent
variable {files : Files} {rs : List Request} {S : Nat → Status} {k : Nat}

/-- A request alone gets its own status. -/
theorem Shares.alone {r : Request} (h : Shares files [r] S k) : k = 1 ∧ S 1 = r.status files := by
  cases h with
  | all _ h0 hstep => exact ⟨rfl, by rw [hstep 0 Nat.one_pos, if_pos h0]; rfl⟩
  | refused j hj _ hfirst =>
      obtain rfl : j = 0 := by simpa using hj
      exact ⟨rfl, hfirst rfl⟩

/-- Each request gets its own status exactly if the requests are independent. -/
theorem Shares.own_iff (h : Shares files rs S k) :
    (k = rs.length ∧ ∀ i (hi : i < rs.length), S (i + 1) = rs[i].status files) ↔
      Independent files rs := by
  cases h with
  | all haccepted h0 hstep =>
      have hcarried := @carried_eq_iff S (rs.map fun r => r.status files) h0 fun i hi => by
        rw [List.getElem_map]
        exact hstep i (by simpa using hi)
      simp only [List.length_map, List.getElem_map, List.pairwise_map] at hcarried
      constructor
      · exact fun ⟨_, hown⟩ => .inr ⟨haccepted, hcarried.mp hown⟩
      · rintro (hone | ⟨-, hpair⟩)
        · refine ⟨rfl, fun i hi => ?_⟩
          obtain rfl : i = 0 := by omega
          rw [hstep 0 hi, if_pos h0]
        · exact ⟨rfl, hcarried.mpr hpair⟩
  | refused j hj hrefused hfirst =>
      constructor
      · intro ⟨hk, _⟩
        exact .inl (by omega)
      · rintro (hone | ⟨hall, -⟩)
        · obtain rfl : j = 0 := by omega
          refine ⟨by omega, fun i hi => ?_⟩
          obtain rfl : i = 0 := by omega
          exact hfirst rfl
        · exact absurd (hall _ (List.getElem_mem hj)) hrefused

end Independent

namespace Exchange
variable {files : Files} {rs : List Request}

theorem alone_sent {r : Request} (y : Exchange files [r]) : ∃ p d m, (13 : UInt8) ∉ d ∧
    (13 : UInt8) ∉ m ∧ y.sent = p.head d m ++ p.body ∧
    (r.status files = .ok → r.Accepted) ∧ r.page files (r.status files) = some p := by
  obtain ⟨S, hshares, hsent, hpages⟩ := y.shares (List.cons_ne_nil _ _) (by decide : 1 ≤ 10)
  obtain ⟨hone, hS⟩ := hshares.alone
  obtain ⟨response, hresponses⟩ := List.length_eq_one_iff.mp hone
  obtain ⟨r', p, d, m, hr, hd, hm, hresponse, hacc, hpage⟩ := hpages 0 (hone ▸ Nat.one_pos)
  cases hr
  rw [hS] at hacc hpage
  refine ⟨p, d, m, hd, hm, ?_, hacc, hpage⟩
  rw [hsent, ← hresponse]
  simp [hresponses]

/-- The responses to a batch are those of its requests alone, dates apart. -/
def AsAlone (x : Exchange files rs)
    (alone : ∀ i (hi : i < rs.length), Exchange files [rs[i]]) : Prop :=
  x.responses.length = rs.length ∧
    ∀ i (hi : i < rs.length), ∃ response ∈ x.responses[i]?, SameButDates response (alone i hi).sent

theorem asAlone_iff (x : Exchange files rs) (hpos : rs ≠ []) (hlen : rs.length ≤ maxRequests)
    (alone : ∀ i (hi : i < rs.length), Exchange files [rs[i]]) :
    x.sent = x.responses.flatten ∧ (x.AsAlone alone ↔ Independent files rs) := by
  obtain ⟨S, hshares, hsent, hpages⟩ := x.shares hpos hlen
  refine ⟨hsent, ?_⟩
  rw [← hshares.own_iff, AsAlone]
  refine and_congr_right fun hk => forall₂_congr fun i hi => ?_
  obtain ⟨r, p, d, m, hr, hd, hm, hresponse, hacc, hpage⟩ := hpages i (hk ▸ hi)
  obtain ⟨p', d', m', hd', hm', hsent', hacc', hpage'⟩ := (alone i hi).alone_sent
  rw [List.getElem?_eq_getElem hi] at hr
  cases hr
  rw [List.getElem?_eq_getElem (hk ▸ hi), hresponse, hsent']
  simp only [Option.mem_def, Option.some.injEq, exists_eq_left']
  refine Request.sameButDates_iff hacc hacc' hpage hpage' fun x hx => ?_
  simp only [List.mem_cons, List.not_mem_nil, or_false] at hx
  rcases hx with rfl | rfl | rfl | rfl <;> assumption

end Exchange

/-! ## The result -/

/-- Safe requests that arrive together are answered. -/
theorem Arrival.served {files : Files} {rs : List Request} (a : Arrival files rs) (hpos : rs ≠ [])
    (hlen : rs.length ≤ maxRequests) (hsafe : ∀ r ∈ rs, r.Safe files)
    (hsize : (renderAll rs).length < bufferMax) :
    ∃ taken, receiveRequests a.recv a.start = some (0, taken) ∧
      (∀ sends : List SendEnv, (∀ env ∈ sends, env.Ordinary fun w => w.openFile = files) →
        (answer sends taken).ending ≠ .undefined) ∧
      ∃ x : Exchange files rs, x.toArrival = a := by
  obtain ⟨p, hp⟩ := a.reach.receiving a.state
  obtain rfl : p = [] := List.length_eq_zero_iff.mp (hp.length ▸ a.nothing)
  obtain ⟨c₁, hc₁, hrecv⟩ := receiveRequests_arrived hp a.arrive
    (by rw [List.nil_append, a.text]; exact hsize)
  rw [List.nil_append, a.text] at hc₁ hrecv
  have hfind : strstr crlfcrlf (renderAll rs) ≠ none := by
    cases rs with
    | nil => exact absurd rfl hpos
    | cons r rs =>
        have h := strstr_renderAll r rs []
        rw [List.append_nil] at h
        rw [h]
        exact Option.some_ne_none _
  obtain ⟨zeros, hzeros, hdata⟩ := hc₁.data_eq hsize
  have hz : strstr crlfcrlf (0 :: zeros) = none := rfl
  obtain ⟨taken, htake, hstate, hservable⟩ := takeRequests_servable hpos hlen hsafe hsize hz hdata
    hc₁.requests hc₁.numRequests hc₁.curRequest a.recv.heap a.recvFiles
  have htaken : receiveRequests a.recv a.start = some (0, taken) := by
    rw [show a.recv = ⟨a.recv.script, a.recv.heap, a.recv.world⟩ from
      rfl, hrecv, if_neg hfind, htake]
    rfl
  obtain ⟨sends, hsends, back, hback⟩ := hservable.exists_answer hstate a.recvFiles
  exact ⟨taken, htaken, fun _ => hservable.answer_defined,
    ⟨a, taken, sends, back, htaken, hsends, hback⟩, rfl⟩

/-- **Pipelined responses.**  The server sends one response to each request of a batch,
the one it would send to the request alone, exactly if the requests are independent.
Safe requests are always answered. -/
theorem responses_independent_iff {files : Files} {rs : List Request} (hpos : rs ≠ [])
    (hlen : rs.length ≤ maxRequests) :
    (∀ (x : Exchange files rs) (alone : ∀ i (hi : i < rs.length), Exchange files [rs[i]]),
        x.sent = x.responses.flatten ∧ (x.AsAlone alone ↔ Independent files rs)) ∧
      ((∀ r ∈ rs, r.Safe files) → (renderAll rs).length < bufferMax → ∀ a : Arrival files rs,
        ∃ taken, receiveRequests a.recv a.start = some (0, taken) ∧
          (∀ sends : List SendEnv, (∀ env ∈ sends, env.Ordinary fun w => w.openFile = files) →
            (answer sends taken).ending ≠ .undefined) ∧
          ∃ x : Exchange files rs, x.toArrival = a) :=
  ⟨fun x => x.asAlone_iff hpos hlen, fun hsafe hsize a => a.served hpos hlen hsafe hsize⟩

/-! ## A page for two requests -/

theorem pageWorld_small {path : Bytes} {file : File} (h : pageWorld.openFile path = .ok file) :
    file.Small := by
  simp only [pageWorld] at h
  split at h
  · cases h
    exact ⟨by decide, by decide⟩
  · cases h

theorem getRequest_safe (uri : Bytes) (huri : IsWord uri) :
    (getRequest uri huri).Safe pageWorld.openFile :=
  ⟨(by decide : (ascii "GET").length < 16), (by decide : http11.length < 32),
    ⟨nofun, Nat.zero_le _⟩, fun _ _ _ hfile => pageWorld_small hfile⟩

/-- The requests arrive in one piece at a new client. -/
def pageArrival (rs : List Request) (hpos : 0 < (renderAll rs).length)
    (hsize : (renderAll rs).length ≤ bufferMax) : Arrival pageWorld.openFile rs where
  start := newClient 0
  recv := pageRecv (renderAll rs)
  reach := .new 0
  state := rfl
  nothing := rfl
  arrive := by simpa [pageRecv, RecvOutcome.Ordinary] using ⟨hpos, hsize⟩
  text := List.append_nil _
  recvFiles := rfl

/-- A missing page last: each response is the one to the request alone. -/
theorem rootMissing_asAlone : ∃ (x : Exchange pageWorld.openFile [getRoot, getMissing])
    (alone : ∀ i (hi : i < [getRoot, getMissing].length),
      Exchange pageWorld.openFile [[getRoot, getMissing][i]]), x.AsAlone alone := by
  have hboth := @responses_independent_iff pageWorld.openFile [getRoot, getMissing] (by simp)
    (by decide)
  have hroot := @responses_independent_iff pageWorld.openFile [getRoot] (by simp) (by decide)
  have hmissing := @responses_independent_iff pageWorld.openFile [getMissing] (by simp) (by decide)
  obtain ⟨-, -, -, x, -⟩ := hboth.2 (by simp [getRoot, getMissing, getRequest_safe]) (by decide)
    (pageArrival _ (by decide) (by decide))
  obtain ⟨-, -, -, y, -⟩ := hroot.2 (by simp [getRoot, getRequest_safe]) (by decide)
    (pageArrival _ (by decide) (by decide))
  obtain ⟨-, -, -, z, -⟩ := hmissing.2 (by simp [getMissing, getRequest_safe]) (by decide)
    (pageArrival _ (by decide) (by decide))
  refine ⟨x, fun | 0, _ => y | 1, _ => z, (hboth.1 x _).2.mpr (.inr ⟨by decide, ?_⟩)⟩
  have hok : getRoot.status pageWorld.openFile = .ok := by decide
  simp [hok]

/-- A missing page first: the page that is there is answered as missing, too. -/
theorem missingRoot_not_asAlone : ∃ (x : Exchange pageWorld.openFile [getMissing, getRoot])
    (alone : ∀ i (hi : i < [getMissing, getRoot].length),
      Exchange pageWorld.openFile [[getMissing, getRoot][i]]), ¬ x.AsAlone alone := by
  obtain ⟨-, -, -, x, -⟩ := (pageArrival [getMissing, getRoot] (by decide) (by decide)).served
    (by simp) (by decide) (by simp [getRoot, getMissing, getRequest_safe]) (by decide)
  obtain ⟨-, -, -, y, -⟩ := (pageArrival [getMissing] (by decide) (by decide)).served
    (by simp) (by decide) (by simp [getMissing, getRequest_safe]) (by decide)
  obtain ⟨-, -, -, z, -⟩ := (pageArrival [getRoot] (by decide) (by decide)).served
    (by simp) (by decide) (by simp [getRoot, getRequest_safe]) (by decide)
  refine ⟨x, fun | 0, _ => y | 1, _ => z, fun hsame => ?_⟩
  rcases ((x.asAlone_iff (by simp) (by decide) _).2.mp hsame) with hone | ⟨-, halike⟩
  · cases hone
  · have hok : getRoot.status pageWorld.openFile = .ok := by decide
    have hmissing : getMissing.status pageWorld.openFile = .notFound := by decide
    simp [hok, hmissing] at halike

end InternetLabs.EventServer
