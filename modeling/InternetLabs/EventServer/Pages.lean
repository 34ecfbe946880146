/-
# `InternetLabs.EventServer.Pages` — what the builders write

Both header builders write the same lines in the same order, and differ in a few
fields: a response is a `Page` and two dates.  `buildErrorHeader_page`,
`buildOkHeader_page` and `buildOkBody_page` say which page each builder writes;
`SameButDates` compares responses with their dates left out.
-/
import InternetLabs.EventServer.Respond

namespace InternetLabs.EventServer

open InternetLabs

/-! ## Texts -/

def Response.text (r : Response) : Bytes := r.data.take r.length

theorem Response.sprintf_text {r : Response} (h : r.length ≤ r.data.length) (text : Bytes) :
    (r.sprintf text).text = r.text ++ text := by
  have hpad : r.length - r.data.length = 0 := Nat.sub_eq_zero_of_le h
  have hlen : (r.data.take r.length).length = r.length := by
    rw [List.length_take]
    exact Nat.min_eq_left h
  rw [Response.text, Response.text, Response.sprintf, writeAt, hpad, List.replicate_zero,
    List.append_nil]
  simp only [List.append_assoc]
  rw [List.take_append, hlen, Nat.add_sub_cancel_left, List.take_left, List.take_take,
    Nat.min_eq_right (Nat.le_add_right _ _)]

theorem Response.sprintf_le (r : Response) (text : Bytes) :
    (r.sprintf text).length ≤ (r.sprintf text).data.length := by
  simp only [Response.sprintf, length_writeAt, List.length_append, List.length_singleton]
  omega

/-- A response without its dates. -/
structure Page where
  statusLine : Bytes
  contentType : Bytes
  contentLength : Int
  body : Bytes

def Page.head (p : Page) (date modified : Bytes) : Bytes :=
  p.statusLine ++ crlf ++ (ascii "Date" ++ ascii ": " ++ date ++ crlf) ++
    (ascii "Server" ++ ascii ": " ++ ascii "Prestige/CS360 (Ubuntu 64-bit)" ++ crlf) ++
    (ascii "Content-Type" ++ ascii ": " ++ p.contentType ++ crlf) ++
    (ascii "Content-Length" ++ ascii ": " ++ decimal p.contentLength ++ crlf) ++
    (ascii "Last-Modified" ++ ascii ": " ++ modified ++ crlf) ++ crlf

/-- The page of `build_error_header`. -/
def errorPage (s : Status) : Option Page :=
  (errorText s).map fun (line, data) =>
    { statusLine := ascii "HTTP/1.1 " ++ line, contentType := ascii "text/html",
      contentLength := data.length, body := data }

/-- What reading a file gives. -/
def File.content (f : File) : Bytes := (f.reads.takeWhile (· ≠ [])).flatten

/-- The page of `build_ok_header` and `build_ok_body`. -/
def okPage (version filetype : Bytes) (file : File) : Page :=
  { statusLine := version ++ ascii " 200 OK", contentType := filetype,
    contentLength := intOfSize file.size, body := file.content }

/-! ## The builders

What each builder leaves in the send buffer is the page of the answer. -/

section Builders
variable {w : World} {c c' : Client}

theorem buildErrorHeader_page (h : buildErrorHeader w c = some c') :
    ∃ p, errorPage c.status = some p ∧
      c'.sendBuf.contents = p.head (w.date w.now) (w.date w.now) ++ p.body := by
  obtain ⟨⟨line, data⟩, htext, h⟩ := Option.bind_eq_some_iff.mp h
  obtain ⟨r, hlength, h⟩ := Option.bind_eq_some_iff.mp h
  refine ⟨_, by rw [errorPage, htext]; rfl, ?_⟩
  rw [setContentLengthHeader] at hlength
  split at hlength
  swap
  · cases hlength
  obtain rfl := Option.some.inj hlength
  obtain rfl := Option.some.inj h
  change Response.text _ = _
  simp only [setModifiedDateHeader, setContentTypeHeader, setServernameHeader, setDateHeader,
    setHeader, Response.sprintf_text (Response.sprintf_le _ _)]
  rw [Response.sprintf_text (Nat.zero_le _)]
  simp only [Response.text, List.take_zero, List.nil_append, Page.head, List.append_assoc]

theorem buildErrorHeader_isSome (h : (errorText c.status).isSome) :
    ∃ c', buildErrorHeader w c = some c' := by
  have hshort : ∀ s line data, errorText s = some (line, data) →
      (decimal (data.length : Int)).length < 10 := by
    intro s line data hs
    cases s <;> cases hs <;> decide
  obtain ⟨⟨line, data⟩, htext⟩ := Option.isSome_iff_exists.mp h
  have hlen := hshort _ _ _ htext
  simp only [buildErrorHeader, htext, setContentLengthHeader, if_pos hlen, bind, Option.bind]
  exact ⟨_, rfl⟩

theorem buildOkHeader_page (h : buildOkHeader w c = some c') :
    ∃ request uri path, c.requests[c.curRequest]? = some request ∧ request.uri = some uri ∧
      filepath uri = some path ∧
      match w.openFile path with
      | .error errno => c'.status = errno.status ∧ ∃ p, errorPage errno.status = some p ∧
          c'.sendBuf.contents = p.head (w.date w.now) (w.date w.now) ++ p.body
      | .ok file => c'.status = c.status ∧ ∃ version filetype, request.version = some version ∧
          request.filetype = some filetype ∧
          c'.sendBuf.contents
            = (okPage version filetype file).head (w.date w.now) (w.date file.ctime) := by
  obtain ⟨request, hrequest, h⟩ := Option.bind_eq_some_iff.mp h
  obtain ⟨uri, huri, h⟩ := Option.bind_eq_some_iff.mp h
  obtain ⟨path, hpath, h⟩ := Option.bind_eq_some_iff.mp h
  refine ⟨request, uri, path, hrequest, huri, hpath, ?_⟩
  cases hopen : w.openFile path with
  | error errno =>
      rw [hopen] at h
      exact ⟨(buildErrorHeader_frame h).2, buildErrorHeader_page h⟩
  | ok file =>
      rw [hopen] at h
      obtain ⟨version, hversion, h⟩ := Option.bind_eq_some_iff.mp h
      obtain ⟨filetype, hfiletype, h⟩ := Option.bind_eq_some_iff.mp h
      obtain ⟨r, hlength, h⟩ := Option.bind_eq_some_iff.mp h
      rw [setContentLengthHeader] at hlength
      split at hlength
      swap
      · cases hlength
      obtain rfl := Option.some.inj hlength
      obtain rfl := Option.some.inj h
      refine ⟨rfl, version, filetype, hversion, hfiletype, ?_⟩
      change Response.text _ = _
      simp only [setModifiedDateHeader, setContentTypeHeader, setServernameHeader, setDateHeader,
        setHeader, Response.sprintf_text (Response.sprintf_le _ _)]
      rw [Response.sprintf_text (Nat.zero_le _)]
      simp only [Response.text, List.take_zero, List.nil_append, Page.head, okPage,
        List.append_assoc]
      rfl

theorem appendRead_contents {bytes : Bytes} {b b' : Buffer} (hb : b.length ≤ b.data.length)
    (h : appendRead bytes b = some b') :
    b'.contents = b.contents ++ bytes ∧ b'.length ≤ b'.data.length := by
  have hwrite : ∀ m : Bytes, b.length ≤ m.length →
      (writeAt m b.length bytes).take (b.length + bytes.length) = m.take b.length ++ bytes := by
    intro m hm
    have hlen : (m.take b.length).length = b.length := by
      rw [List.length_take]
      exact Nat.min_eq_left hm
    rw [writeAt, Nat.sub_eq_zero_of_le hm, List.replicate_zero, List.append_nil,
      List.take_append_of_le_length (by rw [List.length_append, hlen])]
    exact List.take_of_length_le (by rw [List.length_append, hlen])
  simp only [appendRead] at h
  split at h
  · split at h
    · cases h
      have hgrown : b.length ≤ (b.data.take b.length
          ++ List.replicate ((b.length + bytes.length) * 2 - b.length) 0).length := by
        rw [List.length_append, List.length_take, Nat.min_eq_left hb]
        exact Nat.le_add_right _ _
      refine ⟨(hwrite _ hgrown).trans ?_, ?_⟩
      · rw [List.take_append_of_le_length (by rw [List.length_take, Nat.min_eq_left hb]),
          List.take_take, Nat.min_self]
        rfl
      · rw [length_writeAt]
        exact Nat.le_max_right _ _
    · cases h
  · cases h
    refine ⟨hwrite _ hb, ?_⟩
    rw [length_writeAt]
    exact Nat.le_max_right _ _

/-- The loop of `build_ok_body` appends the pieces, up to the first empty one. -/
theorem readLoop_contents {reads : List Bytes} {b b' : Buffer} (hb : b.length ≤ b.data.length)
    (h : readLoop reads b = some b') :
    b'.contents = b.contents ++ (reads.takeWhile (· ≠ [])).flatten := by
  induction reads generalizing b with
  | nil => cases h; exact (List.append_nil _).symm
  | cons bytes rest ih =>
      rw [readLoop] at h
      split at h
      next hempty =>
        cases h
        rw [hempty]
        exact (List.append_nil _).symm
      next hne =>
        obtain ⟨b₁, happend, h⟩ := Option.bind_eq_some_iff.mp h
        obtain ⟨hcontents, hb₁⟩ := appendRead_contents hb happend
        rw [ih hb₁ h, hcontents, List.takeWhile_cons_of_pos (by simpa using hne),
          List.flatten_cons, List.append_assoc]

/-- The body of a file that can be opened, from a cleared buffer. -/
theorem buildOkBody_page (hlength : c.sendBuf.length = 0) (h : buildOkBody w c = some c') :
    ∃ request uri path, c.requests[c.curRequest]? = some request ∧ request.uri = some uri ∧
      filepath uri = some path ∧
      ∀ file, w.openFile path = .ok file → c'.sendBuf.contents = file.content := by
  obtain ⟨request, hrequest, h⟩ := Option.bind_eq_some_iff.mp h
  obtain ⟨uri, huri, h⟩ := Option.bind_eq_some_iff.mp h
  obtain ⟨path, hpath, h⟩ := Option.bind_eq_some_iff.mp h
  obtain ⟨sendBuf, hread, h⟩ := Option.bind_eq_some_iff.mp h
  cases h
  refine ⟨request, uri, path, hrequest, huri, hpath, fun file hopen => ?_⟩
  rw [hopen] at hread
  have hcontents := readLoop_contents (hlength ▸ Nat.zero_le _) hread
  have hempty : c.sendBuf.contents = [] := by rw [Buffer.contents, hlength, List.take_zero]
  rw [hempty, List.nil_append] at hcontents
  exact hcontents

end Builders

/-! ## Responses with their dates left out

Two runs read two clocks, so responses are compared without what `strftime` writes. -/

/-- The two responses differ in the texts of the headers Date and Last-Modified at most. -/
def SameButDates (a b : Bytes) : Prop :=
  ∃ pre mid post d m d' m', (∀ x ∈ [d, m, d', m'], (13 : UInt8) ∉ x) ∧
    a = pre ++ ascii "Date: " ++ d ++ crlf ++ mid ++ ascii "Last-Modified: " ++ m ++ crlf ++ post ∧
    b = pre ++ ascii "Date: " ++ d' ++ crlf ++ mid ++ ascii "Last-Modified: " ++ m' ++ crlf ++ post

theorem Page.sameButDates (p : Page) {d m d' m' : Bytes}
    (h : ∀ x ∈ [d, m, d', m'], (13 : UInt8) ∉ x) :
    SameButDates (p.head d m ++ p.body) (p.head d' m' ++ p.body) := by
  refine ⟨p.statusLine ++ crlf,
    (ascii "Server" ++ ascii ": " ++ ascii "Prestige/CS360 (Ubuntu 64-bit)" ++ crlf) ++
      (ascii "Content-Type" ++ ascii ": " ++ p.contentType ++ crlf) ++
      (ascii "Content-Length" ++ ascii ": " ++ decimal p.contentLength ++ crlf),
    crlf ++ p.body, d, m, d', m', h, ?_, ?_⟩ <;>
  · have hdate : ascii "Date" ++ ascii ": " = ascii "Date: " := by decide
    have hmodified : ascii "Last-Modified" ++ ascii ": " = ascii "Last-Modified: " := by decide
    rw [Page.head, hdate, hmodified]
    simp only [List.append_assoc]

def firstLine (a : Bytes) : Bytes := a.takeWhile (· ≠ 13)

theorem firstLine_append_of_notMem {l : Bytes} (h : (13 : UInt8) ∉ l) (m : Bytes) :
    firstLine (l ++ m) = l ++ firstLine m :=
  List.takeWhile_append_of_pos fun _ hb => decide_eq_true fun h13 => h (h13 ▸ hb)

theorem firstLine_append_cr {l : Bytes} (h : (13 : UInt8) ∉ l) (m : Bytes) :
    firstLine (l ++ 13 :: m) = l := by
  rw [firstLine_append_of_notMem h, firstLine,
    List.takeWhile_cons_of_neg (by simp), List.append_nil]

theorem firstLine_append {l : Bytes} (h : (13 : UInt8) ∈ l) (m : Bytes) :
    firstLine (l ++ m) = firstLine l := by
  obtain ⟨pre, post, rfl, hpre⟩ := List.eq_append_cons_of_mem h
  rw [List.append_assoc, List.cons_append, firstLine_append_cr hpre, firstLine_append_cr hpre]

/-- Responses that are the same but for their dates have the same first line, unless
that line has a D. -/
theorem SameButDates.firstLine_eq {a b : Bytes} (h : SameButDates a b)
    (hD : (68 : UInt8) ∉ firstLine a) : firstLine a = firstLine b := by
  obtain ⟨pre, mid, post, d, m, d', m', -, rfl, rfl⟩ := h
  simp only [List.append_assoc] at hD ⊢
  by_cases hpre : (13 : UInt8) ∈ pre
  · -- the line ends before the first date
    rw [firstLine_append hpre, firstLine_append hpre]
  · refine absurd ?_ hD
    rw [firstLine_append_of_notMem hpre]
    exact List.mem_append_right _ List.mem_cons_self

end InternetLabs.EventServer
