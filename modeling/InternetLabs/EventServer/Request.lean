/-
# `InternetLabs.EventServer.Request` — requests, and what the parser makes of them

A `Request` is what a client means to send: a request line of three words and
header lines, all of printable bytes.  `Request.render` is its text.

The parser's buffer, its NULs and the heap are gone from `Request.outcome`: it is
the slot, the status or the undefined behaviour a request comes to by itself.
`requestToStruct_batch` says that a batch of rendered requests comes to the
outcomes of its requests one after the other, up to the first that is no slot; and
`Request.outcome_eq` that a request within the parser's limits comes to the slot
one expects.
-/
import InternetLabs.EventServer.Segments
import InternetLabs.EventServer.Lines

namespace InternetLabs.EventServer

open InternetLabs

/-! ## Requests and their text

Requests as a client means them, and the bytes they are sent as. -/

/-- A word: printable bytes, at least one. -/
def IsWord (w : Bytes) : Prop := w ≠ [] ∧ ∀ b ∈ w, 32 < b ∧ b ≠ 127

instance (w : Bytes) : Decidable (IsWord w) := inferInstanceAs (Decidable (_ ∧ _))

/-- A header whose name and value are words, the name without a colon. -/
def HttpHeader.Ok (h : HttpHeader) : Prop :=
  IsWord h.name ∧ (58 : UInt8) ∉ h.name ∧ IsWord h.value

instance (h : HttpHeader) : Decidable h.Ok := inferInstanceAs (Decidable (_ ∧ _ ∧ _))

/-- A request. -/
structure Request where
  method : Bytes
  uri : Bytes
  version : Bytes
  headers : List HttpHeader
  method_word : IsWord method
  uri_word : IsWord uri
  version_word : IsWord version
  headers_ok : ∀ h ∈ headers, h.Ok

/-- The value of the last Host header, or `host` if there is none. -/
def lastHost (host : Option Bytes) (hs : List HttpHeader) : Option Bytes :=
  hs.foldl (fun host h => if h.name = ascii "Host" then some h.value else host) host

/-- The headers but for the host. -/
def others (hs : List HttpHeader) : List HttpHeader := hs.filter fun h => h.name ≠ ascii "Host"

theorem others_cons_host {h : HttpHeader} (hh : h.name = ascii "Host") (hs : List HttpHeader) :
    others (h :: hs) = others hs :=
  List.filter_cons_of_neg (by simpa using hh)

theorem others_cons {h : HttpHeader} (hh : h.name ≠ ascii "Host") (hs : List HttpHeader) :
    others (h :: hs) = h :: others hs :=
  List.filter_cons_of_pos (by simpa using hh)

def HttpHeader.line (h : HttpHeader) : Bytes := h.name ++ ascii ": " ++ h.value

namespace Request

/-- The first line. -/
def line (r : Request) : Bytes := r.method ++ ascii " " ++ r.uri ++ ascii " " ++ r.version

/-- All the lines. -/
def lines (r : Request) : List Bytes := r.line :: r.headers.map HttpHeader.line

/-- The text: each line is followed by CRLF, and the last one by another. -/
def render (r : Request) : Bytes := (r.lines.map (· ++ crlf)).flatten ++ crlf

end Request

/-- The text of the requests one after the other. -/
def renderAll (rs : List Request) : Bytes := (rs.map Request.render).flatten

theorem renderAll_cons (r : Request) (rs : List Request) :
    renderAll (r :: rs) = r.render ++ renderAll rs := rfl

theorem renderAll_append (rs rs' : List Request) :
    renderAll (rs ++ rs') = renderAll rs ++ renderAll rs' := by
  rw [renderAll, List.map_append, List.flatten_append]
  rfl

/-! ## Words and lines -/

section Word
variable {w : Bytes}

theorem IsWord.isSpace (h : IsWord w) : ∀ b ∈ w, isSpace b = false := fun b hb => by
  obtain ⟨h32, -⟩ := h.2 b hb
  have h32 : 32 < b.toNat := h32
  have hne : b ≠ 32 := fun h => by rw [h] at h32; exact absurd h32 (by decide)
  have hle : ¬ b ≤ 13 := fun h => by
    have h : b.toNat ≤ 13 := h
    omega
  simp [InternetLabs.isSpace, hne, hle]

theorem IsWord.ne (h : IsWord w) {b : UInt8} (hb : b ∈ w) {a : UInt8} (ha : a ≤ 32) : b ≠ a := by
  rintro rfl
  have h32 : 32 < b.toNat := (h.2 b hb).1
  have ha : b.toNat ≤ 32 := ha
  omega

theorem IsWord.notMem (h : IsWord w) {a : UInt8} (ha : a ≤ 32) : a ∉ w :=
  fun hmem => h.ne hmem ha rfl

theorem IsWord.words (h : IsWord w) : words w = [w] := strtokAll_run h.1 h.isSpace

end Word

/-- A line as `strtok` cuts it: not empty, without NUL, CR and LF. -/
def IsLine (l : Bytes) : Prop := l ≠ [] ∧ ∀ b ∈ l, b ≠ 0 ∧ b ≠ 13 ∧ b ≠ 10

theorem IsWord.isLine {w : Bytes} (h : IsWord w) : IsLine w :=
  ⟨h.1, fun _ hb => ⟨h.ne hb (by decide), h.ne hb (by decide), h.ne hb (by decide)⟩⟩

theorem IsLine.append {l l' : Bytes} (h : IsLine l) (h' : ∀ b ∈ l', b ≠ 0 ∧ b ≠ 13 ∧ b ≠ 10) :
    IsLine (l ++ l') :=
  ⟨List.append_ne_nil_of_left_ne_nil h.1 l',
    fun b hb => (List.mem_append.mp hb).elim (h.2 b) (h' b)⟩

theorem IsLine.isCrlf {l : Bytes} (h : IsLine l) : ∀ b ∈ l, isCrlf b = false := fun b hb => by
  obtain ⟨-, h13, h10⟩ := h.2 b hb
  simp [EventServer.isCrlf, h13, h10]

theorem HttpHeader.Ok.isLine {h : HttpHeader} (hok : h.Ok) : IsLine h.line := by
  refine (hok.1.isLine.append ?_).append hok.2.2.isLine.2
  decide

theorem Request.isLine (r : Request) : ∀ l ∈ r.lines, IsLine l := by
  intro l hl
  rcases List.mem_cons.mp hl with rfl | hl
  · have hsp : ∀ b ∈ ascii " ", b ≠ 0 ∧ b ≠ 13 ∧ b ≠ 10 := by decide
    exact (((r.method_word.isLine.append hsp).append r.uri_word.isLine.2).append hsp).append
      r.version_word.isLine.2
  · obtain ⟨h, hmem, rfl⟩ := List.mem_map.mp hl
    exact (r.headers_ok h hmem).isLine

/-! ## Where a request ends -/

/-- The text before the CRLF CRLF that ends it. -/
def segment (ls : List Bytes) : Bytes := crlf.intercalate ls

theorem flatten_map_crlf {ls : List Bytes} (h : ls ≠ []) :
    (ls.map (· ++ crlf)).flatten = segment ls ++ crlf := by
  induction ls with
  | nil => exact absurd rfl h
  | cons l ls ih =>
      cases ls with
      | nil => simp [segment]
      | cons l' ls =>
          rw [List.map_cons, List.flatten_cons, ih (List.cons_ne_nil l' ls), segment, segment,
            List.intercalate_cons_cons]
          simp only [List.append_assoc]

theorem Request.render_eq (r : Request) : r.render = segment r.lines ++ crlfcrlf := by
  have hne : r.lines ≠ [] := List.cons_ne_nil _ _
  rw [render, flatten_map_crlf hne, List.append_assoc]
  rfl

theorem strstr_crlf_line {l m : Bytes} (h : IsLine l) :
    strstr crlfcrlf (crlf ++ (l ++ m)) = (strstr crlfcrlf (l ++ m)).map (2 + ·) := by
  obtain ⟨b, l, rfl⟩ := List.exists_cons_of_ne_nil h.1
  obtain ⟨-, h13, -⟩ := h.2 b List.mem_cons_self
  have hpre : crlfcrlf.isPrefixOf (crlf ++ (b :: l ++ m)) = false := by
    simp [crlfcrlf, crlf, List.isPrefixOf, Ne.symm h13]
  have hstep : strstr crlfcrlf (crlf ++ (b :: l ++ m))
      = (strstr crlfcrlf ([10] ++ (b :: l ++ m))).map (· + 1) := by
    rw [crlf, List.cons_append, strstr,
      if_neg (by rw [← List.cons_append]; exact hpre ▸ Bool.false_ne_true), if_neg (by decide)]
  rw [hstep, crlfcrlf, strstr_skip (by decide), Option.map_map]
  congr 1
  funext i
  simp only [Function.comp, List.length_cons, List.length_nil]
  omega

theorem strstr_segment {ls : List Bytes} (hne : ls ≠ []) (h : ∀ l ∈ ls, IsLine l) (m : Bytes) :
    strstr crlfcrlf (segment ls ++ crlfcrlf ++ m) = some (segment ls).length := by
  induction ls with
  | nil => exact absurd rfl hne
  | cons l ls ih =>
      have hl := h l List.mem_cons_self
      have hskip : ∀ b ∈ l, b ≠ 13 ∧ b ≠ 0 := fun b hb => ⟨(hl.2 b hb).2.1, (hl.2 b hb).1⟩
      cases ls with
      | nil =>
          rw [segment, List.intercalate_singleton, List.append_assoc, crlfcrlf, strstr_skip hskip]
          simp [strstr, List.isPrefixOf]
      | cons l' ls =>
          obtain ⟨rest, hrest⟩ : ∃ rest, segment (l' :: ls) = l' ++ rest := by
            cases ls with
            | nil => exact ⟨[], by simp [segment]⟩
            | cons l'' ls =>
                exact ⟨_, by rw [segment, List.intercalate_cons_cons, List.append_assoc]⟩
          have ih := ih (List.cons_ne_nil l' ls) fun l hmem => h l (List.mem_cons_of_mem _ hmem)
          have hsplit : segment (l :: l' :: ls) = l ++ (crlf ++ segment (l' :: ls)) := by
            rw [segment, List.intercalate_cons_cons, List.append_assoc, segment]
          have hl' := h l' (List.mem_cons_of_mem _ List.mem_cons_self)
          rw [hsplit]
          simp only [List.append_assoc] at ih ⊢
          rw [crlfcrlf, strstr_skip hskip, ← crlfcrlf]
          rw [hrest, List.append_assoc] at ih ⊢
          rw [strstr_crlf_line hl', ih]
          simp only [Option.map_some, List.length_append]
          rfl

theorem strstr_renderAll (r : Request) (rs : List Request) (m : Bytes) :
    strstr crlfcrlf (renderAll (r :: rs) ++ m) = some (segment r.lines).length := by
  rw [renderAll_cons, r.render_eq, List.append_assoc]
  exact strstr_segment (List.cons_ne_nil _ _) r.isLine _

theorem strtokAll_segment {ls : List Bytes} (h : ∀ l ∈ ls, IsLine l) :
    strtokAll isCrlf (segment ls) = ls := by
  induction ls with
  | nil => exact strtokAll_nil
  | cons l ls ih =>
      have hl := h l List.mem_cons_self
      have hrun : strtokAll isCrlf l = [l] := strtokAll_run hl.1 hl.isCrlf
      cases ls with
      | nil => rw [segment, List.intercalate_singleton, hrun]
      | cons l' ls =>
          have ih := ih fun l hmem => h l (List.mem_cons_of_mem _ hmem)
          rw [segment, List.intercalate_cons_cons, List.append_assoc, crlf, List.cons_append,
            strtokAll_append_cons _ _ (by decide), List.cons_append, List.nil_append,
            strtokAll_cons_delim _ (by decide), hrun]
          exact congrArg (l :: ·) ih

theorem segment_noNul {ls : List Bytes} (h : ∀ l ∈ ls, IsLine l) : (0 : UInt8) ∉ segment ls := by
  induction ls with
  | nil => exact List.not_mem_nil
  | cons l ls ih =>
      have hl : (0 : UInt8) ∉ l := fun h0 => ((h l List.mem_cons_self).2 0 h0).1 rfl
      cases ls with
      | nil => rwa [segment, List.intercalate_singleton]
      | cons l' ls =>
          have ih := ih fun l hmem => h l (List.mem_cons_of_mem _ hmem)
          rw [segment, List.intercalate_cons_cons, List.mem_append, List.mem_append]
          exact not_or.mpr ⟨not_or.mpr ⟨hl, by decide⟩, ih⟩

/-! ## What a request comes to

What the parser makes of one request, told from its words: a slot, a status, or
undefined behaviour. -/

namespace Request

/-- The headers fit the parser's blocks. -/
def Fits (r : Request) : Prop :=
  (∀ h ∈ r.headers, h.name.length < 1024) ∧ (others r.headers).length ≤ headerMax

instance (r : Request) : Decidable r.Fits := inferInstanceAs (Decidable (_ ∧ _))

/-- The server knows the method and the version. -/
def Accepted (r : Request) : Prop := r.method ∈ methods ∧ r.version = http11

instance (r : Request) : Decidable r.Accepted := inferInstanceAs (Decidable (_ ∧ _))

/-- The slot a request should be parsed to. -/
def slot (r : Request) : HttpRequest where
  method := some r.method
  uri := some r.uri
  filetype := some (filetypeOf r.uri)
  version := some r.version
  host := lastHost none r.headers
  headers := some (others r.headers)

/-- The status the parser answers a request with that it does not take. -/
def refusal (r : Request) : Status :=
  if r.method ∉ methods then .notImplemented else .internalError

/-- What a request comes to by itself. -/
def outcome (r : Request) : Except Stop HttpRequest :=
  if 16 ≤ r.method.length ∨ bufferMax ≤ r.uri.length ∨ 32 ≤ r.version.length then
    .error .undefined
  else if ¬ r.Accepted then .error (.status r.refusal)
  else
    ((r.headers.map HttpHeader.line).foldlM (fun s l => headerLine l s)
      ⟨false, { HttpRequest.zero with
        method := some r.method
        uri := some r.uri
        version := some r.version
        filetype := some (filetypeOf r.uri) }, []⟩).map fun lines =>
      { lines.httpr with headers := some lines.headers }

end Request

theorem cstr_writeAt_word {block w : Bytes} (hw : IsWord w) :
    cstr (writeAt block 0 (w ++ [0])) = w := by
  rw [writeAt_zero, List.append_assoc]
  exact cstr_append_zero (hw.notMem (by decide)) _

theorem Request.words_line (r : Request) : words r.line = [r.method, r.uri, r.version] := by
  have hsp : InternetLabs.isSpace 32 = true := by decide
  have hline : r.line = r.method ++ 32 :: (r.uri ++ 32 :: r.version) := by
    simp [Request.line, ascii]
  rw [hline, InternetLabs.words, strtokAll_append_cons _ _ hsp, strtokAll_append_cons _ _ hsp]
  exact congrArg₂ (· ++ ·) r.method_word.words
    (congrArg₂ (· ++ ·) r.uri_word.words r.version_word.words)

theorem HttpHeader.words_line {h : HttpHeader} (hok : h.Ok) :
    words h.line = [h.name ++ [58], h.value] := by
  have hsp : InternetLabs.isSpace 32 = true := by decide
  have hline : h.line = (h.name ++ [58]) ++ 32 :: h.value := by
    simp [HttpHeader.line, ascii]
  have hname : IsWord (h.name ++ [58]) := by
    refine ⟨by simp, fun b hb => ?_⟩
    rcases List.mem_append.mp hb with hb | hb
    · exact hok.1.2 b hb
    · rw [List.mem_singleton.mp hb]
      decide
  rw [hline, InternetLabs.words, strtokAll_append_cons _ _ hsp]
  exact congrArg₂ (· ++ ·) hname.words hok.2.2.words

theorem requestLine_eq (blocks : Blocks) {i : Nat} (hi : i < maxRequests) (r : Request)
    (httpr : HttpRequest) :
    requestLine blocks i r.line httpr =
      if 16 ≤ r.method.length ∨ bufferMax ≤ r.uri.length ∨ 32 ≤ r.version.length then
        .error .undefined
      else if ¬ r.Accepted then .error (.status r.refusal)
      else .ok { httpr with
        method := some r.method
        uri := some r.uri
        version := some r.version
        filetype := some (filetypeOf r.uri) } := by
  have hi : ¬ maxRequests ≤ i := Nat.not_le_of_lt hi
  have hnul : (0 : UInt8) ∉ r.line := fun h => ((r.isLine _ List.mem_cons_self).2 0 h).1 rfl
  have hfit : ¬ WordsFit r.line ↔
      16 ≤ r.method.length ∨ bufferMax ≤ r.uri.length ∨ 32 ≤ r.version.length := by
    simp only [WordsFit, r.words_line, List.getElem?_cons_zero, List.getElem?_cons_succ,
      Option.mem_some_iff, forall_eq']
    omega
  simp only [requestLine_eq_seen blocks i hnul, hfit, r.words_line, List.getElem?_cons_zero,
    List.getElem?_cons_succ, seen, if_neg hi, reduceCtorEq, false_and, if_false, Request.Accepted,
    Request.refusal]
  by_cases hmethod : r.method ∈ methods
  · by_cases hversion : r.version = http11
    · simp [hmethod, hversion]
    · simp [hmethod, hversion]
  · simp [hmethod]

/-- A header line sets the host or the headers, if it does not overrun a block. -/
theorem headerLine_cases (l : Bytes) (s : Lines) :
    headerLine l s = .error .undefined ∨ ∃ host headers,
      headerLine l s
      = .ok { s with httpr := { s.httpr with host := host }, headers := headers } := by
  have hscan : ∀ (block : Bytes) w, scanWord block w = .error .undefined ∨
      ∃ block', scanWord block w = .ok block' := by
    intro block w
    cases w with
    | none => exact .inr ⟨block, rfl⟩
    | some w =>
        rw [scanWord]
        split
        · exact .inr ⟨_, rfl⟩
        · exact .inl rfl
  rcases hscan (List.replicate bufferMax 0) (words l)[0]? with hname | ⟨name, hname⟩
  · exact .inl (by rw [headerLine, hname]; rfl)
  rcases hscan (List.replicate bufferMax 0) (words l)[1]? with hvalue | ⟨value, hvalue⟩
  · exact .inl (by rw [headerLine, hname, hvalue]; rfl)
  simp only [headerLine, hname, hvalue, bind, Except.bind]
  split
  · exact .inr ⟨_, _, rfl⟩
  · split
    · exact .inl rfl
    · split
      · exact .inr ⟨_, _, rfl⟩
      · exact .inl rfl

theorem headerLine_first {l : Bytes} {s s' : Lines} (h : headerLine l s = .ok s') :
    s'.first = s.first := by
  rcases headerLine_cases l s with h' | ⟨host, headers, h'⟩
  · rw [h] at h'; cases h'
  · rw [h] at h'; cases h'; rfl

theorem foldlM_headerLine_cases (ls : List Bytes) (s : Lines) :
    ls.foldlM (fun s l => headerLine l s) s = .error .undefined ∨ ∃ host headers,
      ls.foldlM (fun s l => headerLine l s) s
        = .ok { s with httpr := { s.httpr with host := host }, headers := headers } := by
  induction ls generalizing s with
  | nil => exact .inr ⟨s.httpr.host, s.headers, rfl⟩
  | cons l ls ih =>
      rw [List.foldlM_cons]
      rcases headerLine_cases l s with h | ⟨host, headers, h⟩
      · exact .inl (by rw [h]; rfl)
      · rw [h]
        exact ih _

theorem foldlM_lineStep (blocks : Blocks) (i : Nat) (ls : List Bytes) {s : Lines}
    (hs : s.first = false) :
    ls.foldlM (lineStep blocks i) s = ls.foldlM (fun s l => headerLine l s) s := by
  induction ls generalizing s with
  | nil => rfl
  | cons l ls ih =>
      have hstep : lineStep blocks i s l = headerLine l s := by
        rw [lineStep, hs, if_neg Bool.false_ne_true]
      rw [List.foldlM_cons, List.foldlM_cons, hstep]
      match h : headerLine l s with
      | .error _ => rfl
      | .ok s' => exact ih ((headerLine_first h).trans hs)

/-- **A request is parsed to its outcome**, whatever the heap and the slot. -/
theorem parseSegment_eq (blocks : Blocks) {i : Nat} (hi : i < maxRequests) (r : Request) :
    parseSegment blocks i .zero (segment r.lines) = r.outcome := by
  rw [parseSegment, strtokAll_segment r.isLine, Request.lines, List.foldlM_cons, Request.outcome]
  have hfirst : lineStep blocks i ⟨true, .zero, []⟩ r.line
      = (requestLine blocks i r.line .zero).map fun httpr => ⟨false, httpr, []⟩ := rfl
  rw [hfirst, requestLine_eq blocks hi]
  by_cases hfit : 16 ≤ r.method.length ∨ bufferMax ≤ r.uri.length ∨ 32 ≤ r.version.length
  · rw [if_pos hfit, if_pos hfit]
    rfl
  by_cases hacc : r.Accepted
  swap
  · rw [if_neg hfit, if_neg hfit, if_pos hacc, if_pos hacc]
    rfl
  rw [if_neg hfit, if_neg hfit, if_neg (not_not.mpr hacc), if_neg (not_not.mpr hacc)]
  exact congrArg (Except.map _) (foldlM_lineStep blocks i _ rfl)

/-! ## Requests within the limits

The sizes of the parser, for a request that is meant so. -/

/-- A request overruns a block, is refused, or comes to a slot with its words. -/
theorem Request.outcome_cases (r : Request) :
    r.outcome = .error .undefined ∨ ¬ r.Accepted ∧ r.outcome = .error (.status r.refusal) ∨
      r.Accepted ∧ ∃ host headers, r.outcome = .ok ⟨some r.method, some r.uri,
        some (filetypeOf r.uri), some r.version, host, headers⟩ := by
  rw [outcome]
  split
  · exact .inl rfl
  split
  next hacc => exact .inr (.inl ⟨hacc, rfl⟩)
  next hacc =>
    rcases foldlM_headerLine_cases (r.headers.map HttpHeader.line) ⟨false, { HttpRequest.zero with
        method := some r.method
        uri := some r.uri
        version := some r.version
        filetype := some (filetypeOf r.uri) }, []⟩ with h | ⟨host, headers, h⟩
    · exact .inl (by rw [h]; rfl)
    · exact .inr (.inr ⟨not_not.mp hacc, host, some headers, by rw [h]; rfl⟩)

theorem headerOf_line {h : HttpHeader} (hok : h.Ok) :
    headerOf h.line = h ∧ (IsHost h.line ↔ h.name = ascii "Host") := by
  have hwords := h.words_line hok
  have hname : headerName h.line = h.name ++ [58] := by rw [headerName, hwords]; rfl
  have hfilter : h.name.filter (· ≠ 58) = h.name :=
    List.filter_eq_self.mpr fun b hb => by
      have hne : b ≠ 58 := fun h => hok.2.1 (h ▸ hb)
      simpa using hne
  refine ⟨?_, ?_⟩
  · rw [headerOf, hname, hwords, List.filter_append, hfilter]
    simp
  · rw [IsHost, hname, show ascii "Host:" = ascii "Host" ++ [58] from rfl, List.append_left_inj]

theorem storedLines_headers {hs : List HttpHeader} (hok : ∀ h ∈ hs, h.Ok) :
    storedLines (hs.map HttpHeader.line) = (others hs).map HttpHeader.line := by
  induction hs with
  | nil => rfl
  | cons h hs ih =>
      obtain ⟨hh, hs'⟩ := List.forall_mem_cons.mp hok
      by_cases hhost : h.name = ascii "Host"
      · rw [List.map_cons, storedLines_cons_host ((headerOf_line hh).2.mpr hhost),
          others_cons_host hhost, ih hs']
      · rw [List.map_cons, storedLines_cons (fun h' => hhost ((headerOf_line hh).2.mp h')),
          others_cons hhost, List.map_cons, ih hs']

theorem hostOf_headers {hs : List HttpHeader} (hok : ∀ h ∈ hs, h.Ok) (host : Option Bytes) :
    hostOf host (hs.map HttpHeader.line) = lastHost host hs := by
  induction hs generalizing host with
  | nil => rfl
  | cons h hs ih =>
      obtain ⟨hh, hs'⟩ := List.forall_mem_cons.mp hok
      simp only [hostOf, lastHost, List.map_cons, List.foldl_cons, (headerOf_line hh).1,
        (headerOf_line hh).2]
      exact ih hs' _

theorem foldlM_headerLine {hs : List HttpHeader} (hok : ∀ h ∈ hs, h.Ok)
    (hsize : ∀ h ∈ hs, h.line.length < bufferMax) {s : Lines}
    (hcount : s.headers.length ≤ headerMax) :
    (hs.map HttpHeader.line).foldlM (fun s l => headerLine l s) s =
      if (∀ h ∈ hs, h.name.length < 1024) ∧ s.headers.length + (others hs).length ≤ headerMax then
        .ok { s with
          httpr := { s.httpr with host := lastHost s.httpr.host hs }
          headers := s.headers ++ others hs }
      else .error .undefined := by
  have hls : ∀ l ∈ hs.map HttpHeader.line, (0 : UInt8) ∉ l ∧ l.length < bufferMax := by
    intro l hl
    obtain ⟨h, hh, rfl⟩ := List.mem_map.mp hl
    exact ⟨fun h0 => ((hok h hh).isLine.2 0 h0).1 rfl, hsize h hh⟩
  have hothers : ∀ h ∈ others hs, headerOf h.line = h :=
    fun h hh => (headerOf_line (hok h (List.mem_of_mem_filter hh))).1
  have hback : ((others hs).map HttpHeader.line).map headerOf = others hs := by
    rw [List.map_map]
    exact (List.map_congr_left hothers).trans (List.map_id _)
  -- the name of a host header is short
  have hnames : (∀ l ∈ (others hs).map HttpHeader.line, (headerOf l).name.length < 1024) ↔
      ∀ h ∈ hs, h.name.length < 1024 := by
    rw [List.forall_mem_map]
    refine ⟨fun hall h hh => ?_, fun hall h hh => ?_⟩
    · by_cases hhost : h.name = ascii "Host"
      · rw [hhost]
        decide
      · have hmem : h ∈ others hs := List.mem_filter.mpr ⟨hh, by simpa using hhost⟩
        rw [← hothers h hmem]
        exact hall h hmem
    · rw [hothers h hh]
      exact hall h (List.mem_of_mem_filter hh)
  simp only [foldlM_headerLine_eq hls hcount, storedLines_headers hok, hostOf_headers hok, hback,
    List.length_map, hnames]

theorem Request.render_length_lines (r : Request) : ∀ l ∈ r.lines, l.length < r.render.length := by
  intro l hl
  have hmem : l ++ crlf ∈ r.lines.map (· ++ crlf) := List.mem_map_of_mem hl
  have hle := (List.sublist_flatten_of_mem hmem).length_le
  rw [render, List.length_append]
  rw [List.length_append] at hle
  have : crlf.length = 2 := rfl
  omega

theorem render_length_le {r : Request} {rs : List Request} (h : r ∈ rs) :
    r.render.length ≤ (renderAll rs).length :=
  (List.sublist_flatten_of_mem (List.mem_map_of_mem h)).length_le

/-- **A request is parsed to its slot** if its headers fit. -/
theorem Request.outcome_eq {r : Request} (hsize : r.render.length < bufferMax) (hacc : r.Accepted) :
    r.outcome = if r.Fits then .ok r.slot else .error .undefined := by
  have hmethod : r.method.length < 16 := by
    have h : ∀ m ∈ methods, m.length < 16 := by decide
    exact h _ hacc.1
  have huri : r.uri.length < bufferMax := by
    have := r.render_length_lines _ List.mem_cons_self
    have hle : r.uri.length ≤ r.line.length := by
      simp only [Request.line, List.length_append]
      omega
    omega
  have hversion : r.version.length < 32 := by
    rw [hacc.2]
    decide
  have hheaders : ∀ h ∈ r.headers, h.line.length < bufferMax := fun h hmem => by
    have := r.render_length_lines _ (List.mem_cons_of_mem _ (List.mem_map_of_mem hmem))
    omega
  rw [outcome, if_neg (by omega), if_neg (not_not.mpr hacc),
    foldlM_headerLine r.headers_ok hheaders (Nat.zero_le _)]
  rw [List.length_nil, Nat.zero_add]
  by_cases hfits : (∀ h ∈ r.headers, h.name.length < 1024) ∧
      (others r.headers).length ≤ headerMax
  · rw [if_pos hfits, if_pos (show r.Fits from hfits)]
    rfl
  · rw [if_neg hfits, if_neg (show ¬ r.Fits from hfits)]
    rfl

/-! ## A batch -/

/-- What a batch comes to: the slots of the requests before the first that is none, and
the status that ends the parse. -/
def parseBatch : List Request → Option (Status × List HttpRequest)
  | [] => some (.ok, [])
  | r :: rs =>
      match r.outcome with
      | .ok slot => (parseBatch rs).map fun (status, slots) => (status, slot :: slots)
      | .error (.status status) => some (status, [])
      | .error .undefined => none

theorem segments_renderAll (rs : List Request) {z : Bytes} (hz : strstr crlfcrlf z = none) :
    segments (renderAll rs ++ z) = rs.map fun r => segment r.lines := by
  induction rs with
  | nil => exact segments_of_none hz
  | cons r rs ih =>
      rw [renderAll_cons, r.render_eq, List.append_assoc,
        @segments_cons (segment r.lines) _ (strstr_segment (List.cons_ne_nil _ _) r.isLine _), ih]
      rfl

theorem parseSegments_batch (heap : Nat → Blocks) (rs : List Request) {slot : Nat}
    (hslot : slot + rs.length ≤ maxRequests) :
    parseSegments heap slot (rs.map fun r => segment r.lines) = parseBatch rs := by
  induction rs generalizing slot with
  | nil => rfl
  | cons r rs ih =>
      rw [List.length_cons] at hslot
      have hlt : slot < maxRequests := by omega
      rw [List.map_cons, parseSegments, parseSegment_eq _ hlt, parseBatch]
      cases r.outcome with
      | error stop => cases stop <;> rfl
      | ok httpr => simp only [if_pos hlt, ih (show slot + 1 + rs.length ≤ maxRequests by omega)]

/-- **The parse of a batch.** -/
theorem requestToStruct_batch (heap : Nat → Blocks) {rs : List Request} {z : Bytes}
    (hz : strstr crlfcrlf z = none) (hrs : rs.length ≤ maxRequests) {c : Client}
    (hdata : c.recvBuf.data = renderAll rs ++ z)
    (hreq : c.requests = List.replicate maxRequests .zero) (hnum : c.numRequests = 0) :
    (requestToStruct heap c).map (fun (status, c') => (status, c'.requests, c'.numRequests))
      = (parseBatch rs).map fun (status, slots) => (status, requestArray slots, slots.length) := by
  rw [requestToStruct_segments heap hreq hnum, hdata, segments_renderAll rs hz,
    parseSegments_batch heap rs (by rwa [Nat.zero_add])]

/-- **A batch within the parser's limits is parsed to its slots.** -/
theorem parseBatch_eq_slots {rs : List Request}
    (h : ∀ r ∈ rs, r.render.length < bufferMax ∧ r.Accepted ∧ r.Fits) :
    parseBatch rs = some (.ok, rs.map Request.slot) := by
  induction rs with
  | nil => rfl
  | cons r rs ih =>
      obtain ⟨hsize, hacc, hfits⟩ := h r List.mem_cons_self
      rw [parseBatch, Request.outcome_eq hsize hacc, if_pos hfits]
      simp only [ih fun x hx => h x (List.mem_cons_of_mem r hx), Option.map_some, List.map_cons]

/-- The slots of a batch are its requests' outcomes, up to the first that is refused. -/
theorem parseBatch_cases {rs : List Request} {status : Status} {slots : List HttpRequest}
    (h : parseBatch rs = some (status, slots)) :
    (∀ (i : Nat) (slot : HttpRequest), slots[i]? = some slot →
        ∃ r : Request, rs[i]? = some r ∧ r.outcome = .ok slot) ∧
      (slots.length = rs.length ∧ status = .ok ∨
        ∃ r : Request, rs[slots.length]? = some r ∧ ¬ r.Accepted ∧ status = r.refusal) := by
  induction rs generalizing slots with
  | nil =>
      cases h
      exact ⟨nofun, .inl ⟨rfl, rfl⟩⟩
  | cons r rs ih =>
      rw [parseBatch] at h
      rcases r.outcome_cases with ho | ⟨hacc, ho⟩ | ⟨-, host, headers, ho⟩
      · rw [ho] at h
        cases h
      · rw [ho] at h
        cases h
        exact ⟨nofun, .inr ⟨r, rfl, hacc, rfl⟩⟩
      · rw [ho] at h
        obtain ⟨⟨status', slots'⟩, hrest, heq⟩ := Option.map_eq_some_iff.mp h
        cases heq
        obtain ⟨hslots, hend⟩ := ih hrest
        refine ⟨fun i slot hi => ?_, ?_⟩
        · cases i with
          | zero =>
              cases hi
              exact ⟨r, rfl, ho⟩
          | succ i => exact hslots i slot hi
        · rw [List.length_cons, List.length_cons, Nat.add_right_cancel_iff]
          exact hend

/-! ## Two requests -/

def getRequest (uri : Bytes) (huri : IsWord uri) : Request where
  method := ascii "GET"
  uri := uri
  version := http11
  headers := []
  method_word := by decide
  uri_word := huri
  version_word := by decide
  headers_ok := nofun

/-- The page there is, and one there is not. -/
def getRoot : Request := getRequest (ascii "/") (by decide)
def getMissing : Request := getRequest (ascii "/missing.html") (by decide)

end InternetLabs.EventServer
