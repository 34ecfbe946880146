/-
# `InternetLabs.EventServer.Parse` — `request_to_struct`

The parser works in the receive buffer itself.  Its outer loop writes a NUL over
the first byte of each CRLF CRLF, its inner loop has `strtok` cut what comes
before into lines; the lines go to `requestLine` and `headerLine`.

`heap` is what the blocks of `malloc` hold before `sscanf` writes to them: a field
the request line does not have keeps it.

**What the loops come to.**  `lineLoop_run`: the inner loop hands the tokens of
the text before the NUL to `lineStep`, in order, and leaves what is behind the NUL
alone.  `requestLoop_step`: so a round of the outer loop depends on the text up to
the next CRLF CRLF only, and the next round begins behind it.
-/
import InternetLabs.Lib.Loop
import InternetLabs.EventServer.Client

namespace InternetLabs.EventServer

open InternetLabs

/-! ## The lines of a request

A step of the parser may be cut short, by a `return` or by a store that does not fit. -/

/-- What ends the parse early: a status returned, or undefined behaviour. -/
inductive Stop where
  | status (s : Status)
  | undefined
deriving DecidableEq

/-- The blocks for the words of a request line, as `malloc` returns them. -/
structure Blocks where
  method : Bytes
  uri : Bytes
  version : Bytes
  method_length : method.length = 16
  uri_length : uri.length = bufferMax
  version_length : version.length = 32

def zeroBlocks : Blocks where
  method := List.replicate 16 0
  uri := List.replicate bufferMax 0
  version := List.replicate 32 0
  method_length := List.length_replicate
  uri_length := List.length_replicate
  version_length := List.length_replicate

/-- The `%s` that stores a word, if there is one, in a block. -/
def scanWord (block : Bytes) : Option Bytes → Except Stop Bytes
  | none => .ok block
  | some w => if w.length < block.length then .ok (writeAt block 0 (w ++ [0]))
      else .error .undefined

/-- `get_filename_ext`. -/
def getFilenameExt (filename : Bytes) : Bytes :=
  match strrchr 46 filename with
  | none => []
  | some 0 => []
  | some (dot + 1) => filename.drop (dot + 2)

/-- The MIME type the request line's URI stands for. -/
def filetypeOf (uri : Bytes) : Bytes :=
  let ext := getFilenameExt (if uri = ascii "/" then ascii "/index.html" else uri)
  if ext = ascii "html" then ascii "text/html"
  else if ext = ascii "txt" then ascii "text/plain"
  else if ext = ascii "jpg" then ascii "image/jpeg"
  else if ext = ascii "gif" then ascii "image/gif"
  else if ext = ascii "png" then ascii "image/png"
  else if ext = ascii "pdf" then ascii "application/pdf"
  else ascii "text/plain"

def methods : List Bytes := [ascii "GET", ascii "POST", ascii "HEAD"]

def http11 : Bytes := ascii "HTTP/1.1"

/-- The first line: method, URI and version.  `slot` is the index of the request in
the array, which is first written to when the method is known. -/
def requestLine (blocks : Blocks) (slot : Nat) (line : Bytes) (httpr : HttpRequest) :
    Except Stop HttpRequest := do
  let method ← scanWord blocks.method (words line)[0]?
  let uri ← scanWord blocks.uri (words line)[1]?
  let version ← scanWord blocks.version (words line)[2]?
  if cstr method ∉ methods then throw (.status .notImplemented)
  else if maxRequests ≤ slot then throw .undefined
  else if cstr version ≠ http11 then throw (.status .internalError)
  else if (0 : UInt8) ∉ uri then throw .undefined
  else pure { httpr with
    method := some (cstr method)
    uri := some (cstr uri)
    version := some (cstr version)
    filetype := some (filetypeOf (cstr uri)) }

/-- A round of the loop of `str_replace`: what is left of the target, and the text
built so far. -/
def strReplaceLoop (needle replacement : Bytes) (s : Bytes × Bytes) : Step (Bytes × Bytes) Bytes :=
  match strstr needle s.1 with
  | none => .ret (s.2 ++ s.1)
  | some p => .next (s.1.drop (p + needle.length), s.2 ++ s.1.take p ++ replacement)

/-- `str_replace`, whose text has to fit a block of 1024 bytes. -/
def strReplace (target needle replacement : Bytes) : Option Bytes :=
  (Loop.run (strReplaceLoop needle replacement) (target.length + 1) (target, [])).filter
    fun text => text.length < 1024

/-- The variables of the inner loop. -/
structure Lines where
  first : Bool
  httpr : HttpRequest
  headers : List HttpHeader
deriving DecidableEq

/-- A line after the first. -/
def headerLine (line : Bytes) (s : Lines) : Except Stop Lines := do
  let name ← scanWord (List.replicate bufferMax 0) (words line)[0]?
  let value ← scanWord (List.replicate bufferMax 0) (words line)[1]?
  if cstr name
    = ascii "Host:" then pure { s with httpr := { s.httpr with host := some (cstr value) } }
  else match strReplace (cstr name) (ascii ":") [] with
    | none => throw .undefined
    | some name =>
        if s.headers.length < headerMax then
          pure { s with headers := s.headers ++ [⟨name, cstr value⟩] }
        else throw .undefined

/-- The body of the inner loop. -/
def lineStep (blocks : Blocks) (slot : Nat) (s : Lines) (line : Bytes) : Except Stop Lines :=
  if s.first then
    (requestLine blocks slot line s.httpr).map fun httpr =>
      { s with first := false, httpr := httpr }
  else headerLine line s

/-! ## The loops

`strtok` and `strstr` write and search in the receive buffer itself, so the loops carry
it along. -/

/-- The delimiters of the lines. -/
def isCrlf (b : UInt8) : Bool := b == 13 || b == 10

/-- The inner loop: `request_line` and what `strtok` remembers, and the variables. -/
def lineLoop (blocks : Blocks) (slot : Nat) (s : Strtok × Lines) :
    Step (Strtok × Lines) (Bytes × Except Status Lines) :=
  match s.1.token with
  | none => .ret (s.1.data, .ok s.2)
  | some requestLine =>
      match lineStep blocks slot s.2 (cstr (s.1.data.drop requestLine)) with
      | .ok lines => .next (strtok isCrlf s.1.data s.1.save, lines)
      | .error (.status status) => .ret (s.1.data, .error status)
      | .error .undefined => .fault

/-- The variables of the outer loop. -/
structure RequestLoop where
  data : Bytes
  request : Nat
  curRequest : Option Nat
  requests : List HttpRequest
  numRequests : Nat

/-- The outer loop. -/
def requestLoop (heap : Nat → Blocks) (s : RequestLoop) : Step RequestLoop (Status × RequestLoop) :=
  match s.curRequest with
  | none => .ret (.ok, s)
  | some curRequest =>
      let data := s.data.set curRequest 0
      let httpr := s.requests.getD s.numRequests .zero
      match Loop.run (lineLoop (heap s.numRequests) s.numRequests) (data.length + 1)
          (strtok isCrlf data s.request, ⟨true, httpr, []⟩) with
      | none => .fault
      | some (data, .error status) => .ret (status, { s with data := data })
      | some (data, .ok lines) =>
          if s.numRequests < maxRequests then
            let request := curRequest + 1 + 3
            .next {
              data := data
              request := request
              curRequest := (strstr crlfcrlf (data.drop request)).map (request + ·)
              requests := s.requests.set s.numRequests
                { lines.httpr with headers := some lines.headers }
              numRequests := s.numRequests + 1 }
          else .fault

/-- `request_to_struct`. -/
def requestToStruct (heap : Nat → Blocks) (c : Client) : Option (Status × Client) :=
  (Loop.run (requestLoop heap) (c.recvBuf.data.length + 1) {
      data := c.recvBuf.data
      request := 0
      curRequest := strstr crlfcrlf c.recvBuf.data
      requests := c.requests
      numRequests := c.numRequests }).map fun (status, s) =>
    (status, { c with
      recvBuf := { c.recvBuf with data := s.data }
      requests := s.requests
      numRequests := s.numRequests })

/-! ## The inner loop

Of the buffer the inner loop uses only the text before the next CRLF CRLF. -/

/-- How the inner loop ends when the lines come to `r` and the memory to `data`. -/
def endLines (data : Bytes) : Except Stop Lines → Option (Bytes × Except Status Lines)
  | .ok lines => some (data, .ok lines)
  | .error (.status status) => some (data, .error status)
  | .error .undefined => none

/-- **The inner loop** folds `lineStep` over the lines of the string `s`, and changes
no byte behind it. -/
theorem lineLoop_run (blocks : Blocks) (slot : Nat) {pre s post : Bytes} (hs : (0 : UInt8) ∉ s)
    (lines : Lines) {fuel : Nat} (hfuel : s.length < fuel) :
    ∃ cut : Bytes, cut.length = pre.length + s.length ∧
      Loop.run (lineLoop blocks slot) fuel
          (strtok isCrlf (pre ++ (s ++ 0 :: post)) pre.length, lines)
        = endLines (cut ++ 0 :: post)
        ((strtokAll isCrlf s).foldlM (lineStep blocks slot) lines) := by
  induction fuel generalizing pre s lines with
  | zero => cases hfuel
  | succ fuel ih =>
      rcases @strtok_cut isCrlf pre s post hs with
        ⟨htoks, save, hcall⟩ | ⟨t, pre', s', tok, htoks, hs', hlt, hlen, hcall, htok⟩
      · refine ⟨pre ++ s, List.length_append, ?_⟩
        have hret : lineLoop blocks slot (⟨none, save, pre ++ (s ++ 0 :: post)⟩, lines)
            = .ret (pre ++ (s ++ 0 :: post), .ok lines) := rfl
        rw [hcall, htoks, Loop.run_ret hret, ← List.append_assoc]
        rfl
      · rw [hcall, htoks, List.foldlM_cons]
        have hline : cstr ((pre' ++ (s' ++ 0 :: post)).drop tok) = t := htok
        match hstep : lineStep blocks slot lines t with
        | .ok lines' =>
            obtain ⟨cut, hcut, hrun⟩ := @ih pre' s' hs' lines' (by omega)
            refine ⟨cut, by omega, ?_⟩
            have hnext : lineLoop blocks slot (⟨some tok, pre'.length, pre' ++ (s' ++ 0 :: post)⟩,
                lines) = .next (strtok isCrlf (pre' ++ (s' ++ 0 :: post)) pre'.length, lines') := by
              simp only [lineLoop, hline, hstep]
            rw [Loop.run_next hnext, hrun]
            rfl
        | .error (.status status) =>
            refine ⟨pre' ++ s', by rw [List.length_append]; exact hlen, ?_⟩
            have hret : lineLoop blocks slot (⟨some tok, pre'.length, pre' ++ (s' ++ 0 :: post)⟩,
                lines) = .ret (pre' ++ (s' ++ 0 :: post), .error status) := by
              simp only [lineLoop, hline, hstep]
            rw [Loop.run_ret hret, ← List.append_assoc]
            rfl
        | .error .undefined =>
            refine ⟨pre' ++ s', by rw [List.length_append]; exact hlen, ?_⟩
            have hfault : lineLoop blocks slot (⟨some tok, pre'.length, pre' ++ (s' ++ 0 :: post)⟩,
                lines) = .fault := by
              simp only [lineLoop, hline, hstep]
            rw [Loop.run_fault hfault]
            rfl

/-! ## The outer loop -/

/-- The request that the text `seg` before a CRLF CRLF is parsed to. -/
def parseSegment (blocks : Blocks) (slot : Nat) (httpr : HttpRequest) (seg : Bytes) :
    Except Stop HttpRequest :=
  ((strtokAll isCrlf seg).foldlM (lineStep blocks slot) ⟨true, httpr, []⟩).map fun lines =>
    { lines.httpr with headers := some lines.headers }

/-- The state of the outer loop when `rest` is still to be parsed: `done` bytes are
behind it, and `curRequest` is where the next CRLF CRLF of `rest` is. -/
structure RequestLoop.At (s : RequestLoop) (rest : Bytes) : Prop where
  data : s.data.drop s.request = rest
  curRequest : s.curRequest = (strstr crlfcrlf rest).map (s.request + ·)
  request : s.request ≤ s.data.length

/-- **A round of the outer loop**: the text before the next CRLF CRLF is parsed to the
next slot, and what is behind it is left to be parsed. -/
theorem requestLoop_step (heap : Nat → Blocks) {s : RequestLoop} {seg rest : Bytes}
    (hat : s.At (seg ++ crlfcrlf ++ rest))
    (hfind : strstr crlfcrlf (seg ++ crlfcrlf ++ rest) = some seg.length)
    (hseg : (0 : UInt8) ∉ seg) :
    match parseSegment (heap s.numRequests) s.numRequests (s.requests.getD s.numRequests .zero)
    seg with
    | .error .undefined => requestLoop heap s = .fault
    | .error (.status status) => ∃ data, data.length = s.data.length ∧
        requestLoop heap s = .ret (status, { s with data := data })
    | .ok httpr =>
        if s.numRequests < maxRequests then
          ∃ s', requestLoop heap s = .next s' ∧ s'.At rest ∧
            s'.requests = s.requests.set s.numRequests httpr ∧ s'.numRequests = s.numRequests + 1 ∧
            s'.data.length = s.data.length
        else requestLoop heap s = .fault := by
  obtain ⟨pre, hpre⟩ : ∃ pre, pre = s.data.take s.request := ⟨_, rfl⟩
  have hprelen : pre.length = s.request := by
    rw [hpre, List.length_take]
    exact Nat.min_eq_left hat.request
  obtain ⟨post, hpost⟩ : ∃ post, post = [10, 13, 10] ++ rest := ⟨_, rfl⟩
  have hdata : s.data = pre ++ (seg ++ 13 :: post) := by
    rw [← List.take_append_drop s.request s.data, ← hpre, hat.data, hpost]
    simp [crlfcrlf]
  have hcur : s.curRequest = some (pre.length + seg.length) := by
    rw [hat.curRequest, hfind, hprelen]
    rfl
  have hset : s.data.set (pre.length + seg.length) 0 = pre ++ (seg ++ 0 :: post) := by
    rw [hdata, List.set_append_right _ _ (Nat.le_add_right _ _), Nat.add_sub_cancel_left,
      List.set_append_right _ _ (Nat.le_refl _), Nat.sub_self]
    rfl
  obtain ⟨cut, hcut, hrun⟩ := @lineLoop_run (heap s.numRequests) s.numRequests pre seg post hseg
    ⟨true, s.requests.getD s.numRequests .zero, []⟩ ((pre ++ (seg ++ 0 :: post)).length + 1)
    (by simp only [List.length_append]; omega)
  have hlen : (cut ++ 0 :: post).length = s.data.length := by
    rw [hdata]
    simp only [List.length_append, List.length_cons, hcut]
    omega
  have hbody : requestLoop heap s =
      match endLines (cut ++ 0 :: post) ((strtokAll isCrlf seg).foldlM
          (lineStep (heap s.numRequests) s.numRequests)
          ⟨true, s.requests.getD s.numRequests .zero, []⟩) with
      | none => .fault
      | some (data, .error status) => .ret (status, { s with data := data })
      | some (data, .ok lines) =>
          if s.numRequests < maxRequests then
            let request := pre.length + seg.length + 1 + 3
            .next {
              data := data
              request := request
              curRequest := (strstr crlfcrlf (data.drop request)).map (request + ·)
              requests := s.requests.set s.numRequests
                { lines.httpr with headers := some lines.headers }
              numRequests := s.numRequests + 1 }
          else .fault := by
    simp only [requestLoop, hcur, hset]
    rw [← hprelen, hrun]
  rw [hbody, parseSegment]
  match (strtokAll isCrlf seg).foldlM (lineStep (heap s.numRequests) s.numRequests)
      ⟨true, s.requests.getD s.numRequests .zero, []⟩ with
  | .error .undefined => rfl
  | .error (.status status) => exact ⟨_, hlen, rfl⟩
  | .ok lines =>
      simp only [endLines, Except.map]
      by_cases hmax : s.numRequests < maxRequests
      swap
      · rw [if_neg hmax, if_neg hmax]
      rw [if_pos hmax, if_pos hmax]
      have hdrop : (cut ++ 0 :: post).drop (pre.length + seg.length + 1 + 3) = rest := by
        rw [← hcut, hpost, Nat.add_assoc, ← List.drop_drop, List.drop_left]
        rfl
      refine ⟨_, rfl, ⟨hdrop, ?_, ?_⟩, rfl, rfl, hlen⟩
      · simp only [hdrop]
      · simp only [List.length_append, List.length_cons, hcut, hpost, List.length_nil]
        omega

theorem exists_segment {rest : Bytes} {k : Nat} (h : strstr crlfcrlf rest = some k) :
    ∃ seg rest', rest = seg ++ crlfcrlf ++ rest' ∧ seg.length = k ∧ (0 : UInt8) ∉ seg := by
  obtain ⟨hnul, ⟨rest', hat⟩, -⟩ := (strstr_eq_some_iff (by decide)).mp h
  refine ⟨rest.take k, rest', ?_, ?_, hnul⟩
  · rw [List.append_assoc, hat, List.take_append_drop]
  · rw [List.length_take]
    refine Nat.min_eq_left (Nat.le_of_not_lt fun hlt => ?_)
    rw [List.drop_of_length_le (Nat.le_of_lt hlt)] at hat
    simp [crlfcrlf] at hat

theorem requestLoop_done (heap : Nat → Blocks) {s : RequestLoop} {rest : Bytes} (hat : s.At rest)
    (hfind : strstr crlfcrlf rest = none) : requestLoop heap s = .ret (.ok, s) := by
  have hcur : s.curRequest = none := by
    rw [hat.curRequest, hfind]
    rfl
  rw [requestLoop, hcur]

/-- What any run of the outer loop keeps, the slots parsed before it among it, and how
many requests it parses at most. -/
theorem requestLoop_run_spec (heap : Nat → Blocks) {fuel : Nat} {s s' : RequestLoop} {rest : Bytes}
    {status : Status} (hat : s.At rest)
    (h : Loop.run (requestLoop heap) fuel s = some (status, s')) :
    s'.data.length = s.data.length ∧
      s'.numRequests ≤ s.numRequests + occurrences crlfcrlf rest ∧
      s.numRequests ≤ s'.numRequests ∧
      s'.requests.take s.numRequests = s.requests.take s.numRequests := by
  induction fuel generalizing s rest with
  | zero => cases h
  | succ fuel ih =>
      cases hfind : strstr crlfcrlf rest with
      | none =>
          rw [Loop.run_ret (requestLoop_done heap hat hfind)] at h
          cases h
          exact ⟨rfl, Nat.le_add_right _ _, Nat.le_refl _, rfl⟩
      | some k =>
          obtain ⟨seg, rest', rfl, rfl, hseg⟩ := exists_segment hfind
          have hocc : 1 + occurrences crlfcrlf rest' ≤ occurrences crlfcrlf (seg
              ++ crlfcrlf ++ rest') := by
            have hseg' := occurrences_append_le crlfcrlf (seg ++ crlfcrlf) rest'
            have hone := occurrences_append_le crlfcrlf seg crlfcrlf
            have : occurrences crlfcrlf crlfcrlf = 1 := by decide
            omega
          have hstep := requestLoop_step heap hat hfind hseg
          match hparse : parseSegment (heap s.numRequests) s.numRequests
              (s.requests.getD s.numRequests .zero) seg with
          | .error .undefined =>
              rw [hparse] at hstep
              rw [Loop.run_fault hstep] at h
              cases h
          | .error (.status status') =>
              rw [hparse] at hstep
              obtain ⟨data, hlen, hret⟩ := hstep
              rw [Loop.run_ret hret] at h
              cases h
              exact ⟨hlen, Nat.le_add_right _ _, Nat.le_refl _, rfl⟩
          | .ok httpr =>
              simp only [hparse] at hstep
              split at hstep
              · obtain ⟨s₁, hnext, hat₁, hreq, hnum, hlen⟩ := hstep
                rw [Loop.run_next hnext] at h
                obtain ⟨hlen', hle, hge, htake⟩ := ih hat₁ h
                refine ⟨hlen'.trans hlen, by omega, by omega, ?_⟩
                -- the slots before the next one are as they were
                have hkeep := congrArg (List.take s.numRequests) htake
                rw [List.take_take, List.take_take, hnum,
                  Nat.min_eq_left (Nat.le_succ s.numRequests), hreq,
                  List.take_set_of_le (Nat.le_refl _)] at hkeep
                exact hkeep
              · rw [Loop.run_fault hstep] at h
                cases h

end InternetLabs.EventServer
