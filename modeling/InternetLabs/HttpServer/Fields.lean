/-
# `InternetLabs.HttpServer.Fields` — what the parser leaves on the heap

Whatever ends it, a parse has put blocks on a heap and pointers to them in a request.
`Stored` is the invariant of the loop: each field reads as its text, and the blocks of
the fields are owned, so that whoever has the request can free them.  The line of a host
overwrites a pointer and so gives a block up; nothing else does.

The five ways a parse ends are the five theorems of the last section.  In the two in the
middle, an error status, the request still has pointers to what was freed.
-/
import InternetLabs.HttpServer.Respond

namespace InternetLabs.HttpServer

open InternetLabs.EventServer (Status methods http11 filetypeOf isCrlf strReplace seen headerOf
  headerName IsHost hostOf storedLines)

/-! ## What the fields hold

The fields of a request are pointers; what they read as is told beside who owns the
blocks. -/

/-- The pointer reads as a text; `NULL` reads as none. -/
inductive Reads (heap : Heap Contents) : Ptr → Option Bytes → Prop where
  | null : Reads heap none none
  | text {i : Nat} {t : Bytes} : heap.Holds i (.chars t) → Reads heap (some i) (some t)

/-- The entry reads as a header. -/
structure HttpHeader.Reads (heap : Heap Contents) (e : HttpHeader) (h : EventServer.HttpHeader) :
    Prop where
  name : heap.Holds e.name (.chars h.name)
  value : heap.Holds e.value (.chars h.value)

/-- The fields of a request, and the entries of its headers, read as the texts `r`. -/
structure HttpRequest.Shows (httpr : HttpRequest) (entries : List HttpHeader)
    (heap : Heap Contents) (r : EventServer.HttpRequest) : Prop where
  method : Reads heap httpr.method r.method
  uri : Reads heap httpr.uri r.uri
  filetype : Reads heap httpr.filetype r.filetype
  version : Reads heap httpr.version r.version
  host : Reads heap httpr.host r.host
  headers : ∃ hs, r.headers = some hs ∧ List.Forall₂ (HttpHeader.Reads heap) entries hs

def HttpRequest.strings (httpr : HttpRequest) : List Ptr :=
  [httpr.method, httpr.uri, httpr.filetype, httpr.host, httpr.version]

def entryBlocks (entries : List HttpHeader) : List Nat :=
  entries.flatMap fun e => [e.name, e.value]

def HttpRequest.blocks (httpr : HttpRequest) (entries : List HttpHeader) : List Nat :=
  httpr.strings.reduceOption ++ entryBlocks entries

/-- The fields read as `r`, and their blocks are owned. -/
structure Lines.Stored (s : Lines) (r : EventServer.HttpRequest) : Prop where
  shows : s.httpr.Shows s.headers s.heap r
  owns : s.heap.Owns (s.httpr.blocks s.headers)

/-- The fields of a request that has its array of headers read as `r`. -/
def Parsed.Shows (p : Parsed) (r : EventServer.HttpRequest) : Prop :=
  ∃ entries i, p.httpr.headers = some i ∧ p.heap.Holds i (.headers entries) ∧
    p.httpr.Shows entries p.heap r

/-- The fields of a request read as `r`, and their blocks are owned, that of the array of headers
among them. -/
def Parsed.Stored (p : Parsed) (r : EventServer.HttpRequest) : Prop :=
  ∃ entries i, p.httpr.headers = some i ∧ p.heap.Holds i (.headers entries) ∧
    p.httpr.Shows entries p.heap r ∧ p.heap.Owns (i :: p.httpr.blocks entries)

theorem Parsed.Stored.shows {p : Parsed} {r : EventServer.HttpRequest} (h : p.Stored r) :
    p.Shows r := by
  obtain ⟨entries, i, hheaders, hholds, hshows, -⟩ := h
  exact ⟨entries, i, hheaders, hholds, hshows⟩

section Frame
variable {heap heap' : Heap Contents} {httpr : HttpRequest} {entries : List HttpHeader}
  {r : EventServer.HttpRequest}

theorem Reads.frame {p : Ptr} {t : Option Bytes} (h : Reads heap p t)
    (hkeep : ∀ i a, p = some i → heap.Holds i a → heap'.Holds i a) : Reads heap' p t := by
  cases h with
  | null => exact .null
  | text hi => exact .text (hkeep _ _ rfl hi)

theorem Reads.field {p : Ptr} {t : Bytes} (h : Reads heap p (some t)) : field heap p = .ok t := by
  cases h with
  | text hi => rw [HttpServer.field, hi.load]; rfl

theorem mem_entryBlocks {e : HttpHeader} (he : e ∈ entries) {i : Nat}
    (hi : i = e.name ∨ i = e.value) : i ∈ entryBlocks entries :=
  List.mem_flatMap.mpr ⟨e, he, by simpa using hi⟩

/-- **Frame.**  The fields read as before if their blocks are left alone. -/
theorem HttpRequest.Shows.frame (h : httpr.Shows entries heap r)
    (hkeep : ∀ i ∈ httpr.blocks entries, ∀ a, heap.Holds i a → heap'.Holds i a) :
    httpr.Shows entries heap' r := by
  have hstring : ∀ p ∈ httpr.strings, ∀ i a, p = some i → heap.Holds i a → heap'.Holds i a := by
    rintro p hp i a rfl
    exact hkeep i (List.mem_append_left _ (List.reduceOption_mem_iff.mpr hp)) a
  have hentry : ∀ i ∈ entryBlocks entries, ∀ a, heap.Holds i a → heap'.Holds i a :=
    fun i hi => hkeep i (List.mem_append_right _ hi)
  obtain ⟨hs, hr, hall⟩ := h.headers
  have hall' : ∀ (es : List HttpHeader) (hs : List EventServer.HttpHeader),
      (∀ e ∈ es, e ∈ entries) → List.Forall₂ (HttpHeader.Reads heap) es hs →
        List.Forall₂ (HttpHeader.Reads heap') es hs := by
    intro es hs hmem hall
    induction hall with
    | nil => exact .nil
    | cons he _ ih =>
        have hin := hmem _ List.mem_cons_self
        exact .cons ⟨hentry _ (mem_entryBlocks hin (.inl rfl)) _ he.name,
          hentry _ (mem_entryBlocks hin (.inr rfl)) _ he.value⟩
          (ih fun e he => hmem e (List.mem_cons_of_mem _ he))
  exact ⟨h.method.frame (hstring _ (by simp [HttpRequest.strings])),
    h.uri.frame (hstring _ (by simp [HttpRequest.strings])),
    h.filetype.frame (hstring _ (by simp [HttpRequest.strings])),
    h.version.frame (hstring _ (by simp [HttpRequest.strings])),
    h.host.frame (hstring _ (by simp [HttpRequest.strings])),
    hs, hr, hall' entries hs (fun _ he => he) hall⟩

theorem HttpRequest.Shows.malloc (h : httpr.Shows entries heap r) (a : Contents) :
    httpr.Shows entries (heap.malloc a) r :=
  h.frame fun _ _ _ hi => hi.malloc a

theorem HttpRequest.Shows.release (h : httpr.Shows entries heap r) {j : Nat}
    (hj : j ∉ httpr.blocks entries) : httpr.Shows entries (heap.release j) r :=
  h.frame fun _ hi _ hia => hia.release fun heq => hj (heq ▸ hi)

end Frame

/-! ## The text -/

def linesOf (request : Bytes) : List Bytes := strtokAll isCrlf (cstr request)

/-- The words of a request line fit their blocks. -/
def WordsFit (line : Bytes) : Prop :=
  (∀ w ∈ (words line)[0]?, w.length < 16) ∧ (∀ w ∈ (words line)[1]?, w.length < bufferMax) ∧
    ∀ w ∈ (words line)[2]?, w.length < 32

instance (line : Bytes) : Decidable (WordsFit line) := inferInstanceAs (Decidable (_ ∧ _ ∧ _))

/-- The array of a caller holds a string, whose words and headers fit their blocks. -/
structure Fits (request : Bytes) : Prop where
  size : request.length = bufferMax
  terminated : (0 : UInt8) ∈ request
  words : ∀ line ∈ (linesOf request).head?, WordsFit line
  headers : (storedLines (linesOf request).tail).length ≤ headerMax

theorem Fits.of_mem {request : Bytes} (h : Fits request) :
    ∀ l ∈ linesOf request, (0 : UInt8) ∉ l ∧ l.length < bufferMax := by
  intro l hl
  have hsub := EventServer.sublist_of_mem_strtokAll isCrlf (cstr request) l hl
  refine ⟨fun h0 => zero_notMem_cstr request (hsub.mem h0), ?_⟩
  exact Nat.lt_of_le_of_lt hsub.length_le (h.size ▸ length_cstr_lt_iff.mpr h.terminated)

def inArray (text : Bytes) : Bytes := text ++ List.replicate (bufferMax - text.length) 0

theorem linesOf_inArray {text : Bytes} (hnul : (0 : UInt8) ∉ text) :
    linesOf (inArray text) = strtokAll isCrlf text := by
  rw [linesOf, inArray, cstr_append_replicate hnul]

theorem fits_inArray {text : Bytes} (hnul : (0 : UInt8) ∉ text) (hlen : text.length < bufferMax)
    (hwords : ∀ line ∈ (strtokAll isCrlf text).head?, WordsFit line)
    (hheaders : (storedLines (strtokAll isCrlf text).tail).length ≤ headerMax) :
    Fits (inArray text) where
  size := by
    rw [inArray, List.length_append, List.length_replicate]
    omega
  terminated := List.mem_append_right _ (List.mem_replicate.mpr ⟨by omega, rfl⟩)
  words := by rwa [linesOf_inArray hnul]
  headers := by rwa [linesOf_inArray hnul]

/-- A request with the line, and a host. -/
def requestWith (line : Bytes) : Bytes :=
  inArray (line ++ [13, 10] ++ ascii "Host: localhost" ++ [13, 10, 13, 10])

theorem requestWith_spec {line : Bytes} (hline : line = ascii "GET / HTTP/1.1" ∨
      line = ascii "PUT / HTTP/1.1" ∨ line = ascii "GET / HTTP/1.0") :
    Fits (requestWith line) ∧ linesOf (requestWith line) = [line, ascii "Host: localhost"] := by
  rcases hline with rfl | rfl | rfl
  all_goals exact ⟨fits_inArray (by decide) (by decide) (by decide) (by decide),
    (linesOf_inArray (by decide)).trans (by decide)⟩

/-- The texts of a request with the lines `line :: ls`. -/
def fieldsOf (blocks : Blocks) (line : Bytes) (ls : List Bytes) : EventServer.HttpRequest where
  method := some (seen blocks.method (words line)[0]?)
  uri := some (seen blocks.uri (words line)[1]?)
  filetype := some (filetypeOf (seen blocks.uri (words line)[1]?))
  version := some (seen blocks.version (words line)[2]?)
  host := hostOf none ls
  headers := some ((storedLines ls).map headerOf)

/-! ## The request line -/

theorem scanWord_ok {block : Bytes} {w : Option Bytes} (hnul : ∀ x ∈ w, (0 : UInt8) ∉ x)
    (hfit : ∀ x ∈ w, x.length < block.length) :
    ∃ block', scanWord block w = .ok block' ∧ cstr block' = seen block w ∧
      ((0 : UInt8) ∈ block' ↔ w.isSome ∨ (0 : UInt8) ∈ block) := by
  rcases EventServer.scanWord_eq block hnul with ⟨x, hx, hle, -⟩ | ⟨-, block', hscan, hspec⟩
  · exact absurd (hfit x hx) (Nat.not_lt.mpr hle)
  · exact ⟨block', by rw [scanWord, hscan]; rfl, hspec⟩

/-- The heap with the blocks for three words. -/
def lineHeap (heap : Heap Contents) (method uri version : Bytes) : Heap Contents :=
  ((heap.malloc (.chars method)).malloc (.chars uri)).malloc (.chars version)

/-- What is freed when the parse fails in the request line. -/
def failedBlocks (freesVersion : Bool) (heap : Heap Contents) : List Ptr :=
  if freesVersion then [some heap.fresh, some (heap.fresh + 1), some (heap.fresh + 2)]
  else [some heap.fresh, some (heap.fresh + 1)]

section RequestLine
variable (accepts : Bytes → Bool) (freesVersion : Bool) (blocks : Blocks)

/-- **A request line**, whose words fit. -/
theorem requestLine_eq {line : Bytes} (hline : (0 : UInt8) ∉ line) (hfit : WordsFit line)
    {method uri version : Bytes} (hmethod : seen blocks.method (words line)[0]? = method)
    (huri : seen blocks.uri (words line)[1]? = uri)
    (hversion : seen blocks.version (words line)[2]? = version) (s : Lines) :
    requestLine accepts freesVersion blocks line s =
      if accepts method = false then
        .error (leave .notImplemented s.httpr (lineHeap s.heap method uri version)
          (failedBlocks freesVersion s.heap))
      else if version ≠ http11 then
        .error (leave .internalError
          { s.httpr with method := some s.heap.fresh, uri := some (s.heap.fresh + 1) }
          (lineHeap s.heap method uri version) (failedBlocks freesVersion s.heap))
      else if (words line)[1]? = none ∧ (0 : UInt8) ∉ blocks.uri then .error (.fault .overrun)
      else .ok { s with
        first := false
        httpr := { s.httpr with
          method := some s.heap.fresh
          uri := some (s.heap.fresh + 1)
          version := some (s.heap.fresh + 2)
          filetype := some (s.heap.fresh + 3) }
        heap := (lineHeap s.heap method uri version).malloc (.chars (filetypeOf uri)) } := by
  have hnul : ∀ i : Nat, ∀ x ∈ (words line)[i]?, (0 : UInt8) ∉ x :=
    fun i x hx => (EventServer.word_of_getElem? hline hx).1
  obtain ⟨m, hm, hcm, -⟩ := scanWord_ok (hnul 0) (by rw [blocks.method_length]; exact hfit.1)
  obtain ⟨u, hu, hcu, hzero⟩ := scanWord_ok (hnul 1) (by rw [blocks.uri_length]; exact hfit.2.1)
  obtain ⟨v, hv, hcv, -⟩ := scanWord_ok (hnul 2) (by rw [blocks.version_length]; exact hfit.2.2)
  have hzero : (0 : UInt8) ∉ u ↔ (words line)[1]? = none ∧ (0 : UInt8) ∉ blocks.uri := by
    rw [hzero, not_or, Option.not_isSome_iff_eq_none]
  simp only [requestLine, hm, hu, hv, bind, Except.bind, hcm, hcu, hcv, hzero, hmethod, huri,
    hversion, Heap.fresh_malloc]
  rfl

end RequestLine

theorem lineHeap_owns (heap : Heap Contents) (method uri version : Bytes) :
    (lineHeap heap method uri version).Owns [heap.fresh, heap.fresh + 1, heap.fresh + 2] := by
  have hthree := (((Heap.owns_nil heap).malloc (.chars method)).malloc (.chars uri)).malloc
    (.chars version)
  simp only [Heap.fresh_malloc] at hthree
  exact hthree.perm (List.reverse_perm [heap.fresh, heap.fresh + 1, heap.fresh + 2])

theorem lineHeap_fresh (heap : Heap Contents) (method uri version : Bytes) :
    (lineHeap heap method uri version).fresh = heap.fresh + 3 := by
  simp only [lineHeap, Heap.fresh_malloc]

theorem lineHeap_holds (heap : Heap Contents) (method uri version : Bytes) :
    (lineHeap heap method uri version).Holds heap.fresh (.chars method) ∧
      (lineHeap heap method uri version).Holds (heap.fresh + 1) (.chars uri) ∧
      (lineHeap heap method uri version).Holds (heap.fresh + 2) (.chars version) := by
  have huri := Heap.holds_fresh (heap.malloc (.chars method)) (.chars uri)
  have hversion := Heap.holds_fresh ((heap.malloc (.chars method)).malloc (.chars uri))
    (.chars version)
  simp only [Heap.fresh_malloc] at huri hversion
  exact ⟨((Heap.holds_fresh heap _).malloc _).malloc _, huri.malloc _, hversion⟩

/-- A parse that fails in the request line can free its blocks; the URI is among them. -/
theorem leave_failed (status : Status) (httpr : HttpRequest) (freesVersion : Bool)
    (heap : Heap Contents) (method uri version : Bytes) :
    ∃ heap', leave status httpr (lineHeap heap method uri version) (failedBlocks freesVersion heap)
        = .returned ⟨status, httpr, heap'⟩ ∧
      heap'.load (some (heap.fresh + 1)) = .error .dangling := by
  have howns := lineHeap_owns heap method uri version
  obtain ⟨rest, hrest⟩ : ∃ rest, (lineHeap heap method uri version).Owns
      ((failedBlocks freesVersion heap).reduceOption ++ rest) := by
    cases freesVersion with
    | true => exact ⟨[], howns⟩
    | false => exact ⟨[heap.fresh + 2], howns⟩
  obtain ⟨heap', hfree, -⟩ := hrest.freeAll
  have huri : some (heap.fresh + 1) ∈ failedBlocks freesVersion heap := by
    cases freesVersion with
    | true => exact List.mem_cons_of_mem _ List.mem_cons_self
    | false => exact List.mem_cons_of_mem _ List.mem_cons_self
  exact ⟨heap', by rw [leave, hfree], Heap.load_of_mem_freeAll huri hfree⟩

theorem requestLine_stored (heap : Heap Contents) (method uri version filetype : Bytes) :
    Lines.Stored {
        first := false
        httpr := { HttpRequest.zero with
          method := some heap.fresh
          uri := some (heap.fresh + 1)
          version := some (heap.fresh + 2)
          filetype := some (heap.fresh + 3) }
        headers := []
        heap := (lineHeap heap method uri version).malloc (.chars filetype) }
      { method := some method, uri := some uri, filetype := some filetype, version := some version,
        host := none, headers := some [] } := by
  obtain ⟨hmethod, huri, hversion⟩ := lineHeap_holds heap method uri version
  have htype := Heap.holds_fresh (lineHeap heap method uri version) (.chars filetype)
  have hfour := (lineHeap_owns heap method uri version).malloc (.chars filetype)
  rw [lineHeap_fresh] at htype hfour
  refine ⟨⟨.text (hmethod.malloc _), .text (huri.malloc _), .text htype, .text (hversion.malloc _),
    .null, [], rfl, .nil⟩, hfour.perm ?_⟩
  -- the fields have the type before the version
  exact (@List.perm_middle _ (heap.fresh + 3) [heap.fresh, heap.fresh + 1] [heap.fresh + 2]).symm

/-! ## The other lines -/

section HeaderLine
variable {line : Bytes} {s : Lines} {r : EventServer.HttpRequest}

theorem scanWord_header (hline : (0 : UInt8) ∉ line) (hlen : line.length < bufferMax) (i : Nat) :
    ∃ block, scanWord (List.replicate bufferMax 0) (words line)[i]? = .ok block ∧
      cstr block = (words line)[i]?.getD [] := by
  obtain ⟨block, hscan, hcstr, -⟩ := @scanWord_ok (List.replicate bufferMax 0) (words line)[i]?
    (fun x hx => (EventServer.word_of_getElem? hline hx).1)
    (fun x hx => by
      rw [List.length_replicate]
      exact Nat.lt_of_le_of_lt (EventServer.word_of_getElem? hline hx).2 hlen)
  refine ⟨block, hscan, hcstr.trans ?_⟩
  cases (words line)[i]? with
  | none => exact cstr_replicate_zero _
  | some w => rfl

/-- The name of a header without its colons fits the buffer of `str_replace`. -/
theorem strReplace_headerName (hline : (0 : UInt8) ∉ line) (hlen : line.length < bufferMax) :
    strReplace (headerName line) (ascii ":") [] = some (headerOf line).name := by
  have hname : (0 : UInt8) ∉ headerName line ∧ (headerName line).length ≤ line.length := by
    rw [headerName]
    cases hw : (words line)[0]? with
    | none => exact ⟨List.not_mem_nil, Nat.zero_le _⟩
    | some w => exact EventServer.word_of_getElem? hline hw
  rw [EventServer.strReplace_colons hname.1, if_pos]
  · rfl
  · exact Nat.lt_of_le_of_lt ((List.length_filter_le _ _).trans hname.2) hlen

/-- **The line of a host.**  The block of the name is freed; that of an earlier host is
given up. -/
theorem headerLine_host (hline : (0 : UInt8) ∉ line) (hlen : line.length < bufferMax)
    (hhost : IsHost line) (h : s.Stored r) :
    ∃ s', headerLine line s = .ok s' ∧ s'.first = s.first ∧ s'.headers = s.headers ∧
      s'.Stored { r with host := some (headerOf line).value } := by
  obtain ⟨name, hname, hcname⟩ := scanWord_header hline hlen 0
  obtain ⟨value, hvalue, hcvalue⟩ := scanWord_header hline hlen 1
  have hcname : cstr name = headerName line := hcname
  have hcvalue : cstr value = (headerOf line).value := hcvalue
  obtain ⟨heap, hheap⟩ : ∃ heap, heap = (s.heap.malloc (.chars (headerName line))).malloc
      (.chars (headerOf line).value) := ⟨_, rfl⟩
  have howns : heap.Owns (s.heap.fresh :: (s.heap.fresh + 1) :: s.httpr.blocks s.headers) := by
    have htwo := (h.owns.malloc (.chars (headerName line))).malloc (.chars (headerOf line).value)
    rw [← hheap, Heap.fresh_malloc] at htwo
    exact htwo.perm (.swap _ _ _)
  have hval : heap.Holds (s.heap.fresh + 1) (.chars (headerOf line).value) := by
    have := Heap.holds_fresh (s.heap.malloc (.chars (headerName line)))
      (.chars (headerOf line).value)
    rwa [← hheap, Heap.fresh_malloc] at this
  obtain ⟨hfree, howns'⟩ := howns.free
  have hrun : headerLine line s = .ok { s with
      httpr := { s.httpr with host := some (s.heap.fresh + 1) }
      heap := heap.release s.heap.fresh } := by
    simp only [headerLine, hname, hvalue, bind, Except.bind, hcname, hcvalue, if_pos hhost,
      Heap.fresh_malloc]
    rw [← hheap, hfree]
    rfl
  refine ⟨_, hrun, rfl, rfl, ?_, ?_⟩
  · have hkept : s.httpr.Shows s.headers (heap.release s.heap.fresh) r := by
      rw [hheap]
      exact ((h.shows.malloc _).malloc _).release fun hmem =>
        howns.notMem (List.mem_cons_of_mem _ hmem)
    exact ⟨hkept.method, hkept.uri, hkept.filetype, hkept.version,
      .text (hval.release (Nat.succ_ne_self _)), hkept.headers⟩
  · -- the new block stands for that of the old host, if there was one
    have hsub : ([s.httpr.method, s.httpr.uri, s.httpr.filetype] ++
        [s.httpr.version]).reduceOption.Sublist s.httpr.strings.reduceOption :=
      List.Sublist.filterMap id ((List.Sublist.refl _).append
        ((List.Sublist.refl [s.httpr.version]).cons s.httpr.host))
    have hperm := (@List.perm_middle _ (some (s.heap.fresh + 1))
      [s.httpr.method, s.httpr.uri, s.httpr.filetype] [s.httpr.version]).filterMap id
    exact (howns'.sublist ((hsub.append (List.Sublist.refl (entryBlocks s.headers))).cons_cons
      (s.heap.fresh + 1))).perm (hperm.symm.append_right (entryBlocks s.headers))

/-- **A line that is stored.** -/
theorem headerLine_header (hline : (0 : UInt8) ∉ line) (hlen : line.length < bufferMax)
    (hhost : ¬ IsHost line) (hcount : s.headers.length < headerMax) (h : s.Stored r) :
    ∃ s', headerLine line s = .ok s' ∧ s'.first = s.first ∧
      s'.headers.length = s.headers.length + 1 ∧
      s'.Stored { r with headers := r.headers.map (· ++ [headerOf line]) } := by
  obtain ⟨name, hname, hcname⟩ := scanWord_header hline hlen 0
  obtain ⟨value, hvalue, hcvalue⟩ := scanWord_header hline hlen 1
  have hcname : cstr name = headerName line := hcname
  have hcvalue : cstr value = (headerOf line).value := hcvalue
  obtain ⟨heap, hheap⟩ : ∃ heap, heap = (s.heap.malloc (.chars (headerOf line).name)).malloc
      (.chars (headerOf line).value) := ⟨_, rfl⟩
  have hrun : headerLine line s = .ok { s with
      headers := s.headers ++ [⟨s.heap.fresh, s.heap.fresh + 1⟩]
      heap := heap } := by
    simp only [headerLine, hname, hvalue, bind, Except.bind, hcname, hcvalue, if_neg hhost,
      strReplace_headerName hline hlen, Heap.fresh_malloc, if_pos hcount]
    rw [hheap]
    rfl
  refine ⟨_, hrun, rfl, List.length_append, ?_, ?_⟩
  · have hkept : s.httpr.Shows s.headers heap r := by
      rw [hheap]
      exact (h.shows.malloc _).malloc _
    have hentry : HttpHeader.Reads heap ⟨s.heap.fresh, s.heap.fresh + 1⟩ (headerOf line) := by
      have hval := Heap.holds_fresh (s.heap.malloc (.chars (headerOf line).name))
        (.chars (headerOf line).value)
      rw [← hheap, Heap.fresh_malloc] at hval
      exact ⟨hheap ▸ (Heap.holds_fresh s.heap _).malloc _, hval⟩
    obtain ⟨hs, hr, hall⟩ := hkept.headers
    exact ⟨hkept.method, hkept.uri, hkept.filetype, hkept.version, hkept.host,
      hs ++ [headerOf line], by rw [hr]; rfl, List.rel_append hall (.cons hentry .nil)⟩
  · have htwo := (h.owns.malloc (.chars (headerOf line).name)).malloc (.chars (headerOf line).value)
    rw [← hheap, Heap.fresh_malloc] at htwo
    refine (htwo.perm (.swap _ _ _)).perm ?_
    have hentries : entryBlocks (s.headers ++ [⟨s.heap.fresh, s.heap.fresh + 1⟩])
        = entryBlocks s.headers ++ [s.heap.fresh, s.heap.fresh + 1] :=
      List.flatMap_append
    simp only [HttpRequest.blocks, hentries]
    rw [← List.append_assoc]
    exact @List.perm_append_comm _ [s.heap.fresh, s.heap.fresh + 1] _

end HeaderLine

/-! ## The ends of a parse

One result for each `return` of the parser. -/

section Ends
variable (accepts : Bytes → Bool) (freesVersion : Bool) (blocks : Blocks)

theorem foldlM_lineStep_stored {ls : List Bytes}
    (hls : ∀ l ∈ ls, (0 : UInt8) ∉ l ∧ l.length < bufferMax) {s : Lines}
    {r : EventServer.HttpRequest} (hfirst : s.first = false)
    (hcount : s.headers.length + (storedLines ls).length ≤ headerMax) (h : s.Stored r) :
    ∃ s', ls.foldlM (lineStep accepts freesVersion blocks) s = .ok s' ∧
      s'.Stored { r with
        host := hostOf r.host ls
        headers := r.headers.map (· ++ (storedLines ls).map headerOf) } := by
  induction ls generalizing s r with
  | nil =>
      refine ⟨s, rfl, ?_⟩
      have hsame : r.headers.map (· ++ (storedLines []).map headerOf) = r.headers := by
        cases r.headers with
        | none => rfl
        | some hs => exact congrArg some (List.append_nil hs)
      rw [hsame]
      exact h
  | cons l ls ih =>
      obtain ⟨⟨hnul, hlen⟩, hls⟩ := List.forall_mem_cons.mp hls
      have hstep : lineStep accepts freesVersion blocks s l = headerLine l s := by
        rw [lineStep, hfirst, if_neg Bool.false_ne_true]
      rw [List.foldlM_cons, hstep]
      by_cases hhost : IsHost l
      · obtain ⟨s₁, hrun, hfirst₁, hheaders, h₁⟩ := headerLine_host hnul hlen hhost h
        rw [EventServer.storedLines_cons_host hhost] at hcount ⊢
        obtain ⟨s', hrest, h'⟩ := ih hls (hfirst₁.trans hfirst) (hheaders ▸ hcount) h₁
        refine ⟨s', by rw [hrun]; exact hrest, ?_⟩
        rwa [hostOf, List.foldl_cons, if_pos hhost]
      · rw [EventServer.storedLines_cons hhost, List.length_cons] at hcount
        obtain ⟨s₁, hrun, hfirst₁, hheaders, h₁⟩ :=
          headerLine_header hnul hlen hhost (by omega) h
        obtain ⟨s', hrest, h'⟩ := ih hls (hfirst₁.trans hfirst) (by omega) h₁
        refine ⟨s', by rw [hrun]; exact hrest, ?_⟩
        have hheads : (r.headers.map (· ++ [headerOf l])).map (· ++ (storedLines ls).map headerOf)
            = r.headers.map (· ++ (storedLines (l :: ls)).map headerOf) := by
          rw [EventServer.storedLines_cons hhost, Option.map_map]
          exact congrArg (r.headers.map ·) (funext fun hs => by simp)
        rw [← hheads, hostOf, List.foldl_cons, if_neg hhost]
        exact h'

/-- **The loop over the lines**, as a fold: of the array only the string matters. -/
theorem requestToStruct_lines {request : Bytes} (hsize : request.length = bufferMax)
    (hterminated : (0 : UInt8) ∈ request) (httpr : HttpRequest) (heap : Heap Contents) :
    requestToStruct accepts freesVersion blocks request httpr heap
      = returned ((linesOf request).foldlM (lineStep accepts freesVersion blocks)
          ⟨true, httpr, [], heap⟩) := by
  obtain ⟨post, hpost⟩ := exists_cstr_append hterminated
  have hlen : (cstr request).length < bufferMax + 1 :=
    Nat.lt_succ_of_le (hsize ▸ length_cstr_le request)
  have hloop := @tokenLoop_run _ _ isCrlf (lineStep accepts freesVersion blocks) [] (cstr request)
    post (zero_notMem_cstr request) ⟨true, httpr, [], heap⟩ _ hlen
  rw [List.nil_append, ← hpost, List.length_nil] at hloop
  rw [requestToStruct, if_neg (Nat.not_lt.mpr (Nat.le_of_eq hsize.symm)),
    List.take_of_length_le (Nat.le_of_eq hsize)]
  simp only [hloop]
  rfl

variable {request : Bytes} (h : Fits request)
include h

theorem requestToStruct_fold (httpr : HttpRequest) (heap : Heap Contents) :
    requestToStruct accepts freesVersion blocks request httpr heap
      = returned ((linesOf request).foldlM (lineStep accepts freesVersion blocks)
          ⟨true, httpr, [], heap⟩) :=
  requestToStruct_lines accepts freesVersion blocks h.size h.terminated httpr heap

variable (heap : Heap Contents)

theorem requestToStruct_blank (hlines : linesOf request = []) :
    requestToStruct accepts freesVersion blocks request .zero heap = .ok {
      status := .ok
      httpr := { HttpRequest.zero with headers := some heap.fresh }
      heap := heap.malloc (.headers []) } := by
  rw [requestToStruct_fold accepts freesVersion blocks h, hlines]
  rfl

variable {line : Bytes} {ls : List Bytes} (hlines : linesOf request = line :: ls)
include hlines

theorem requestToStruct_method
    (hmethod : accepts (seen blocks.method (words line)[0]?) = false) :
    ∃ heap', requestToStruct accepts freesVersion blocks request .zero heap
      = .ok ⟨.notImplemented, .zero, heap'⟩ := by
  have hline := (h.of_mem line (hlines ▸ List.mem_cons_self)).1
  have hfit := h.words line (by rw [hlines]; rfl)
  obtain ⟨heap', hleave, -⟩ := leave_failed .notImplemented .zero freesVersion heap
    (seen blocks.method (words line)[0]?) (seen blocks.uri (words line)[1]?)
    (seen blocks.version (words line)[2]?)
  refine ⟨heap', ?_⟩
  rw [requestToStruct_fold accepts freesVersion blocks h, hlines, List.foldlM_cons, lineStep,
    if_pos rfl, requestLine_eq accepts freesVersion blocks hline hfit rfl rfl rfl, if_pos hmethod,
    hleave]
  rfl

/-- A version that is not HTTP/1.1: the URI of the request is a pointer to a block that was
freed. -/
theorem requestToStruct_version
    (hmethod : accepts (seen blocks.method (words line)[0]?) = true)
    (hversion : seen blocks.version (words line)[2]? ≠ http11) :
    ∃ heap', requestToStruct accepts freesVersion blocks request .zero heap = .ok {
        status := .internalError
        httpr := { HttpRequest.zero with
          method := some heap.fresh
          uri := some (heap.fresh + 1) }
        heap := heap' } ∧
      heap'.load (some (heap.fresh + 1)) = .error .dangling := by
  have hline := (h.of_mem line (hlines ▸ List.mem_cons_self)).1
  have hfit := h.words line (by rw [hlines]; rfl)
  obtain ⟨heap', hleave, hdangling⟩ := leave_failed .internalError
    { HttpRequest.zero with method := some heap.fresh, uri := some (heap.fresh + 1) }
    freesVersion heap (seen blocks.method (words line)[0]?) (seen blocks.uri (words line)[1]?)
    (seen blocks.version (words line)[2]?)
  refine ⟨heap', ?_, hdangling⟩
  rw [requestToStruct_fold accepts freesVersion blocks h, hlines, List.foldlM_cons, lineStep,
    if_pos rfl, requestLine_eq accepts freesVersion blocks hline hfit rfl rfl rfl,
    if_neg (by rw [hmethod]; exact Bool.true_eq_false_eq_False), if_pos hversion, hleave]
  rfl

/-- No URI, and a block for it without NUL: its end is looked for behind the block. -/
theorem requestToStruct_uri
    (hmethod : accepts (seen blocks.method (words line)[0]?) = true)
    (hversion : seen blocks.version (words line)[2]? = http11)
    (huri : (words line)[1]? = none ∧ (0 : UInt8) ∉ blocks.uri) :
    requestToStruct accepts freesVersion blocks request .zero heap = .error .overrun := by
  have hline := (h.of_mem line (hlines ▸ List.mem_cons_self)).1
  have hfit := h.words line (by rw [hlines]; rfl)
  rw [requestToStruct_fold accepts freesVersion blocks h, hlines, List.foldlM_cons, lineStep,
    if_pos rfl, requestLine_eq accepts freesVersion blocks hline hfit rfl rfl rfl,
    if_neg (by rw [hmethod]; exact Bool.true_eq_false_eq_False), if_neg (not_not.mpr hversion),
    if_pos huri]
  rfl

/-- **A request that is accepted.** -/
theorem requestToStruct_stored
    (hmethod : accepts (seen blocks.method (words line)[0]?) = true)
    (hversion : seen blocks.version (words line)[2]? = http11)
    (huri : ¬ ((words line)[1]? = none ∧ (0 : UInt8) ∉ blocks.uri)) :
    ∃ p, requestToStruct accepts freesVersion blocks request .zero heap = .ok p ∧
      p.status = .ok ∧ p.Stored (fieldsOf blocks line ls) := by
  have hall := h.of_mem
  rw [hlines] at hall
  obtain ⟨⟨hline, -⟩, hls⟩ := List.forall_mem_cons.mp hall
  have hfit := h.words line (by rw [hlines]; rfl)
  have hcount : (storedLines ls).length ≤ headerMax := by
    have := h.headers
    rwa [hlines] at this
  have hfirst := requestLine_stored heap (seen blocks.method (words line)[0]?)
    (seen blocks.uri (words line)[1]?) (seen blocks.version (words line)[2]?)
    (filetypeOf (seen blocks.uri (words line)[1]?))
  obtain ⟨s, hrun, hs⟩ := foldlM_lineStep_stored accepts freesVersion blocks hls rfl
    (by rw [List.length_nil, Nat.zero_add]; exact hcount) hfirst
  have hkept := hs.shows.malloc (.headers s.headers)
  refine ⟨⟨.ok, { s.httpr with headers := some s.heap.fresh }, s.heap.malloc (.headers s.headers)⟩,
    ?_, rfl, s.headers, s.heap.fresh, rfl, Heap.holds_fresh _ _, ⟨hkept.method, hkept.uri,
    hkept.filetype, hkept.version, hkept.host, hkept.headers⟩, hs.owns.malloc _⟩
  rw [requestToStruct_fold accepts freesVersion blocks h, hlines, List.foldlM_cons, lineStep,
    if_pos rfl, requestLine_eq accepts freesVersion blocks hline hfit rfl rfl rfl,
    if_neg (by rw [hmethod]; exact Bool.true_eq_false_eq_False), if_neg (not_not.mpr hversion),
    if_neg huri]
  exact congrArg returned hrun

end Ends

end InternetLabs.HttpServer
