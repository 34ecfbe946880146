/-
# `InternetLabs.EventServer.Batch` — a batch within the limits, and what its slots hold

`Request.Parsed` says what a slot has to hold by the request alone: its words, its
headers, and the MIME type that the text after the last dot of its URI selects.

The type is where `get_filename_ext` has a mind of its own: a name that begins with
its last dot has no extension for it, as a hidden file has none, and gets the default
type (`filetypeOf_typed`).
-/
import InternetLabs.EventServer.Wire

namespace InternetLabs.EventServer

open InternetLabs

/-! ## The type of a file

The type is told by what is behind the last dot of the URI, and a name that has its last
dot in front counts as one without. -/

/-- The type of files without an extension the server knows. -/
def defaultType : Bytes := ascii "text/plain"

def mimeOf (ext : Bytes) : Bytes :=
  if ext = ascii "html" then ascii "text/html"
  else if ext = ascii "txt" then ascii "text/plain"
  else if ext = ascii "jpg" then ascii "image/jpeg"
  else if ext = ascii "gif" then ascii "image/gif"
  else if ext = ascii "png" then ascii "image/png"
  else if ext = ascii "pdf" then ascii "application/pdf"
  else defaultType

/-- The file a URI stands for. -/
def pageOf (uri : Bytes) : Bytes := if uri = ascii "/" then ascii "/index.html" else uri

/-- The text after the last dot selects the type `t`; without a dot it is the default. -/
structure TypedByDot (page t : Bytes) : Prop where
  dot : ∀ pre ext : Bytes, page = pre ++ 46 :: ext → (46 : UInt8) ∉ ext → t = mimeOf ext
  noDot : (46 : UInt8) ∉ page → t = defaultType

/-- `TypedByDot`, but with its last dot in front a name has no extension. -/
structure TypedByExt (page t : Bytes) : Prop where
  dot : ∀ pre ext : Bytes, page = pre ++ 46 :: ext → (46 : UInt8) ∉ ext →
    t = if pre = [] then defaultType else mimeOf ext
  noDot : (46 : UInt8) ∉ page → t = defaultType

theorem filetypeOf_eq (uri : Bytes) : filetypeOf uri = mimeOf (getFilenameExt (pageOf uri)) := rfl

theorem mimeOf_nil : mimeOf [] = defaultType := by decide

/-- **The type** the parser chooses. -/
theorem filetypeOf_typed (uri : Bytes) : TypedByExt (pageOf uri) (filetypeOf uri) := by
  rw [filetypeOf_eq]
  constructor
  case dot =>
    intro pre ext hpage hext
    rw [getFilenameExt, hpage, strrchr_append_cons hext]
    cases pre with
    | nil => exact mimeOf_nil
    | cons b pre =>
        have hdrop : (b :: pre ++ 46 :: ext).drop (pre.length + 2) = ext := by
          rw [List.append_cons]
          exact List.drop_left' (by simp)
        rw [if_neg (List.cons_ne_nil b pre)]
        exact congrArg mimeOf hdrop
  case noDot =>
    intro hpage
    rw [getFilenameExt, strrchr_of_notMem hpage]
    exact mimeOf_nil

/-! ## The slots -/

/-- The slot holds the request; `Typed` says which type its file is to have. -/
structure Request.Parsed (Typed : Bytes → Bytes → Prop) (r : Request) (slot : HttpRequest) :
    Prop where
  method : slot.method = some r.method
  uri : slot.uri = some r.uri
  version : slot.version = some r.version
  host : slot.host = ((r.headers.filter fun h => h.name = ascii "Host").getLast?).map (·.value)
  headers : slot.headers = some (r.headers.filter fun h => h.name ≠ ascii "Host")
  filetype : ∃ t, slot.filetype = some t ∧ Typed (pageOf r.uri) t

theorem lastHost_eq (host : Option Bytes) (hs : List HttpHeader) : lastHost host hs =
    (((hs.filter fun h => h.name = ascii "Host").getLast?).map (·.value)).or host := by
  induction hs generalizing host with
  | nil => rfl
  | cons h hs ih =>
      rw [lastHost, List.foldl_cons]
      have ih := ih (if h.name = ascii "Host" then some h.value else host)
      rw [lastHost] at ih
      rw [ih]
      by_cases hh : h.name = ascii "Host"
      · rw [if_pos hh, List.filter_cons_of_pos (by simpa using hh), List.getLast?_cons]
        cases (hs.filter fun h => h.name = ascii "Host").getLast? <;> rfl
      · rw [if_neg hh, List.filter_cons_of_neg (by simpa using hh)]

theorem Request.parsed_slot (r : Request) : r.Parsed TypedByExt r.slot := by
  refine ⟨rfl, rfl, rfl, ?_, rfl, _, rfl, filetypeOf_typed r.uri⟩
  rw [slot, lastHost_eq, Option.or_none]

/-! ## The batch

What a client may send for all of its requests to be understood, and that they are. -/

/-- A request as a client may send it: a method and the version the server knows, at most
twelve headers besides the host, and no long names. -/
structure Request.WellFormed (r : Request) : Prop where
  method : r.method ∈ methods
  version : r.version = http11
  headers : (r.headers.filter fun h => h.name ≠ ascii "Host").length ≤ headerMax
  names : ∀ h ∈ r.headers, h.name.length < 1023

/-- `request_to_struct` accepts the buffer, and its slots are those of `rs`. -/
def ParsedAs (Typed : Bytes → Bytes → Prop) (rs : List Request)
    (result : Option (Status × Client)) : Prop :=
  ∃ c, result = some (.ok, c) ∧ c.numRequests = rs.length ∧
    ∀ (i : Nat) (r : Request), rs[i]? = some r →
      ∃ slot, c.requests[i]? = some slot ∧ r.Parsed Typed slot

section Batch
variable {rs : List Request} {z : Bytes} {c : Client}

theorem requestToStruct_batchSlots (heap : Nat → Blocks) (hlen : rs.length ≤ maxRequests)
    (hrs : ∀ r ∈ rs, r.WellFormed) (hsize : (renderAll rs).length < bufferMax)
    (hdata : c.recvBuf.data = renderAll rs ++ 0 :: z)
    (hreq : c.requests = List.replicate maxRequests .zero) (hnum : c.numRequests = 0) :
    ∃ c', requestToStruct heap c = some (.ok, c') ∧ c'.numRequests = rs.length ∧
      c'.requests = requestArray (rs.map Request.slot) := by
  have hz : strstr crlfcrlf (0 :: z) = none := by
    have hskip := @strstr_append_zero crlfcrlf (by decide) (by decide) [] z
    rwa [List.nil_append] at hskip
  have hslots : parseBatch rs = some (.ok, rs.map Request.slot) := by
    refine parseBatch_eq_slots fun r hr => ⟨Nat.lt_of_le_of_lt (render_length_le hr) hsize,
      ⟨(hrs r hr).method, (hrs r hr).version⟩, ?_, (hrs r hr).headers⟩
    exact fun h hh => Nat.lt_of_lt_of_le ((hrs r hr).names h hh) (by decide)
  have hbatch := requestToStruct_batch heap hz hlen hdata hreq hnum
  rw [hslots, Option.map_some] at hbatch
  obtain ⟨⟨status, c'⟩, hparse, heq⟩ := Option.map_eq_some_iff.mp hbatch
  simp only [Prod.mk.injEq, List.length_map] at heq
  obtain ⟨rfl, hrequests, hcount⟩ := heq
  exact ⟨c', hparse, hcount, hrequests⟩

/-- **A batch within the limits** is parsed to its requests, whatever blocks the heap gives. -/
theorem requestToStruct_parsedAs (heap : Nat → Blocks) (hlen : rs.length ≤ maxRequests)
    (hrs : ∀ r ∈ rs, r.WellFormed) (hsize : (renderAll rs).length < bufferMax)
    (hdata : c.recvBuf.data = renderAll rs ++ 0 :: z)
    (hreq : c.requests = List.replicate maxRequests .zero) (hnum : c.numRequests = 0) :
    ParsedAs TypedByExt rs (requestToStruct heap c) := by
  obtain ⟨c', hparse, hcount, hrequests⟩ :=
    requestToStruct_batchSlots heap hlen hrs hsize hdata hreq hnum
  refine ⟨c', hparse, hcount, fun i r hr => ⟨r.slot, ?_, r.parsed_slot⟩⟩
  have hslot : (rs.map Request.slot)[i]? = some r.slot := by rw [List.getElem?_map, hr]; rfl
  rw [hrequests, requestArray_getElem? (List.getElem?_eq_some_iff.mp hslot).1, hslot]

end Batch

/-- The headers of a form whose host is named twice. -/
def postHeaders : List HttpHeader :=
  [⟨ascii "Host", ascii "a"⟩, ⟨ascii "Accept", ascii "*/*"⟩, ⟨ascii "Host", ascii "b"⟩]

theorem postHeaders_ok : ∀ h ∈ postHeaders, h.Ok := by decide

def postForm : Request where
  method := ascii "POST"
  uri := ascii "/form.txt"
  version := http11
  headers := postHeaders
  method_word := by decide
  uri_word := by decide
  version_word := getRoot.version_word
  headers_ok := postHeaders_ok

instance (r : Request) : Decidable r.WellFormed :=
  decidable_of_iff (r.method ∈ methods ∧ r.version = http11 ∧
      (r.headers.filter fun h => h.name ≠ ascii "Host").length ≤ headerMax ∧
      ∀ h ∈ r.headers, h.name.length < 1023)
    ⟨fun ⟨hmethod, hversion, hheaders, hnames⟩ => ⟨hmethod, hversion, hheaders, hnames⟩,
      fun h => ⟨h.method, h.version, h.headers, h.names⟩⟩

theorem holding_data {text : Bytes} (h : text.length < bufferMax) :
    (holding text).recvBuf.data = text ++ 0 :: List.replicate (bufferMax - text.length - 1) 0 := by
  have hpos : bufferMax - text.length = bufferMax - text.length - 1 + 1 := by omega
  rw [← List.replicate_succ, ← hpos]
  rfl

theorem postForm_parsedAs : ParsedAs TypedByExt [postForm, getRoot]
    (requestToStruct (fun _ => zeroBlocks) (holding (renderAll [postForm, getRoot]))) :=
  requestToStruct_parsedAs _ (by decide) (by decide) (by decide) (holding_data (by decide)) rfl rfl

/-- A page whose name begins with its last dot. -/
def getHidden : Request := getRequest (ascii ".html") (by decide)

/-- A file with its last dot in front gets the default type, and not that of its extension. -/
theorem getHidden_not_html : ¬ ∀ (heap : Nat → Blocks) (rs : List Request) (z : Bytes) (c : Client),
    0 < rs.length → rs.length ≤ maxRequests → (∀ r ∈ rs, r.WellFormed) →
    (renderAll rs).length < bufferMax → c.recvBuf.data = renderAll rs ++ 0 :: z →
    c.requests = List.replicate maxRequests .zero → c.numRequests = 0 →
      ParsedAs TypedByDot rs (requestToStruct heap c) := by
  intro hall
  have hsize : (renderAll [getHidden]).length < bufferMax := by decide
  have hrs : ∀ r ∈ [getHidden], r.WellFormed := by decide
  obtain ⟨c, hc, -, hslots⟩ := hall (fun _ => zeroBlocks) [getHidden] _
    (holding (renderAll [getHidden])) (by decide) (by decide) hrs hsize (holding_data hsize) rfl rfl
  obtain ⟨c', hc', -, hrequests⟩ := requestToStruct_batchSlots (fun _ => zeroBlocks)
    (by decide) hrs hsize (holding_data hsize) rfl rfl
  obtain ⟨slot, hslot, hparsed⟩ := hslots 0 getHidden rfl
  rw [hc, Option.some.injEq, Prod.mk.injEq] at hc'
  rw [hc'.2, hrequests] at hslot
  cases hslot
  obtain ⟨t, ht, htyped⟩ := hparsed.filetype
  have hhtml := htyped.dot [] (ascii "html") (by decide) (by decide)
  rw [hhtml] at ht
  exact absurd ht (by decide)

end InternetLabs.EventServer
