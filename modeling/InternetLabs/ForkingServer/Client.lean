/-
# `InternetLabs.ForkingServer.Client` — what happens to a request that was parsed

`handle_client` passes every request on, whatever `request_to_struct` has returned:
`send_response` reads the fields, `freeRequestStruct` frees them (`afterParse`).  A field
is read through the heap, so a block that was freed, or a `NULL`, is a fault there.

A request that was accepted owns its blocks and can be read and freed (`Stored`).  The
other two ways a parse can end are both fatal: a text without a line leaves the URI `NULL`,
and a wrong version leaves it pointing to a block the parser has freed.  Both are read
first thing (`sound_iff`).
-/
import InternetLabs.HttpServer.Respond
import InternetLabs.HttpServer.Fields

namespace InternetLabs.ForkingServer

open InternetLabs.HttpServer
open InternetLabs.EventServer (Status OpenError errorText intOfSize http11 seen)

/-! ## The response -/

/-- The head of the response with the page of an error, and what `read` returns. -/
def headAndBody (w : World) (version type : Bytes) (status : Status)
    (file : Except OpenError File) : Except Fault (List Bytes) := do
  let (line, data) := (errorText status).getD (ascii "200 OK", [])
  let size := if status = .ok then intOfSize (file.toOption.elim 0 (·.size)) else data.length
  let head ← responseHead w version line type size (file.toOption.elim w.ctime (·.ctime))
  if head.length + data.length ≤ bufferMax then
    .ok ((head ++ data) :: if status = .ok then file.toOption.elim [] (·.reads) else [])
  else .error .overrun

/-- `send_response`: what it sends, piece by piece. -/
def sendResponse (w : World) (request : HttpRequest) (status : Status) (heap : Heap Contents) :
    Except Fault (List Bytes) := do
  let uri ← field heap request.uri
  let path ← filepath uri
  let file := w.openFile path
  let status := match file with
    | .error errno => errno.status
    | .ok _ => status
  let version ← field heap request.version
  let type ← if status = .ok then field heap request.filetype else .ok (ascii "text/html")
  headAndBody w version type status file

/-! ## The end of the request -/

/-- `headers[i]`, of which `none` is a `name` that is `NULL`. -/
def headerAt (heap : Heap Contents) (headers : Ptr) (i : Nat) : Except Fault (Option HttpHeader) :=
  (heap.load headers).map fun a => a.entries[i]?

/-- The loop of `freeRequestStruct`, with `n` rounds to go. -/
def freeHeaders (headers : Ptr) : (n i : Nat) → Heap Contents → Except Fault (Heap Contents)
  | 0, _, heap => .ok heap
  | n + 1, i, heap => do
      let entry ← headerAt heap headers i
      match entry with
      | none => .ok heap
      | some e =>
          let heap ← heap.free (some e.name)
          let entry ← headerAt heap headers i
          let heap ← heap.free (entry.map (·.value))
          freeHeaders headers n (i + 1) heap

/-- `freeRequestStruct`. -/
def freeRequestStruct (request : HttpRequest) (heap : Heap Contents) :
    Except Fault (Heap Contents) := do
  let heap ← heap.freeAll
    [request.method, request.uri, request.filetype, request.host, request.version]
  let heap ← freeHeaders request.headers headerMax 0 heap
  heap.free request.headers

/-- `handle_client` behind the call of `request_to_struct`. -/
def afterParse (w : World) (p : Parsed) : Except Fault (List Bytes × Heap Contents) := do
  let sent ← sendResponse w p.httpr p.status p.heap
  let heap ← freeRequestStruct p.httpr p.heap
  pure (sent, heap)

/-! ## A request that was accepted -/

section Accepted
variable {heap : Heap Contents}

theorem headerAt_of_holds {i : Nat} {entries : List HttpHeader}
    (hi : heap.Holds i (.headers entries)) (k : Nat) :
    headerAt heap (some i) k = .ok entries[k]? := by
  rw [headerAt, hi.load]
  rfl

theorem headAndBody_noMisuse (w : World) (version type : Bytes) (status : Status)
    (file : Except OpenError File) : NoMisuse (headAndBody w version type status file) :=
  (responseHead_noMisuse w _ _ _ _ _).bind fun _ _ => noMisuse_ite (noMisuse_ok _) noMisuse_overrun

/-- **The response to a request whose strings are there.** -/
theorem sendResponse_noMisuse (w : World) {request : HttpRequest} (status : Status)
    {uri version filetype : Bytes} (huri : Reads heap request.uri (some uri))
    (hversion : Reads heap request.version (some version))
    (hfiletype : Reads heap request.filetype (some filetype)) :
    NoMisuse (sendResponse w request status heap) := by
  rw [sendResponse, huri.field, hversion.field, hfiletype.field]
  exact (noMisuse_ok uri).bind fun u _ => (filepath_noMisuse u).bind fun path _ =>
    (noMisuse_ok version).bind fun v _ => noMisuse_ite
      ((noMisuse_ok filetype).bind fun type _ => headAndBody_noMisuse w v type _ _)
      ((noMisuse_ok (ascii "text/html")).bind fun type _ => headAndBody_noMisuse w v type _ _)

/-- **The loop of `freeRequestStruct`** frees the blocks of the entries from `i` on, and
leaves what else is owned, the array among it. -/
theorem freeHeaders_owns {entries : List HttpHeader} {a : Nat} {rest : List Nat}
    (hrest : a ∈ rest) (n : Nat) {i : Nat} (harray : heap.Holds a (.headers entries))
    (howns : heap.Owns (entryBlocks (entries.drop i) ++ rest)) :
    ∃ heap', freeHeaders (some a) n i heap = .ok heap' ∧ heap'.Owns rest := by
  induction n generalizing heap i with
  | zero => exact ⟨heap, rfl, howns.sublist (List.sublist_append_right _ _)⟩
  | succ n ih =>
      rw [freeHeaders, headerAt_of_holds harray]
      cases hentry : entries[i]? with
      | none => exact ⟨heap, rfl, howns.sublist (List.sublist_append_right _ _)⟩
      | some e =>
          obtain ⟨hlt, hget⟩ := List.getElem?_eq_some_iff.mp hentry
          rw [List.drop_eq_getElem_cons hlt, hget] at howns
          have howns :
              heap.Owns (e.name :: e.value :: (entryBlocks (entries.drop (i + 1)) ++ rest)) :=
            howns
          have hmem : a ∈ entryBlocks (entries.drop (i + 1)) ++ rest :=
            List.mem_append_right _ hrest
          obtain ⟨hname, howns₁⟩ := howns.free
          obtain ⟨hvalue, howns₂⟩ := howns₁.free
          -- the array is neither of the two blocks
          have harray₁ := harray.release fun heq : a = e.name =>
            howns.notMem (heq ▸ List.mem_cons_of_mem _ hmem)
          have harray₂ := harray₁.release fun heq : a = e.value => howns₁.notMem (heq ▸ hmem)
          obtain ⟨heap', hrun, howns'⟩ := ih harray₂ howns₂
          refine ⟨heap', ?_, howns'⟩
          have hsecond : headerAt (heap.release e.name) (some a) i = .ok (some e) := by
            rw [headerAt_of_holds harray₁, hentry]
          simp only [bind, Except.bind, hname, hsecond, Option.map_some, hvalue]
          exact hrun

/-- **Whoever has the request can free it.** -/
theorem freeRequestStruct_ok {request : HttpRequest} {entries : List HttpHeader} {a : Nat}
    (hheaders : request.headers = some a) (harray : heap.Holds a (.headers entries))
    (howns : heap.Owns (a :: request.blocks entries)) :
    ∃ heap', freeRequestStruct request heap = .ok heap' := by
  have hnot : a ∉ request.strings.reduceOption := fun h =>
    howns.notMem (List.mem_append_left _ h)
  have hall : heap.Owns (request.strings.reduceOption ++ (entryBlocks entries ++ [a])) := by
    have hperm : (a :: request.blocks entries).Perm
        (request.strings.reduceOption ++ (entryBlocks entries ++ [a])) := by
      rw [← List.append_assoc]
      exact (List.perm_append_singleton a _).symm
    exact howns.perm hperm
  obtain ⟨heap₁, hfree, howns₁, hkeep⟩ := hall.freeAll
  obtain ⟨heap₂, hloop, howns₂⟩ :=
    @freeHeaders_owns heap₁ entries a [a] List.mem_cons_self headerMax 0
      (hkeep a _ hnot harray) howns₁
  obtain ⟨hlast, -⟩ := howns₂.free
  refine ⟨heap₂.release a, ?_⟩
  simp only [freeRequestStruct, bind, Except.bind]
  rw [show heap.freeAll [request.method, request.uri, request.filetype, request.host,
    request.version] = .ok heap₁ from hfree]
  simp only [hheaders, hloop]
  exact hlast

/-- **A request that was accepted**: every pointer is used while its block is there. -/
theorem afterParse_noMisuse (w : World) {p : Parsed} {r : EventServer.HttpRequest}
    {uri version filetype : Bytes} (huri : r.uri = some uri) (hversion : r.version = some version)
    (hfiletype : r.filetype = some filetype) (h : p.Stored r) : NoMisuse (afterParse w p) := by
  obtain ⟨entries, a, hheaders, harray, hshows, howns⟩ := h
  refine NoMisuse.bind (sendResponse_noMisuse w p.status (huri ▸ hshows.uri)
    (hversion ▸ hshows.version) (hfiletype ▸ hshows.filetype)) fun sent _ => ?_
  obtain ⟨heap', hfree⟩ := freeRequestStruct_ok hheaders harray howns
  rw [hfree]
  exact noMisuse_ok _

end Accepted

/-! ## Every request

The three ways a parse ends, and what comes of each. -/

theorem afterParse_fault {w : World} {p : Parsed} {fault : Fault}
    (huri : p.heap.load p.httpr.uri = .error fault) : afterParse w p = .error fault := by
  rw [afterParse, sendResponse, field, huri]
  rfl

/-- Behind the parse `handle_client` misuses no pointer. -/
def Sound (w : World) (blocks : Blocks) (heap : Heap Contents) (request : Bytes) : Prop :=
  ∀ p, requestToStruct blocks request .zero heap = .ok p → NoMisuse (afterParse w p)

section Sound
variable {request : Bytes} (h : Fits request) (w : World) (blocks : Blocks) (heap : Heap Contents)
include h

theorem not_sound_of_blank (hlines : linesOf request = []) : ¬ Sound w blocks heap request := by
  intro hsound
  have hfault := hsound _ (requestToStruct_blank accepts false blocks h heap hlines)
  rw [afterParse_fault rfl] at hfault
  exact not_noMisuse (by decide) hfault

variable {line : Bytes} {ls : List Bytes} (hlines : linesOf request = line :: ls)
include hlines

theorem not_sound_of_version (hversion : seen blocks.version (words line)[2]? ≠ http11) :
    ¬ Sound w blocks heap request := by
  intro hsound
  obtain ⟨heap', hrun, hdangling⟩ := requestToStruct_version accepts false blocks h heap hlines
    (accepts_all _) hversion
  have hfault := hsound _ hrun
  rw [afterParse_fault hdangling] at hfault
  exact not_noMisuse (by decide) hfault

/-- With the right version the request is accepted, if the parser gets that far. -/
theorem sound_of_version (hversion : seen blocks.version (words line)[2]? = http11) :
    Sound w blocks heap request := by
  intro p hrun
  by_cases huri : (words line)[1]? = none ∧ (0 : UInt8) ∉ blocks.uri
  · have hstop := requestToStruct_uri accepts false blocks h heap hlines (accepts_all _) hversion
      huri
    rw [requestToStruct, hstop] at hrun
    cases hrun
  · obtain ⟨p', hrun', -, hstored⟩ := requestToStruct_stored accepts false blocks h heap hlines
      (accepts_all _) hversion huri
    rw [requestToStruct, hrun'] at hrun
    cases hrun
    exact afterParse_noMisuse w rfl rfl rfl hstored

end Sound

/-- **When a request is sound**: it has a line, and the version of that line is HTTP/1.1.  A
line without a version has what the block for it held. -/
theorem sound_iff {request : Bytes} (h : Fits request) (w : World) (blocks : Blocks)
    (heap : Heap Contents) :
    Sound w blocks heap request ↔
      ∃ line ∈ (linesOf request).head?, seen blocks.version (words line)[2]? = http11 := by
  constructor
  · intro hsound
    cases hlines : linesOf request with
    | nil => exact absurd hsound (not_sound_of_blank h w blocks heap hlines)
    | cons line ls =>
        refine ⟨line, rfl, ?_⟩
        by_contra hversion
        exact not_sound_of_version h w blocks heap hlines hversion hsound
  · rintro ⟨line, hline, hversion⟩
    exact sound_of_version h w blocks heap (List.eq_cons_of_mem_head? hline) hversion

/-- `GET / HTTP/1.1`. -/
theorem get_sound : Sound noFiles zeroBlocks .empty (requestWith (ascii "GET / HTTP/1.1")) :=
  (sound_iff (requestWith_spec (.inl rfl)).1 noFiles zeroBlocks .empty).mpr
    ⟨ascii "GET / HTTP/1.1", by rw [(requestWith_spec (.inl rfl)).2]; rfl, by decide⟩

/-- `GET / HTTP/1.0`: the URI is freed and then read. -/
theorem oldVersion_not_sound : ¬ ∀ (w : World) (blocks : Blocks) (heap : Heap Contents)
    (request : Bytes), Fits request → Sound w blocks heap request := by
  intro hall
  obtain ⟨hfits, hlines⟩ := @requestWith_spec (ascii "GET / HTTP/1.0") (.inr (.inr rfl))
  exact not_sound_of_version hfits noFiles zeroBlocks .empty hlines (by decide)
    (hall noFiles zeroBlocks .empty _ hfits)

end InternetLabs.ForkingServer
