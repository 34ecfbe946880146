/-
# `InternetLabs.HttpServer.Confinement` — which files a URI can reach

The servers open the path `www` with the URI behind it, as it was sent: no component is
looked at, and nothing stands between the two.  A response is confined if it depends on
no file outside `www`.  As a server opens one path only, that is so exactly if the path
leads below `www` (`dependsOn_iff_mem`).

A URI that begins with a slash walks from `www`; any other begins in a sibling whose name
begins with `www`.  Either way the path ends below `www` only if the walk never leaves it, or
comes back through its name (`Path.below_iff`): `LeadsBelow`.
-/
import Mathlib.Logic.Function.DependsOn
import InternetLabs.Lib.Path
import InternetLabs.EventServer.Pages
import InternetLabs.EventServer.Send
import InternetLabs.EventServer.Wire
import InternetLabs.ThreadedServer.Respond
import InternetLabs.HttpServer.Classify

namespace InternetLabs.HttpServer

open InternetLabs.Path
open InternetLabs.EventServer (methods OpenError)

/-! ## Paths

The path that is opened is `www` with the URI behind it, as it stands. -/

/-- The paths below `www`. -/
def belowRoot : Set Bytes := {path | (resolve (comps path)).Below serverRootDir}

def fromSlash (uri : Bytes) : Bytes := uri.dropWhile (· ≠ 47)

/-- The URI leads below `www`: its components stay there, or return, and there are more names
than `..` among them.  Only a URI that begins with a slash begins there. -/
def LeadsBelow (uri : Bytes) : Prop :=
  uri = ascii "/" ∨
    (uri.head? = some 47 ∧ Stays (comps (fromSlash uri)) ∨
      Returns serverRootDir (comps (fromSlash uri))) ∧
    0 < depth (comps (fromSlash uri))

/-- What comes before the first slash of a URI belongs to the first component. -/
theorem comps_serverRootDir (uri : Bytes) :
    comps (serverRootDir ++ uri)
      = .name (serverRootDir ++ uri.takeWhile (· ≠ 47)) :: comps (fromSlash uri) := by
  have hname : comps (serverRootDir ++ uri.takeWhile (· ≠ 47))
      = [.name (serverRootDir ++ uri.takeWhile (· ≠ 47))] := by
    refine comps_name (by simp [serverRootDir, ascii]) ?_ (by simp [serverRootDir, ascii])
      (by simp [serverRootDir, ascii])
    intro hmem
    rcases List.mem_append.mp hmem with hmem | hmem
    · exact absurd hmem (by decide)
    · simpa using List.mem_takeWhile_imp hmem
  have hsplit : uri = uri.takeWhile (· ≠ 47) ++ fromSlash uri :=
    List.takeWhile_append_dropWhile.symm
  cases htail : fromSlash uri with
  | nil =>
      rw [htail, List.append_nil] at hsplit
      rw [← hsplit] at hname ⊢
      exact hname
  | cons b rest =>
      have hslash : b = 47 := by
        have hhead := List.head?_dropWhile_not (fun b : UInt8 => decide (b ≠ 47)) uri
        rw [show uri.dropWhile (fun b => decide (b ≠ 47)) = b :: rest from htail] at hhead
        simpa using hhead
      subst hslash
      rw [htail] at hsplit
      have hpath : serverRootDir ++ uri = (serverRootDir ++ uri.takeWhile (· ≠ 47))
          ++ 47 :: rest := by
        rw [List.append_assoc, ← hsplit]
      rw [hpath, comps_append_slash, hname, comps_slash]
      rfl

/-- **Where a URI leads.** -/
theorem mem_belowRoot_iff {uri : Bytes} (hne : uri ≠ []) :
    serverRootDir ++ uri ∈ belowRoot ↔
      (uri.head? = some 47 ∧ Stays (comps (fromSlash uri)) ∨
        Returns serverRootDir (comps (fromSlash uri))) ∧
      0 < depth (comps (fromSlash uri)) := by
  have hwalk : resolve (comps (serverRootDir ++ uri))
      = Path.walk ⟨0, [serverRootDir ++ uri.takeWhile (· ≠ 47)]⟩ (comps (fromSlash uri)) := by
    rw [comps_serverRootDir]
    rfl
  have hroot : serverRootDir ++ uri.takeWhile (· ≠ 47) = serverRootDir ↔ uri.head? = some 47 := by
    rw [List.append_right_eq_self]
    cases uri with
    | nil => exact absurd rfl hne
    | cons b rest =>
        rw [List.takeWhile_cons]
        by_cases hb : b = 47
        · simp [hb]
        · simp [hb]
  change (resolve (comps (serverRootDir ++ uri))).Below serverRootDir ↔ _
  rw [hwalk, below_iff, hroot]

theorem path_mem_iff {uri : Bytes} (hne : uri ≠ []) :
    serverRootDir ++ (if uri = ascii "/" then ascii "/index.html" else uri) ∈ belowRoot ↔
      LeadsBelow uri := by
  by_cases hindex : uri = ascii "/"
  · rw [if_pos hindex, mem_belowRoot_iff (by decide)]
    exact iff_of_true ⟨.inl ⟨rfl, by unfold Stays; decide⟩, by decide⟩ (.inl hindex)
  · rw [if_neg hindex, mem_belowRoot_iff hne]
    exact ⟨.inr, fun h => h.resolve_left hindex⟩

section Asks
variable {β γ : Type} {f : (Bytes → β) → γ} {path : Bytes} (hf : ∀ o, f o = f fun _ => o path)
include hf

/-- A function that asks about one path depends on what is in `S` if the path is. -/
theorem dependsOn_of_mem {S : Set Bytes} (hin : path ∈ S) : DependsOn f S := by
  intro o o' hagree
  rw [hf o, hf o', hagree path hin]

/-- **And only then**, if the answer matters. -/
theorem dependsOn_iff_mem {b b' : β} (hne : f (fun _ => b) ≠ f fun _ => b') {S : Set Bytes} :
    DependsOn f S ↔ path ∈ S := by
  refine ⟨fun hdep => ?_, dependsOn_of_mem hf⟩
  by_contra hout
  -- two systems that differ in this path only
  have hsame := @hdep (fun _ => b) (Function.update (fun _ => b) path b') fun q hq => by
    have hq' : q ≠ path := fun heq => hout (heq ▸ hq)
    rw [Function.update_of_ne hq']
  rw [hf (Function.update _ _ _), Function.update_self] at hsame
  exact hne hsame

end Asks

/-- A line with a known method leaves room for what goes before its URI. -/
theorem length_uri_add_le {line method uri : Bytes} {more : List Bytes}
    (hwords : words line = method :: uri :: more) (hmethod : method ∈ methods) :
    uri.length + 4 ≤ line.length := by
  have hsum := @sum_length_strtokAll_le _ isSpace line
  rw [show strtokAll isSpace line = method :: uri :: more from hwords] at hsum
  simp only [List.map_cons, List.sum_cons] at hsum
  have hthree : ∀ m ∈ methods, 3 ≤ m.length := by decide
  have := hthree method hmethod
  omega

theorem uri_ne_nil {line method uri : Bytes} {more : List Bytes}
    (hwords : words line = method :: uri :: more) : uri ≠ [] := by
  have hmem : uri ∈ strtokAll isSpace line := by
    rw [show strtokAll isSpace line = method :: uri :: more from hwords]
    exact List.mem_cons_of_mem _ List.mem_cons_self
  simpa using (List.mem_filter.mp hmem).2

end InternetLabs.HttpServer

/-! ## The event server -/

namespace InternetLabs.EventServer

open InternetLabs.HttpServer (belowRoot LeadsBelow dependsOn_of_mem dependsOn_iff_mem)

/-- Neither the header nor the body built for the request depends on a file that is not
below `www`. -/
def Confined (slot : HttpRequest) : Prop :=
  ∀ (w : World) (c : Client), c.requests[c.curRequest]? = some slot →
    DependsOn (fun openFile => buildOkHeader { w with openFile := openFile } c) belowRoot ∧
      DependsOn (fun openFile => buildOkBody { w with openFile := openFile } c) belowRoot

/-- The parser has put a request in the slot whose URI is `uri`: the second word of its first
line. -/
def Accepts (uri : Bytes) (slot : HttpRequest) : Prop :=
  ∃ (heap : Nat → Blocks) (c c' : Client) (status : Status) (i : Nat) (seg line method : Bytes)
    (ls more : List Bytes), c.requests = List.replicate maxRequests .zero ∧ c.numRequests = 0 ∧
      c.recvBuf.data.length = bufferMax ∧ requestToStruct heap c = some (status, c') ∧
      i < c'.numRequests ∧ c'.requests[i]? = some slot ∧
      (segments c.recvBuf.data)[i]? = some seg ∧ linesOf seg = line :: ls ∧
      words line = method :: uri :: more

theorem parseSegments_slot {heap : Nat → Blocks} {segs : List Bytes} {k : Nat} {status : Status}
    {slots : List HttpRequest} (h : parseSegments heap k segs = some (status, slots)) {i : Nat}
    {slot : HttpRequest} (hslot : slots[i]? = some slot) {seg : Bytes}
    (hseg : segs[i]? = some seg) :
    ∃ j, parseSegment (heap j) j .zero seg = .ok slot := by
  induction segs generalizing k i slots with
  | nil => cases hseg
  | cons s segs ih =>
      rw [parseSegments] at h
      split at h
      next httpr hparse =>
        split at h
        · obtain ⟨⟨status', slots'⟩, hrest, heq⟩ := Option.map_eq_some_iff.mp h
          cases heq
          cases i with
          | zero =>
              cases hslot
              cases hseg
              exact ⟨k, hparse⟩
          | succ i => exact ih hrest hslot hseg
        · cases h
      next => cases h; cases hslot
      next => cases h

section Slot
variable {slot : HttpRequest} {uri path : Bytes}

/-- What was accepted has the URI of its line, and the path that is opened for it fits. -/
theorem Accepts.spec (h : Accepts uri slot) : uri ≠ [] ∧ slot.uri = some uri ∧
    filepath uri = some (ascii "www" ++ if uri = ascii "/" then ascii "/index.html" else uri) := by
  obtain ⟨heap, c, c', status, i, seg, line, method, ls, more, hreq, hnum, hdata, hrun, hi, hslot,
    hseg, hlines, hwords⟩ := h
  obtain ⟨slots, hslots, hrequests, hnum'⟩ := requestToStruct_slots hreq hnum hrun
  rw [hnum'] at hi
  rw [hrequests, requestArray_getElem? hi] at hslot
  obtain ⟨j, hparse⟩ := parseSegments_slot hslots hslot hseg
  obtain ⟨hnul, hlen⟩ := of_mem_segments (List.mem_of_getElem? hseg)
  rw [hdata] at hlen
  have hline : line ∈ linesOf seg := hlines ▸ List.mem_cons_self
  have hlinelen : line.length ≤ seg.length :=
    (sublist_of_mem_strtokAll isCrlf seg line hline).length_le
  rw [parseSegment_eq_seen hnul hlen hlines, hwords] at hparse
  by_cases hfit : WordsFit line
  swap
  · rw [if_pos hfit] at hparse
    cases hparse
  rw [if_neg (not_not.mpr hfit)] at hparse
  by_cases hmethod : seen (heap j).method (method :: uri :: more)[0]? ∉ methods
  · rw [if_pos hmethod] at hparse
    cases hparse
  rw [if_neg hmethod] at hparse
  have hroom := HttpServer.length_uri_add_le hwords (not_not.mp hmethod)
  have huri : slot.uri = some uri := by
    repeat' split at hparse
    all_goals cases hparse
    rw [seenSlot, hwords]
    rfl
  refine ⟨HttpServer.uri_ne_nil hwords, huri, if_pos ?_⟩
  have hwww : (ascii "www").length = 3 := by decide
  have hindex : (ascii "/index.html").length = 11 := by decide
  have hmax : bufferMax = 2048 := rfl
  rw [List.length_append, hwww]
  split <;> omega

theorem buildOkHeader_asks {c : Client} (hslot : c.requests[c.curRequest]? = some slot)
    (huri : slot.uri = some uri) (hpath : filepath uri = some path) (w : World)
    (o : Bytes → Except OpenError File) :
    buildOkHeader { w with openFile := o } c
      = buildOkHeader { w with openFile := fun _ => o path } c := by
  simp only [buildOkHeader, hslot, huri, hpath, bind, Option.bind_some]
  cases o path with
  | error errno => rfl
  | ok file => rfl

theorem buildOkBody_asks {c : Client} (hslot : c.requests[c.curRequest]? = some slot)
    (huri : slot.uri = some uri) (hpath : filepath uri = some path) (w : World)
    (o : Bytes → Except OpenError File) :
    buildOkBody { w with openFile := o } c
      = buildOkBody { w with openFile := fun _ => o path } c := by
  simp only [buildOkBody, hslot, huri, hpath, bind, Option.bind_some]

theorem buildOkHeader_error {c : Client} (hslot : c.requests[c.curRequest]? = some slot)
    (huri : slot.uri = some uri) (hpath : filepath uri = some path) (w : World)
    (errno : OpenError) :
    ∃ c', buildOkHeader { w with openFile := fun _ => .error errno } c = some c' ∧
      c'.status = errno.status := by
  have hbuild : buildOkHeader { w with openFile := fun _ => .error errno } c
      = buildErrorHeader { w with openFile := fun _ => .error errno }
          { c with status := errno.status } := by
    simp only [buildOkHeader, hslot, huri, hpath, bind, Option.bind_some]
  obtain ⟨c', hc'⟩ := @buildErrorHeader_isSome
    { w with openFile := fun _ => .error errno } { c with status := errno.status }
    (by cases errno <;> rfl)
  exact ⟨c', hbuild.trans hc', (buildErrorHeader_frame hc').2⟩

/-- **The event server is confined exactly if the URI leads below `www`.** -/
theorem Accepts.confined_iff (h : Accepts uri slot) : Confined slot ↔ LeadsBelow uri := by
  obtain ⟨hne, huri, hpath⟩ := h.spec
  rw [← HttpServer.path_mem_iff hne]
  constructor
  · intro hconf
    obtain ⟨hheader, -⟩ := hconf pageWorld { newClient 0 with requests := [slot] } rfl
    refine (@dependsOn_iff_mem _ _ _ _ (buildOkHeader_asks rfl huri hpath pageWorld)
      (.error .enoent) (.error .eacces) ?_ _).mp hheader
    intro heq
    obtain ⟨c₁, hc₁, hstatus₁⟩ := @buildOkHeader_error slot uri _
      { newClient 0 with requests := [slot] } rfl huri hpath pageWorld .enoent
    obtain ⟨c₂, hc₂, hstatus₂⟩ := @buildOkHeader_error slot uri _
      { newClient 0 with requests := [slot] } rfl huri hpath pageWorld .eacces
    have hsame := hc₁.symm.trans (heq.trans hc₂)
    cases hsame
    rw [hstatus₁] at hstatus₂
    cases hstatus₂
  · intro hin w c hslot
    exact ⟨dependsOn_of_mem (buildOkHeader_asks hslot huri hpath w) hin,
      dependsOn_of_mem (buildOkBody_asks hslot huri hpath w) hin⟩

end Slot

theorem accepts_getRequest {uri : Bytes} (huri : IsWord uri)
    (hlen : (getRequest uri huri).render.length < bufferMax) :
    Accepts uri (getRequest uri huri).slot := by
  obtain ⟨r, hr⟩ : ∃ r, r = getRequest uri huri := ⟨_, rfl⟩
  rw [← hr] at hlen ⊢
  have hz : ∀ n, strstr crlfcrlf (List.replicate n 0) = none := fun n => by cases n <;> rfl
  have hsize : (renderAll [r]).length < bufferMax := by
    rwa [renderAll, List.map_singleton, List.flatten_singleton]
  have hbatch := requestToStruct_batch (fun _ => zeroBlocks) (hz _)
    (show [r].length ≤ maxRequests from (by decide : 1 ≤ maxRequests))
    (show (holding (renderAll [r])).recvBuf.data = renderAll [r] ++ _ from rfl) rfl rfl
  have hfits : ∀ q ∈ [r], q.render.length < bufferMax ∧ q.Accepted ∧ q.Fits := by
    intro q hq
    obtain rfl := List.mem_singleton.mp hq
    refine ⟨hlen, ?_, ?_⟩
    · rw [hr]
      exact ⟨List.mem_cons_self, rfl⟩
    · rw [hr]
      exact ⟨fun h hmem => (List.not_mem_nil hmem).elim, Nat.zero_le _⟩
  rw [parseBatch_eq_slots hfits] at hbatch
  obtain ⟨⟨status, c'⟩, hrun, heq⟩ := Option.map_eq_some_iff.mp hbatch
  simp only [Prod.mk.injEq] at heq
  obtain ⟨-, hrequests, hnum⟩ := heq
  refine ⟨fun _ => zeroBlocks, holding (renderAll [r]), c', status, 0, segment r.lines, r.line,
    r.method, [], [r.version], rfl, rfl, ?_, hrun, ?_, ?_, ?_, ?_, ?_⟩
  · rw [show (holding (renderAll [r])).recvBuf.data = renderAll [r] ++ _ from rfl,
      List.length_append, List.length_replicate]
    omega
  · rw [hnum]
    exact Nat.zero_lt_one
  · rw [hrequests]
    rfl
  · rw [show (holding (renderAll [r])).recvBuf.data = renderAll [r] ++ _ from rfl,
      segments_renderAll [r] (hz _)]
    rfl
  · rw [linesOf, strtokAll_segment r.isLine, hr]
    rfl
  · rw [r.words_line, hr]
    rfl

end InternetLabs.EventServer

/-! ## The threaded server -/

namespace InternetLabs.ThreadedServer

open InternetLabs.HttpServer (Parsed Blocks Contents HttpRequest Fits World
    Reads belowRoot LeadsBelow dependsOn_of_mem dependsOn_iff_mem noFiles filepath)
open InternetLabs.EventServer (OpenError)

/-- The response does not depend on a file that is not below `www`. -/
def Confined (p : Parsed) : Prop :=
  ∀ w : World, DependsOn (fun openFile =>
    sendResponse { w with openFile := openFile } p.httpr p.heap) belowRoot

/-- The parser has accepted a request whose URI is `uri`: the second word of its first line. -/
def Accepts (uri : Bytes) (p : Parsed) : Prop :=
  ∃ (blocks : Blocks) (request : Bytes) (heap : Heap Contents) (line method : Bytes)
    (ls more : List Bytes), Fits request ∧ requestToStruct blocks request .zero heap = .ok p ∧
      p.status = .ok ∧ HttpServer.linesOf request = line :: ls ∧ words line = method :: uri :: more

section Parsed
variable {p : Parsed} {uri path : Bytes}

/-- What was accepted has the URI of its line, and the path that is opened for it fits. -/
theorem Accepts.spec (h : Accepts uri p) : uri ≠ [] ∧ Reads p.heap p.httpr.uri (some uri) ∧
    filepath uri = .ok (HttpServer.serverRootDir ++
      if uri = ascii "/" then ascii "/index.html" else uri) := by
  obtain ⟨blocks, request, heap, line, method, ls, more, hfits, hrun, hok, hlines, hwords⟩ := h
  rw [requestToStruct] at hrun
  have hline : line ∈ HttpServer.linesOf request := hlines ▸ List.mem_cons_self
  have hseen : EventServer.seen blocks.method (words line)[0]? = method := by rw [hwords]; rfl
  cases hmethod : accepts (EventServer.seen blocks.method (words line)[0]?) with
  | false =>
      obtain ⟨heap', hrefused⟩ := HttpServer.requestToStruct_method accepts true blocks hfits heap
        hlines hmethod
      rw [hrefused] at hrun
      cases hrun
      cases hok
  | true =>
      by_cases hversion : EventServer.seen blocks.version (words line)[2]? = EventServer.http11
      swap
      · obtain ⟨heap', hrefused, -⟩ := HttpServer.requestToStruct_version accepts true blocks hfits
          heap hlines hmethod hversion
        rw [hrefused] at hrun
        cases hrun
        cases hok
      obtain ⟨p', hrun', -, hstored⟩ := HttpServer.requestToStruct_stored accepts true blocks hfits
        heap hlines hmethod hversion (by rw [hwords]; rintro ⟨hnone, -⟩; cases hnone)
      rw [hrun'] at hrun
      cases hrun
      obtain ⟨entries, i, -, -, hshows⟩ := hstored.shows
      have huri := hshows.uri
      rw [HttpServer.fieldsOf, hwords] at huri
      rw [hseen] at hmethod
      have hroom := HttpServer.length_uri_add_le hwords
        ((HttpServer.threaded_accepts_iff method).mp hmethod)
      have hlen := (hfits.of_mem line hline).2
      refine ⟨HttpServer.uri_ne_nil hwords, huri, if_pos ?_⟩
      have hwww : HttpServer.serverRootDir.length = 3 := by decide
      have hindex : (ascii "/index.html").length = 11 := by decide
      have hmax : HttpServer.bufferMax = 1024 := rfl
      rw [List.length_append, hwww]
      split <;> omega

theorem sendResponse_asks (huri : Reads p.heap p.httpr.uri (some uri))
    (hpath : filepath uri = .ok path) (w : World) (o : Bytes → Except OpenError HttpServer.File) :
    sendResponse { w with openFile := o } p.httpr p.heap
      = sendResponse { w with openFile := fun _ => o path } p.httpr p.heap := by
  simp only [sendResponse, huri.field, hpath, bind, Except.bind]
  cases o path with
  | error errno => rfl
  | ok file => rfl

/-- **The threaded server is confined exactly if the URI leads below `www`.** -/
theorem Accepts.confined_iff (h : Accepts uri p) : Confined p ↔ LeadsBelow uri := by
  obtain ⟨hne, huri, hpath⟩ := h.spec
  rw [← HttpServer.path_mem_iff hne]
  constructor
  · intro hconf
    refine (@dependsOn_iff_mem _ _ _ _ (sendResponse_asks huri hpath noFiles)
      (.error .enoent) (.error .eacces) ?_ _).mp (hconf noFiles)
    simp only [sendResponse, huri.field, hpath, bind, Except.bind]
    decide +kernel
  · intro hin w
    exact dependsOn_of_mem (sendResponse_asks huri hpath w) hin

end Parsed

end InternetLabs.ThreadedServer

namespace InternetLabs.HttpServer

/-! ## Both servers

The two build the path in the same way. -/

/-- **Which URIs are confined.** -/
theorem uri_confined_iff (uri : Bytes) :
    (∀ slot, EventServer.Accepts uri slot → (EventServer.Confined slot ↔ LeadsBelow uri)) ∧
      ∀ p, ThreadedServer.Accepts uri p → (ThreadedServer.Confined p ↔ LeadsBelow uri) :=
  ⟨fun _ h => h.confined_iff, fun _ h => h.confined_iff⟩

theorem exists_accepts {uri : Bytes}
    (huri : uri = ascii "/a/../b" ∨ uri = ascii "/../http_server.c") :
    ∃ p, ThreadedServer.Accepts uri p := by
  obtain ⟨line, hline⟩ : ∃ line, line = ascii "GET " ++ uri ++ ascii " HTTP/1.1" := ⟨_, rfl⟩
  have hspec : Fits (inArray (line ++ [13, 10, 13, 10])) ∧
      linesOf (inArray (line ++ [13, 10, 13, 10])) = [line] ∧
      words line = [ascii "GET", uri, EventServer.http11] := by
    rw [hline]
    rcases huri with rfl | rfl
    all_goals exact ⟨fits_inArray (by decide) (by decide) (by decide) (by decide),
      (linesOf_inArray (by decide)).trans (by decide), by decide⟩
  obtain ⟨hfits, hlines, hwords⟩ := hspec
  obtain ⟨p, hrun, hok, -⟩ := requestToStruct_stored ThreadedServer.accepts true zeroBlocks hfits
    .empty hlines (by rw [hwords]; exact (by decide : ThreadedServer.accepts (ascii "GET") = true))
    (by rw [hwords]; rfl)
    (by rw [hwords]; rintro ⟨hnone, -⟩; cases hnone)
  exact ⟨p, zeroBlocks, _, .empty, line, ascii "GET", [], [EventServer.http11], hfits, hrun, hok,
    hlines, hwords⟩

/-- `GET /a/../b HTTP/1.1`: the URI leaves `a`, not `www`. -/
theorem dotted_confined :
    (∃ slot, EventServer.Accepts (ascii "/a/../b") slot ∧ EventServer.Confined slot) ∧
      ∃ p, ThreadedServer.Accepts (ascii "/a/../b") p ∧ ThreadedServer.Confined p := by
  obtain ⟨hevent, hthreaded⟩ := uri_confined_iff (ascii "/a/../b")
  have hstays : Path.Stays (Path.comps (fromSlash (ascii "/a/../b"))) :=
    show 0 ≤ Path.lowest (Path.comps (fromSlash (ascii "/a/../b"))) by decide
  have hbelow : LeadsBelow (ascii "/a/../b") := .inr ⟨.inl ⟨by decide, hstays⟩, by decide⟩
  have hslot := @EventServer.accepts_getRequest (ascii "/a/../b") (by decide) (by decide)
  obtain ⟨p, hp⟩ := @exists_accepts (ascii "/a/../b") (.inl rfl)
  exact ⟨⟨_, hslot, (hevent _ hslot).mpr hbelow⟩, p, hp, (hthreaded p hp).mpr hbelow⟩

/-- `GET /../http_server.c HTTP/1.1`: both servers send their source. -/
theorem source_not_confined :
    (∃ slot, EventServer.Accepts (ascii "/../http_server.c") slot ∧ ¬ EventServer.Confined slot) ∧
      ∃ p, ThreadedServer.Accepts (ascii "/../http_server.c") p ∧ ¬ ThreadedServer.Confined p := by
  have hout : ¬ LeadsBelow (ascii "/../http_server.c") := by
    rintro (hindex | ⟨-, hdepth⟩)
    · exact absurd hindex (by decide)
    · exact absurd hdepth (by decide)
  have hslot := @EventServer.accepts_getRequest (ascii "/../http_server.c") (by decide) (by decide)
  obtain ⟨p, hp⟩ := @exists_accepts (ascii "/../http_server.c") (.inr rfl)
  exact ⟨⟨_, hslot, fun h => hout (hslot.confined_iff.mp h)⟩, p, hp,
    fun h => hout (hp.confined_iff.mp h)⟩

end InternetLabs.HttpServer
