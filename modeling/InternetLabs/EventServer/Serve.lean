/-
# `InternetLabs.EventServer.Serve` — batches that are served to the end

The builders overrun no block if the slots have their words and the files are small
enough (`Servable`, kept by an answer).  So the answer to such a batch is defined
whatever the socket does, and can be finished: `Servable.answer_defined`,
`Servable.exists_answer`.

`Request.Safe` is what this takes of a request, and `takeRequests_servable` takes a
batch of safe requests.
-/
import InternetLabs.EventServer.Pages
import InternetLabs.EventServer.Send

namespace InternetLabs.EventServer

open InternetLabs

/-- What `open` answers. -/
abbrev Files := Bytes → Except OpenError File

/-- The number of the size fits the block for it, and the content the buffer. -/
def File.Small (f : File) : Prop :=
  (decimal (intOfSize f.size)).length < 10 ∧ f.content.length < 2 ^ 30

/-- The slot has its words, and a file that is small if it can be opened. -/
def HttpRequest.Safe (files : Files) (slot : HttpRequest) : Prop :=
  ∃ uri path, slot.uri = some uri ∧ filepath uri = some path ∧ slot.version.isSome ∧
    slot.filetype.isSome ∧ ∀ file, files path = .ok file → file.Small

/-- **The invariant.**  The builders have what they need. -/
structure Servable (files : Files) (c : Client) : Prop where
  safe : c.status = .ok → ∀ i < c.numRequests, ∃ slot, c.requests[i]? = some slot ∧ slot.Safe files
  error : c.status ≠ .ok → (errorText c.status).isSome
  curRequest : c.status = .ok → c.curRequest < c.numRequests

/-! ## The builders -/

section Builders
variable {files : Files} {w : World} {c c' : Client}

theorem OpenError.errorText_isSome (e : OpenError) : (errorText e.status).isSome := by
  cases e <;> rfl

theorem buildHeader_defined (hfiles : w.openFile = files) (h : Servable files c) :
    ∃ c', buildHeader w c = some c' := by
  rw [buildHeader]
  split
  swap
  next hne => exact buildErrorHeader_isSome (h.error hne)
  next hok =>
    obtain ⟨slot, hslot, uri, path, huri, hpath, hversion, hfiletype, hsmall⟩ :=
      h.safe hok _ (h.curRequest hok)
    obtain ⟨version, hversion⟩ := Option.isSome_iff_exists.mp hversion
    obtain ⟨filetype, hfiletype⟩ := Option.isSome_iff_exists.mp hfiletype
    simp only [buildOkHeader, hslot, huri, hpath, hversion, hfiletype, hfiles, bind, Option.bind]
    cases hfile : files path with
    | error errno => exact buildErrorHeader_isSome errno.errorText_isSome
    | ok file =>
        simp only [setContentLengthHeader, if_pos (hsmall file hfile).1]
        exact ⟨_, rfl⟩

theorem buildHeader_status (h : buildHeader w c = some c') :
    c'.status = c.status ∨ ∃ errno : OpenError, c'.status = errno.status := by
  unfold buildHeader at h
  split at h
  · obtain ⟨request, uri, path, -, -, -, hopen⟩ := buildOkHeader_page h
    split at hopen
    · exact .inr ⟨_, hopen.1⟩
    · exact .inl hopen.1
  · exact .inl (buildErrorHeader_frame h).2

theorem readLoop_defined {reads : List Bytes} {b : Buffer}
    (h : b.length + (reads.takeWhile (· ≠ [])).flatten.length < 2 ^ 30) :
    ∃ b', readLoop reads b = some b' := by
  induction reads generalizing b with
  | nil => exact ⟨b, rfl⟩
  | cons bytes rest ih =>
      rw [readLoop]
      split
      · exact ⟨b, rfl⟩
      next hne =>
        rw [List.takeWhile_cons_of_pos (by simpa using hne), List.flatten_cons,
          List.length_append] at h
        have happend : ∃ b₁, appendRead bytes b = some b₁ ∧
            b₁.length = b.length + bytes.length := by
          simp only [appendRead]
          split
          · rw [if_pos (by omega)]
            exact ⟨_, rfl, rfl⟩
          · exact ⟨_, rfl, rfl⟩
        obtain ⟨b₁, happend, hlen⟩ := happend
        rw [happend]
        exact ih (by omega)

theorem buildBody_defined (hfiles : w.openFile = files) (h : Servable files c) :
    ∃ c', buildBody w { c with sendBuf := c.sendBuf.clear } = some c' := by
  rw [buildBody]
  split
  swap
  · exact ⟨_, rfl⟩
  next hok =>
    obtain ⟨slot, hslot, uri, path, huri, hpath, -, -, hsmall⟩ :=
      h.safe hok _ (h.curRequest hok)
    simp only [buildOkBody, hslot, huri, hpath, hfiles, bind, Option.bind]
    cases hfile : files path with
    | error errno => exact ⟨_, rfl⟩
    | ok file =>
        obtain ⟨b, hread⟩ := @readLoop_defined file.reads c.sendBuf.clear
          (by rw [Buffer.clear_length, Nat.zero_add]; exact (hsmall file hfile).2)
        simp only [hread]
        exact ⟨_, rfl⟩

end Builders

/-! ## The answer -/

section Answer
variable {files : Files} {c c' : Client}

theorem Servable.frame (h : Servable files c) (hframe : Frame c c')
    (hstatus : c'.status = c.status ∨ ∃ errno : OpenError, c'.status = errno.status) :
    Servable files c' := by
  rcases hstatus with hstatus | ⟨errno, hstatus⟩
  · refine ⟨?_, ?_, ?_⟩
    · rw [hstatus, hframe.requests, hframe.numRequests]
      exact h.safe
    · rw [hstatus]
      exact h.error
    · rw [hstatus, hframe.curRequest, hframe.numRequests]
      exact h.curRequest
  · have hne : c'.status ≠ .ok := by
      rw [hstatus]
      cases errno <;> decide
    refine ⟨fun hok => absurd hok hne, fun _ => ?_, fun hok => absurd hok hne⟩
    rw [hstatus]
    exact errno.errorText_isSome

theorem Servable.kept (files : Files) :
    Kept (fun w => w.openFile = files) fun _ _ c => Servable files c where
  send {log acc c script} h hord := by
    obtain ⟨⟨k, hclient⟩, -⟩ := sendData_spec hord c
    rw [hclient]
    exact ⟨h.safe, h.error, h.curRequest⟩
  body {log acc c w c'} h _ _ _ hbuild := by
    obtain ⟨hframe, hstatus⟩ := buildBody_frame hbuild
    have hcleared : Servable files { c with sendBuf := c.sendBuf.clear } :=
      ⟨h.safe, h.error, h.curRequest⟩
    have h' := hcleared.frame hframe (.inl hstatus)
    exact ⟨h'.safe, h'.error, h'.curRequest⟩
  header {log acc c w c'} h _ _ hnext _ hbuild := by
    have hnextServable : Servable files { c with
        curRequest := c.curRequest + 1, state := .sendingHeaders, sendBuf := c.sendBuf.rewind } :=
      ⟨h.safe, h.error, fun _ => hnext⟩
    exact hnextServable.frame (buildHeader_frame hbuild) (buildHeader_status hbuild)

theorem Servable.builds (files : Files) :
    Builds (fun w => w.openFile = files) fun _ _ c => Servable files c := by
  rintro log acc c w h hw ⟨-, ⟨-, hbody⟩ | ⟨-, hnext, hheader⟩⟩
  · obtain ⟨c', hc'⟩ := buildBody_defined hw h
    rw [hc'] at hbody
    cases hbody
  · obtain ⟨c', hc'⟩ := buildHeader_defined (c := { c with
      curRequest := c.curRequest + 1, state := .sendingHeaders, sendBuf := c.sendBuf.rewind })
      hw ⟨h.safe, h.error, fun _ => hnext⟩
    rw [hc'] at hheader
    cases hheader

theorem Servable.answer_defined (h : Servable files c) {envs : List SendEnv}
    (henvs : ∀ env ∈ envs, env.Ordinary fun w => w.openFile = files) :
    (answer envs c).ending ≠ .undefined :=
  @Builds.answer_defined _ _ (Servable.builds files) (Servable.kept files) [] [] c envs henvs h

/-- **The answer can be finished.** -/
theorem Servable.exists_answer (h : Servable files c) (hstate : c.state = .sendingHeaders)
    {w : World} (hfiles : w.openFile = files) :
    ∃ envs, (∀ env ∈ envs, env.Ordinary fun w => w.openFile = files) ∧
      ∃ back, (answer envs c).ending = .returned 0 back :=
  @Builds.exists_answer _ _ (Servable.builds files) (Servable.kept files) [] [] c w hfiles hstate h

end Answer

/-! ## A batch of safe requests

Requests for which nothing in the server overflows are answered, whatever else the
system does. -/

/-- The request overruns no block of the parser, and the file it names none of the
builders. -/
structure Request.Safe (files : Files) (r : Request) : Prop where
  method : r.method.length < 16
  version : r.version.length < 32
  fits : r.Fits
  small : ∀ path file, filepath r.uri = some path → files path = .ok file → file.Small

section Batch
variable {files : Files} {rs : List Request}

/-- The URI of a request that fits the receive buffer fits the path. -/
theorem Request.filepath_isSome {r : Request} (hsize : r.render.length < bufferMax)
    (hacc : r.Accepted) : ∃ path, filepath r.uri = some path := by
  have hlt := r.render_length_lines _ List.mem_cons_self
  have hline : r.line.length = r.method.length + 1 + r.uri.length + 1 + r.version.length := by
    simp only [line, List.length_append]
    rfl
  have hversion : r.version.length = 8 := by
    rw [hacc.2]
    rfl
  have hshort : (ascii "www").length + r.uri.length < bufferMax := by
    have : (ascii "www").length = 3 := rfl
    omega
  rw [filepath]
  by_cases hroot : r.uri = ascii "/"
  · exact ⟨_, by rw [if_pos hroot, if_pos (by decide)]⟩
  · exact ⟨_, by rw [if_neg hroot, List.length_append, if_pos hshort]⟩

theorem Request.Safe.outcome {r : Request} (h : r.Safe files)
    (hsize : r.render.length < bufferMax) :
    ¬ r.Accepted ∧ r.outcome = .error (.status r.refusal) ∨
      r.Accepted ∧ r.outcome = .ok r.slot ∧ r.slot.Safe files := by
  by_cases hacc : r.Accepted
  · refine .inr ⟨hacc, by rw [Request.outcome_eq hsize hacc, if_pos h.fits], ?_⟩
    obtain ⟨path, hpath⟩ := Request.filepath_isSome hsize hacc
    exact ⟨r.uri, path, rfl, hpath, rfl, rfl, fun file => h.small path file hpath⟩
  · refine .inl ⟨hacc, ?_⟩
    have huri : r.uri.length < bufferMax := by
      have := r.render_length_lines _ List.mem_cons_self
      have hle : r.uri.length ≤ r.line.length := by
        simp only [Request.line, List.length_append]
        omega
      omega
    have hmethod := h.method
    have hversion := h.version
    rw [Request.outcome, if_neg (by omega), if_pos hacc]

theorem parseBatch_safe (h : ∀ r ∈ rs, r.Safe files) (hsize : (renderAll rs).length < bufferMax) :
    ∃ status slots, parseBatch rs = some (status, slots) ∧
      (∀ slot ∈ slots, slot.Safe files) ∧
      (status = .ok ∧ slots.length = rs.length ∨ ∃ r : Request, status = r.refusal) := by
  induction rs with
  | nil => exact ⟨.ok, [], rfl, nofun, .inl ⟨rfl, rfl⟩⟩
  | cons r rs ih =>
      rw [renderAll_cons, List.length_append] at hsize
      rcases (h r List.mem_cons_self).outcome (by omega) with ⟨-, ho⟩ | ⟨-, ho, hslot⟩
      · exact ⟨r.refusal, [], by rw [parseBatch, ho], nofun, .inr ⟨r, rfl⟩⟩
      · obtain ⟨status, slots, hparse, hslots, hend⟩ :=
          ih (fun r hr => h r (List.mem_cons_of_mem _ hr)) (by omega)
        refine ⟨status, r.slot :: slots, by rw [parseBatch, ho, hparse]; rfl, ?_, ?_⟩
        · exact List.forall_mem_cons.mpr ⟨hslot, hslots⟩
        · rw [List.length_cons, List.length_cons, Nat.add_right_cancel_iff]
          exact hend

theorem Request.refusal_ne_ok (r : Request) : r.refusal ≠ .ok := by
  rw [refusal]
  split <;> decide

theorem Request.errorText_refusal (r : Request) : (errorText r.refusal).isSome := by
  rw [refusal]
  split <;> rfl

/-- **A batch of safe requests is taken.** -/
theorem takeRequests_servable (hpos : rs ≠ []) (hlen : rs.length ≤ maxRequests)
    (hsafe : ∀ r ∈ rs, r.Safe files) (hsize : (renderAll rs).length < bufferMax) {z : Bytes}
    (hz : strstr crlfcrlf z = none) {c : Client} (hdata : c.recvBuf.data = renderAll rs ++ z)
    (hreq : c.requests = List.replicate maxRequests .zero) (hnum : c.numRequests = 0)
    (hcur : c.curRequest = 0) (heap : Nat → Blocks) {w : World} (hfiles : w.openFile = files) :
    ∃ taken, takeRequests heap w c = some taken ∧ taken.state = .sendingHeaders ∧
      Servable files taken := by
  obtain ⟨status, slots, hslots, hsafeSlots, hend⟩ := parseBatch_safe hsafe hsize
  have hbatch := requestToStruct_batch heap hz hlen hdata hreq hnum
  rw [hslots] at hbatch
  obtain ⟨⟨status', c₂⟩, hparse, heq⟩ := Option.map_eq_some_iff.mp hbatch
  simp only [Prod.mk.injEq] at heq
  obtain ⟨rfl, hrequests, hnum₂⟩ := heq
  obtain ⟨hcur₂, -, -⟩ := requestToStruct_spec hparse
  have hservable : Servable files { c₂ with status := status', sendBuf := c₂.sendBuf.clear } := by
    refine ⟨fun _ i hi => ?_, fun hne => ?_, fun hok => ?_⟩
    · simp only [hnum₂] at hi
      refine ⟨slots[i], ?_, hsafeSlots _ (List.getElem_mem hi)⟩
      simp only [hrequests, requestArray]
      rw [List.getElem?_append_left hi, List.getElem?_eq_getElem hi]
    · rcases hend with ⟨hok, -⟩ | ⟨r, rfl⟩
      · exact absurd hok hne
      · exact r.errorText_refusal
    · rcases hend with ⟨-, hall⟩ | ⟨r, hrefusal⟩
      · simp only [hnum₂, hcur₂, hcur, hall]
        exact List.length_pos_iff.mpr hpos
      · exact absurd (hrefusal ▸ hok) r.refusal_ne_ok
  obtain ⟨c₃, hbuild⟩ := buildHeader_defined hfiles hservable
  have hframe := buildHeader_frame hbuild
  have hstatus := buildHeader_status hbuild
  refine ⟨{ c₃ with state := .sendingHeaders }, ?_, rfl, ?_⟩
  · simp only [takeRequests, hparse, hbuild, bind, Option.bind]
  · have h₃ := hservable.frame hframe hstatus
    exact ⟨h₃.safe, h₃.error, h₃.curRequest⟩

end Batch

end InternetLabs.EventServer
