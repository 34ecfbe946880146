/-
# `InternetLabs.EventServer.Length` — the length announced and the body that follows

`build_ok_header` takes the length from `fstat`, narrowed to an `int` and printed into
ten bytes; `build_ok_body` reads until there is nothing more, or a read fails.  So two
numbers that have to agree come from two places, and do if the size as an `int` is
the length of the content, the content is short enough, and all of it is read
(`announced_iff`).
-/
import InternetLabs.Lib.Scan
import InternetLabs.EventServer.Edge
import InternetLabs.EventServer.Lifecycle
import InternetLabs.EventServer.Chunks

namespace InternetLabs.EventServer

open InternetLabs

/-! ## The file and its request

The size that `fstat` reports and the content that is read later are two answers of the
system; they agree if the file does not change. -/

/-- What `read` hands over of the content, up to the read that returns 0 or fails: all of
it, unless one fails. -/
structure Script (content : Bytes) (reads : List Bytes) : Prop where
  pieces : ∀ bytes ∈ reads, bytes ≠ []
  delivered : reads.flatten <+: content

/-- The client's request is for the file. -/
def Requests (w : World) (c : Client) (version filetype : Bytes) (file : File) : Prop :=
  ∃ slot uri path, c.requests[c.curRequest]? = some slot ∧ slot.uri = some uri ∧
    slot.version = some version ∧ slot.filetype = some filetype ∧ filepath uri = some path ∧
    w.openFile path = .ok file

/-- The header announces the body that follows it, which is the content, and the buffer
has room for it after every read. -/
def Announced (w w' : World) (c : Client) (version filetype : Bytes) (file : File)
    (content : Bytes) : Prop :=
  ∃ c₁ c₂, buildOkHeader w c = some c₁ ∧
    buildOkBody w' { c₁ with sendBuf := c₁.sendBuf.clear } = some c₂ ∧
    c₁.sendBuf.contents
      = ({ okPage version filetype file with contentLength := c₂.sendBuf.length } : Page).head
          (w.date w.now) (w.date file.ctime) ∧
    c₂.sendBuf.contents = content ∧
    ∀ k, ∃ b, readLoop (file.reads.take k) c₁.sendBuf.clear = some b ∧ b.length ≤ b.maxLength

/-! ## The header -/

section Header
variable {w : World} {c : Client} {version filetype : Bytes} {file : File}

theorem buildOkHeader_iff (h : Requests w c version filetype file) :
    (∃ c₁, buildOkHeader w c = some c₁) ↔ (decimal (intOfSize file.size)).length < 10 := by
  obtain ⟨slot, uri, path, hslot, huri, hversion, hfiletype, hpath, hopen⟩ := h
  simp only [buildOkHeader, hslot, huri, hpath, hopen, hversion, hfiletype, setContentLengthHeader,
    bind, Option.bind]
  by_cases hshort : (decimal (intOfSize file.size)).length < 10
  · simp only [if_pos hshort]
    exact iff_of_true ⟨_, rfl⟩ hshort
  · simp only [if_neg hshort]
    exact iff_of_false (by rintro ⟨c₁, ⟨⟩⟩) hshort

theorem buildOkHeader_announces (h : Requests w c version filetype file) {c₁ : Client}
    (hbuild : buildOkHeader w c = some c₁) :
    c₁.sendBuf.contents = (okPage version filetype file).head (w.date w.now)
    (w.date file.ctime) := by
  obtain ⟨slot, uri, path, hslot, huri, hversion, hfiletype, hpath, hopen⟩ := h
  obtain ⟨slot', uri', path', hslot', huri', hpath', hpage⟩ := buildOkHeader_page hbuild
  obtain rfl := Option.some.inj (hslot.symm.trans hslot')
  obtain rfl := Option.some.inj (huri.symm.trans huri')
  obtain rfl := Option.some.inj (hpath.symm.trans hpath')
  rw [hopen] at hpage
  obtain ⟨-, version', filetype', hversion', hfiletype', hcontents⟩ := hpage
  obtain rfl := Option.some.inj (hversion.symm.trans hversion')
  obtain rfl := Option.some.inj (hfiletype.symm.trans hfiletype')
  exact hcontents

theorem Page.head_contentLength_inj (p : Page) {n : Int} {date modified : Bytes}
    (h : p.head date modified = ({ p with contentLength := n } : Page).head date modified) :
    p.contentLength = n := by
  rw [Page.head, Page.head] at h
  have h := List.append_cancel_right h
  have h := List.append_cancel_right h
  have h := List.append_cancel_left h
  have h := List.append_cancel_right h
  exact decimal_injective (List.append_cancel_left h)

end Header

/-! ## The body -/

section Body
variable {content : Bytes} {reads : List Bytes}

theorem Script.takeWhile (h : Script content reads) : reads.takeWhile (· ≠ []) = reads := by
  rw [List.takeWhile_eq_self_iff]
  exact fun bytes hbytes => decide_eq_true (h.pieces bytes hbytes)

/-- The first reads are a script too. -/
theorem Script.take (h : Script content reads) (k : Nat) : Script content (reads.take k) := by
  refine ⟨fun bytes hbytes => h.pieces bytes (List.mem_of_mem_take hbytes), ?_⟩
  have hsplit : reads.flatten = (reads.take k).flatten ++ (reads.drop k).flatten := by
    rw [← List.flatten_append, List.take_append_drop]
  exact (hsplit ▸ List.prefix_append _ _).trans h.delivered

/-- Content that is announced in ten bytes is read without overflow. -/
theorem Script.readLoop (h : Script content reads) (hshort : content.length ≤ 999999999)
    (b : Buffer) : ∃ b', EventServer.readLoop reads b.clear = some b' ∧
      b'.contents = reads.flatten ∧ b'.length = reads.flatten.length ∧
      b'.length ≤ b'.maxLength := by
  have hlen := h.delivered.length_le
  obtain ⟨b', hb'⟩ := @readLoop_defined reads b.clear
    (by rw [h.takeWhile, Buffer.clear_length]; omega)
  have hcontents := readLoop_contents (Nat.zero_le _) hb'
  have hlength := readLoop_length_eq hb'
  have hmax := readLoop_length (Nat.zero_le _) hb'
  have hempty : b.clear.contents = [] := by
    rw [Buffer.contents, Buffer.clear_length, List.take_zero]
  rw [h.takeWhile, hempty, List.nil_append] at hcontents
  rw [h.takeWhile, Buffer.clear_length, Nat.zero_add] at hlength
  exact ⟨b', hb', hcontents, hlength, hmax.1⟩

end Body

/-! ## The two together

The header counts with the size as an `int`, the body with what is read. -/

section Announced
variable {w w' : World} {c : Client} {version filetype content : Bytes} {file : File}

theorem buildOkBody_eq (h : Requests w' c version filetype file) {c₁ : Client}
    (hframe : Frame c c₁) :
    buildOkBody w' { c₁ with sendBuf := c₁.sendBuf.clear }
      = (readLoop file.reads c₁.sendBuf.clear).map fun sendBuf =>
          { c₁ with sendBuf := sendBuf, lastActive := w'.now } := by
  obtain ⟨slot, uri, path, hslot, huri, -, -, hpath, hopen⟩ := h
  simp only [buildOkBody, hframe.requests, hframe.curRequest, hslot, huri, hpath, hopen, bind,
    Option.bind]
  cases readLoop file.reads c₁.sendBuf.clear <;> rfl

/-- A length that is announced is the size as an `int`, in ten bytes. -/
theorem Announced.size (h : Announced w w' c version filetype file content)
    (hfile : Requests w c version filetype file) (hunchanged : Requests w' c version filetype file)
    (hscript : Script content file.reads) :
    intOfSize file.size = content.length ∧ content.length ≤ 999999999 ∧
      file.reads.flatten = content := by
  obtain ⟨c₁, c₂, hheader, hbuild, hhead, hcontent, -⟩ := h
  have hshort := (buildOkHeader_iff hfile).mp ⟨c₁, hheader⟩
  rw [buildOkHeader_announces hfile hheader] at hhead
  have hannounced : intOfSize file.size = c₂.sendBuf.length := Page.head_contentLength_inj _ hhead
  rw [buildOkBody_eq hunchanged (buildOkHeader_frame hheader)] at hbuild
  obtain ⟨b, hread, rfl⟩ := Option.map_eq_some_iff.mp hbuild
  have hlength := readLoop_length_eq hread
  have hcontents := readLoop_contents (Nat.zero_le _) hread
  have hempty : c₁.sendBuf.clear.contents = [] := by
    rw [Buffer.contents, Buffer.clear_length, List.take_zero]
  rw [hscript.takeWhile, hempty, List.nil_append] at hcontents
  rw [hscript.takeWhile, Buffer.clear_length, Nat.zero_add] at hlength
  have hdelivered : file.reads.flatten = content := hcontents.symm.trans hcontent
  change intOfSize file.size = b.length at hannounced
  rw [hlength, hdelivered] at hannounced
  refine ⟨hannounced, ?_, hdelivered⟩
  rw [hannounced] at hshort
  have := (length_decimal_natCast_le_iff (by decide : 0 < 9)).mp (Nat.lt_succ_iff.mp hshort)
  omega

/-- **The length is announced exactly if** the size as an `int` is that of the content,
has at most nine digits, and no read fails before the end. -/
theorem announced_iff (hfile : Requests w c version filetype file)
    (hunchanged : Requests w' c version filetype file) (hscript : Script content file.reads) :
    Announced w w' c version filetype file content ↔
      intOfSize file.size = content.length ∧ content.length ≤ 999999999 ∧
        file.reads.flatten = content := by
  refine ⟨fun h => h.size hfile hunchanged hscript, ?_⟩
  rintro ⟨hsize, hshort, hdelivered⟩
  obtain ⟨c₁, hheader⟩ := (buildOkHeader_iff hfile).mpr (by
    rw [hsize]
    exact Nat.lt_succ_of_le ((length_decimal_natCast_le_iff (by decide)).mpr (by omega)))
  obtain ⟨b, hread, hcontents, hlength, -⟩ := hscript.readLoop hshort c₁.sendBuf
  refine ⟨c₁, { c₁ with sendBuf := b, lastActive := w'.now }, hheader, ?_, ?_, ?_, fun k => ?_⟩
  · rw [buildOkBody_eq hunchanged (buildOkHeader_frame hheader), hread]
    rfl
  · rw [buildOkHeader_announces hfile hheader]
    have hpage : (okPage version filetype file).contentLength = (b.length : Int) := by
      rw [hlength, hdelivered]
      exact hsize
    rw [← hpage]
  · exact hcontents.trans hdelivered
  · obtain ⟨b', hread', -, -, hmax⟩ := (hscript.take k).readLoop hshort c₁.sendBuf
    exact ⟨b', hread', hmax⟩

end Announced

/-! ## A page and a directory -/

def requesting (r : Request) : Client :=
  { newClient 0 with status := .ok, requests := [r.slot], numRequests := 1 }

theorem pageReads_le : ∀ bytes ∈ [ascii "hi\n"], bytes.length ≤ bufferMax := by decide

/-- The page of `pageWorld`. -/
def pageFile : File := { size := 3, ctime := 0, reads := [ascii "hi\n"], reads_le := pageReads_le }

theorem requests_page :
    Requests pageWorld (requesting getRoot) http11 (ascii "text/html") pageFile :=
  ⟨getRoot.slot, ascii "/", ascii "www/index.html", rfl, rfl, rfl, by decide, by decide, by rfl⟩

theorem script_page : Script (ascii "hi\n") pageFile.reads := ⟨by decide, by decide⟩

theorem announced_page : Announced pageWorld pageWorld (requesting getRoot) http11
    (ascii "text/html") pageFile (ascii "hi\n") :=
  (announced_iff requests_page requests_page script_page).mpr ⟨by decide, by decide, by decide⟩

/-- A directory: it can be opened and has a size, but `read` fails with `EISDIR`. -/
def directory : File := { size := 4096, ctime := 0, reads := [], reads_le := nofun }

/-- A request for the directory of the pages. -/
def getDirectory : Request := getRequest (ascii "/.") (by decide)

/-- The system of `pageWorld`, with the directory. -/
def directoryWorld : World :=
  { pageWorld with openFile := fun path =>
      if path = ascii "www/." then .ok directory else pageWorld.openFile path }

/-- 4096 bytes are announced, and none follow. -/
theorem directory_not_announced : ¬ ∀ (w w' : World) (c : Client) (version filetype : Bytes)
    (file : File) (content : Bytes), 0 ≤ file.size → file.size < 2 ^ 63 →
    Requests w c version filetype file → Requests w' c version filetype file →
    Script content file.reads → Announced w w' c version filetype file content := by
  intro hall
  have hfile : Requests directoryWorld (requesting getDirectory) http11 (ascii "text/plain")
      directory :=
    ⟨getDirectory.slot, ascii "/.", ascii "www/.", rfl, rfl, rfl, by decide, by decide, by rfl⟩
  have hscript : Script [] directory.reads := ⟨nofun, List.nil_prefix⟩
  have h := hall _ _ _ _ _ _ [] (by decide) (by decide) hfile hfile hscript
  have hsize := (h.size hfile hfile hscript).1
  exact absurd hsize (by decide)

end InternetLabs.EventServer
