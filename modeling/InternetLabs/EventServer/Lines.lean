/-
# `InternetLabs.EventServer.Lines` — what a line comes to

The lines of a request, whatever the client wrote in them.  A word that is not there
leaves its block as it was: zeros for the words of a header, and what the heap had
there for those of the request line (`seen`).  `requestLine_eq_seen` and
`headerLine_eq_header` are the two kinds of line; `foldlM_headerLine_eq` are the lines
after the first, which overrun no block exactly if they are `HeaderLinesFit`.
-/
import InternetLabs.EventServer.Parse

namespace InternetLabs.EventServer

open InternetLabs

/-! ## Words

`sscanf` stores the words there are, and leaves the blocks of the others as `malloc`
returned them. -/

theorem sublist_of_mem_splitOnP {α : Type*} (p : α → Bool) (s : List α) :
    ∀ t ∈ s.splitOnP p, t.Sublist s := by
  induction s with
  | nil => simp [List.splitOnP_nil]
  | cons x s ih =>
      intro t ht
      rw [List.splitOnP_cons_eq_if_modifyHead] at ht
      split at ht
      · rcases List.mem_cons.mp ht with rfl | ht
        · exact List.nil_sublist _
        · exact (ih t ht).cons x
      · match hs : s.splitOnP p with
        | [] => rw [hs] at ht; cases ht
        | head :: tail =>
            rw [hs] at ht ih
            rcases List.mem_cons.mp ht with rfl | ht
            · exact (ih head List.mem_cons_self).cons_cons x
            · exact (ih t (List.mem_cons_of_mem _ ht)).cons x

theorem sublist_of_mem_strtokAll {α : Type*} (p : α → Bool) (s : List α) :
    ∀ t ∈ strtokAll p s, t.Sublist s :=
  fun t ht => sublist_of_mem_splitOnP p s t (List.mem_of_mem_filter ht)

/-- A word of a string is no longer than the string, and has no NUL either. -/
theorem word_of_getElem? {line w : Bytes} (hline : (0 : UInt8) ∉ line) {i : Nat}
    (hw : (words line)[i]? = some w) : (0 : UInt8) ∉ w ∧ w.length ≤ line.length := by
  have hsub := sublist_of_mem_strtokAll isSpace line w (List.mem_of_getElem? hw)
  exact ⟨fun h => hline (hsub.mem h), hsub.length_le⟩

/-- What a block reads as after `%s`: the word, or what was there. -/
def seen (block : Bytes) : Option Bytes → Bytes
  | none => cstr block
  | some w => w

theorem scanWord_eq (block : Bytes) {w : Option Bytes} (hw : ∀ x ∈ w, (0 : UInt8) ∉ x) :
    (∃ x ∈ w, block.length ≤ x.length ∧ scanWord block w = .error .undefined) ∨
      (∀ x ∈ w, x.length < block.length) ∧ ∃ block', scanWord block w = .ok block' ∧
        cstr block' = seen block w ∧ ((0 : UInt8) ∈ block' ↔ w.isSome ∨ (0 : UInt8) ∈ block) := by
  cases w with
  | none => exact .inr ⟨nofun, block, rfl, rfl, by simp⟩
  | some x =>
      have hx : (0 : UInt8) ∉ x := hw x rfl
      by_cases hlt : x.length < block.length
      · refine .inr ⟨fun y hy => by cases hy; exact hlt, _, if_pos hlt, ?_, ?_⟩
        · rw [writeAt_zero, List.append_assoc]
          exact cstr_append_zero hx _
        · simp [writeAt_zero]
      · exact .inl ⟨x, rfl, Nat.le_of_not_lt hlt, if_neg hlt⟩

/-! ## The request line -/

/-- The words of a request line fit their blocks. -/
def WordsFit (line : Bytes) : Prop :=
  (∀ w ∈ (words line)[0]?, w.length < 16) ∧ (∀ w ∈ (words line)[1]?, w.length < bufferMax) ∧
    ∀ w ∈ (words line)[2]?, w.length < 32

instance (line : Bytes) : Decidable (WordsFit line) := inferInstanceAs (Decidable (_ ∧ _ ∧ _))

theorem scanWords_eq (blocks : Blocks) {line : Bytes} (hline : (0 : UInt8) ∉ line) :
    (¬ WordsFit line ∧ ∀ (α : Type) (f : Bytes → Bytes → Bytes → Except Stop α),
      (do let method ← scanWord blocks.method (words line)[0]?
          let uri ← scanWord blocks.uri (words line)[1]?
          let version ← scanWord blocks.version (words line)[2]?
          f method uri version) = .error .undefined) ∨
    (WordsFit line ∧ ∃ method uri version,
      scanWord blocks.method (words line)[0]? = .ok method ∧
      scanWord blocks.uri (words line)[1]? = .ok uri ∧
      scanWord blocks.version (words line)[2]? = .ok version ∧
      cstr method = seen blocks.method (words line)[0]? ∧
      cstr uri = seen blocks.uri (words line)[1]? ∧
      cstr version = seen blocks.version (words line)[2]? ∧
      ((0 : UInt8) ∉ uri ↔ (words line)[1]? = none ∧ (0 : UInt8) ∉ blocks.uri)) := by
  have hnul : ∀ i : Nat, ∀ x ∈ (words line)[i]?, (0 : UInt8) ∉ x :=
    fun i x hx => (word_of_getElem? hline hx).1
  rcases scanWord_eq blocks.method (hnul 0) with ⟨x, hx, hle, hm⟩ | ⟨hmethod, method, hm, hcm, -⟩
  · rw [blocks.method_length] at hle
    exact .inl ⟨fun h => absurd (h.1 x hx) (Nat.not_lt.mpr hle), fun α f => by rw [hm]; rfl⟩
  rcases scanWord_eq blocks.uri (hnul 1) with ⟨x, hx, hle, hu⟩ | ⟨huri, uri, hu, hcu, hzero⟩
  · rw [blocks.uri_length] at hle
    exact .inl ⟨fun h => absurd (h.2.1 x hx) (Nat.not_lt.mpr hle), fun α f => by rw [hm, hu]; rfl⟩
  rcases scanWord_eq blocks.version (hnul 2) with ⟨x, hx, hle, hv⟩ | ⟨hversion, version, hv, hcv, -⟩
  · rw [blocks.version_length] at hle
    exact .inl ⟨fun h => absurd (h.2.2 x hx) (Nat.not_lt.mpr hle),
      fun α f => by rw [hm, hu, hv]; rfl⟩
  rw [blocks.method_length] at hmethod
  rw [blocks.uri_length] at huri
  rw [blocks.version_length] at hversion
  refine .inr ⟨⟨hmethod, huri, hversion⟩, method, uri, version, hm, hu, hv, hcm, hcu, hcv, ?_⟩
  rw [hzero, not_or, Option.not_isSome_iff_eq_none]

/-- **A request line.**  The words that are not there are those of the heap. -/
theorem requestLine_eq_seen (blocks : Blocks) (slot : Nat) {line : Bytes}
    (hline : (0 : UInt8) ∉ line) (httpr : HttpRequest) :
    requestLine blocks slot line httpr =
      if ¬ WordsFit line then .error .undefined
      else if seen blocks.method (words line)[0]? ∉ methods then .error (.status .notImplemented)
      else if maxRequests ≤ slot then .error .undefined
      else if seen blocks.version (words line)[2]? ≠ http11 then .error (.status .internalError)
      else if (words line)[1]? = none ∧ (0 : UInt8) ∉ blocks.uri then .error .undefined
      else .ok { httpr with
        method := some (seen blocks.method (words line)[0]?)
        uri := some (seen blocks.uri (words line)[1]?)
        version := some (seen blocks.version (words line)[2]?)
        filetype := some (filetypeOf (seen blocks.uri (words line)[1]?)) } := by
  rcases scanWords_eq blocks hline with
    ⟨hfit, hundef⟩ | ⟨hfit, method, uri, version, hm, hu, hv, hcm, hcu, hcv, hzero⟩
  · rw [if_pos hfit]
    exact hundef _ _
  · rw [if_neg (not_not.mpr hfit)]
    simp only [requestLine, hm, hu, hv, bind, Except.bind, hcm, hcu, hcv, hzero]
    rfl

/-! ## The other lines

The names of headers lose their colon, and the host goes to a field of its own. -/

theorem strReplaceLoop_colons {fuel : Nat} {s : Bytes} (hnul : (0 : UInt8) ∉ s)
    (hfuel : s.length < fuel) (text : Bytes) :
    Loop.run (strReplaceLoop (ascii ":") []) fuel (s, text)
      = some (text ++ s.filter (· ≠ 58)) := by
  induction fuel generalizing s text with
  | zero => cases hfuel
  | succ fuel ih =>
      obtain ⟨a, rest, rfl, ha, hrest⟩ : ∃ a rest, s = a ++ rest ∧ (58 : UInt8) ∉ a ∧
          ∀ b ∈ rest.head?, b = 58 := by
        refine ⟨s.takeWhile (· ≠ 58), s.dropWhile (· ≠ 58), List.takeWhile_append_dropWhile.symm,
          fun h => by simpa using List.mem_takeWhile_imp h, fun b hb => ?_⟩
        have := List.head?_dropWhile_not (fun b : UInt8 => decide (b ≠ 58)) s
        rw [Option.mem_def] at hb
        rw [hb] at this
        simpa using this
      have hskip : ∀ b ∈ a, b ≠ 58 ∧ b ≠ 0 := fun b hb =>
        ⟨fun h => ha (h ▸ hb), fun h => hnul (List.mem_append_left _ (h ▸ hb))⟩
      have hkeep : a.filter (· ≠ 58) = a :=
        List.filter_eq_self.mpr fun b hb => by simpa using (hskip b hb).1
      have hfind : strstr (ascii ":") (a ++ rest)
          = (strstr (ascii ":") rest).map (a.length + ·) := strstr_skip hskip
      cases rest with
      | nil =>
          have hret : strReplaceLoop (ascii ":") [] (a ++ [], text) = .ret (text ++ (a ++ [])) := by
            simp only [strReplaceLoop, hfind]
            rfl
          rw [Loop.run_ret hret, List.append_nil, hkeep]
      | cons b rest =>
          obtain rfl : b = 58 := hrest b rfl
          have hat : strstr (ascii ":") (58 :: rest) = some 0 := by
            rw [strstr, if_pos (by simp [ascii, List.isPrefixOf])]
          have hnext : strReplaceLoop (ascii ":") [] (a ++ 58 :: rest, text)
              = .next (rest, text ++ a) := by
            simp only [strReplaceLoop, hfind, hat, Option.map_some, Nat.add_zero, List.take_left,
              List.append_nil]
            rw [show a.length + (ascii ":").length = (a ++ [58]).length by simp [ascii],
              show a ++ 58 :: rest = (a ++ [58]) ++ rest by simp, List.drop_left]
          rw [List.length_append, List.length_cons] at hfuel
          rw [Loop.run_next hnext, ih (fun h => hnul (List.mem_append_right _
            (List.mem_cons_of_mem _ h))) (by omega), List.filter_append, hkeep]
          simp

theorem strReplace_colons {name : Bytes} (hnul : (0 : UInt8) ∉ name) :
    strReplace name (ascii ":") [] =
      if (name.filter (· ≠ 58)).length < 1024 then some (name.filter (· ≠ 58)) else none := by
  rw [strReplace, strReplaceLoop_colons hnul (Nat.lt_succ_self _), List.nil_append]
  simp only [Option.filter_some, decide_eq_true_eq]

/-- The name at the beginning of a header line, with its colon. -/
def headerName (line : Bytes) : Bytes := (words line)[0]?.getD []

def headerOf (line : Bytes) : HttpHeader where
  name := (headerName line).filter (· ≠ 58)
  value := (words line)[1]?.getD []

/-- The line is that of the host. -/
abbrev IsHost (line : Bytes) : Prop := headerName line = ascii "Host:"

theorem scanWord_header {line : Bytes} (hline : (0 : UInt8) ∉ line) (hlen : line.length < bufferMax)
    (i : Nat) : ∃ block, scanWord (List.replicate bufferMax 0) (words line)[i]? = .ok block ∧
      cstr block = (words line)[i]?.getD [] := by
  rcases scanWord_eq (List.replicate bufferMax 0)
      (fun x hx => (word_of_getElem? hline (i := i) hx).1) with
    ⟨x, hx, hle, -⟩ | ⟨-, block, hblock, hcstr, -⟩
  · have := (word_of_getElem? hline hx).2
    rw [List.length_replicate] at hle
    omega
  · refine ⟨block, hblock, hcstr.trans ?_⟩
    cases (words line)[i]? with
    | none => exact cstr_replicate_zero _
    | some w => rfl

/-- **A header line.** -/
theorem headerLine_eq_header {line : Bytes} (hline : (0 : UInt8) ∉ line)
    (hlen : line.length < bufferMax) (s : Lines) :
    headerLine line s =
      if IsHost line then
        .ok { s with httpr := { s.httpr with host := some (headerOf line).value } }
      else if (headerOf line).name.length < 1024 ∧ s.headers.length < headerMax then
        .ok { s with headers := s.headers ++ [headerOf line] }
      else .error .undefined := by
  obtain ⟨name, hname, hcname⟩ := scanWord_header hline hlen 0
  obtain ⟨value, hvalue, hcvalue⟩ := scanWord_header hline hlen 1
  have hcname : cstr name = headerName line := hcname
  have hnul : (0 : UInt8) ∉ headerName line := hcname ▸ zero_notMem_cstr name
  simp only [headerLine, hname, hvalue, bind, Except.bind, hcname, hcvalue, strReplace_colons hnul]
  by_cases hhost : IsHost line
  · rw [if_pos hhost, if_pos hhost]
    rfl
  rw [if_neg hhost, if_neg hhost]
  by_cases hfits : ((headerName line).filter (· ≠ 58)).length < 1024
  · simp only [if_pos hfits]
    by_cases hcount : s.headers.length < headerMax
    · rw [if_pos hcount, if_pos ⟨hfits, hcount⟩]
      rfl
    · rw [if_neg hcount, if_neg fun h => hcount h.2]
      rfl
  · simp only [if_neg hfits]
    rw [if_neg fun h => hfits h.1]
    rfl

/-- The value of the last line of the host, or `host` if there is none. -/
def hostOf (host : Option Bytes) (ls : List Bytes) : Option Bytes :=
  ls.foldl (fun host l => if IsHost l then some (headerOf l).value else host) host

def storedLines (ls : List Bytes) : List Bytes := ls.filter fun l => ¬ IsHost l

theorem storedLines_cons_host {l : Bytes} (h : IsHost l) (ls : List Bytes) :
    storedLines (l :: ls) = storedLines ls :=
  List.filter_cons_of_neg (by simpa using h)

theorem storedLines_cons {l : Bytes} (h : ¬ IsHost l) (ls : List Bytes) :
    storedLines (l :: ls) = l :: storedLines ls :=
  List.filter_cons_of_pos (by simpa using h)

/-- The header lines overrun no block. -/
def HeaderLinesFit (ls : List Bytes) : Prop :=
  (∀ l ∈ storedLines ls, (headerOf l).name.length < 1024) ∧ (storedLines ls).length ≤ headerMax

instance (ls : List Bytes) : Decidable (HeaderLinesFit ls) := inferInstanceAs (Decidable (_ ∧ _))

/-- **The lines after the first.** -/
theorem foldlM_headerLine_eq {ls : List Bytes}
    (hls : ∀ l ∈ ls, (0 : UInt8) ∉ l ∧ l.length < bufferMax) {s : Lines}
    (hcount : s.headers.length ≤ headerMax) :
    ls.foldlM (fun s l => headerLine l s) s =
      if (∀ l ∈ storedLines ls, (headerOf l).name.length < 1024) ∧
          s.headers.length + (storedLines ls).length ≤ headerMax then
        .ok { s with
          httpr := { s.httpr with host := hostOf s.httpr.host ls }
          headers := s.headers ++ (storedLines ls).map headerOf }
      else .error .undefined := by
  induction ls generalizing s with
  | nil =>
      rw [if_pos ⟨nofun, by simpa [storedLines] using hcount⟩]
      simp [pure, Except.pure, hostOf, storedLines]
  | cons l ls ih =>
      obtain ⟨⟨hnul, hlen⟩, hls⟩ := List.forall_mem_cons.mp hls
      rw [List.foldlM_cons, headerLine_eq_header hnul hlen]
      by_cases hhost : IsHost l
      · simp only [if_pos hhost, storedLines_cons_host hhost, hostOf, List.foldl_cons]
        exact ih hls hcount
      rw [if_neg hhost, storedLines_cons hhost, hostOf, List.foldl_cons, if_neg hhost]
      simp only [List.forall_mem_cons, List.length_cons, List.map_cons]
      by_cases hfits : (headerOf l).name.length < 1024 ∧ s.headers.length < headerMax
      · have ih := @ih hls { s with headers := s.headers ++ [headerOf l] }
          (by rw [List.length_append, List.length_singleton]; exact hfits.2)
        rw [if_pos hfits]
        refine ih.trans ?_
        rw [List.length_append, List.length_singleton]
        simp only [hfits.1, true_and, List.append_assoc, List.singleton_append, hostOf,
          Nat.add_assoc, Nat.add_comm 1]
      · rw [if_neg hfits, if_neg]
        · rfl
        · rintro ⟨⟨hname, -⟩, hlen⟩
          exact hfits ⟨hname, by omega⟩

end InternetLabs.EventServer
