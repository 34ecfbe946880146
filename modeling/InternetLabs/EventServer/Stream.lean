/-
# `InternetLabs.EventServer.Stream` — requests in a stream that is cut anywhere

A stream of requests has as many CRLF CRLF as requests (`occurrences_renderAll`).  Its
beginning up to any cut is a number of whole requests and part of the next one
(`exists_complete`), which `cuts` follows along a sequence of deliveries.

A request whose beginning is lost is never parsed to its slot (`parseSegment_cut`).
-/
import InternetLabs.EventServer.Request

namespace InternetLabs.EventServer

open InternetLabs

/-! ## The ends of the requests in a stream

Requests end in the first CRLF CRLF, and none of their words has one. -/

theorem occurrences_line {l : Bytes} (h : IsLine l) (m : Bytes) :
    occurrences crlfcrlf (crlf ++ (l ++ m)) = occurrences crlfcrlf m := by
  obtain ⟨b, l, rfl⟩ := List.exists_cons_of_ne_nil h.1
  have h13 : ∀ x ∈ b :: l, x ≠ 13 := fun x hx => (h.2 x hx).2.1
  have hpre : crlfcrlf.isPrefixOf (crlf ++ (b :: l ++ m)) = false := by
    simp [crlfcrlf, crlf, List.isPrefixOf, Ne.symm (h13 b List.mem_cons_self)]
  have hten : ∀ x ∈ 10 :: (b :: l), x ≠ 13 := by
    simpa using h13
  rw [crlf, List.cons_append] at hpre ⊢
  rw [occurrences, hpre, if_neg Bool.false_ne_true, Nat.zero_add]
  exact occurrences_skip hten m

theorem occurrences_crlfcrlf {m : Bytes} (hm : m.head? ≠ some 13) :
    occurrences crlfcrlf (crlfcrlf ++ m) = 1 + occurrences crlfcrlf m := by
  cases m with
  | nil => rfl
  | cons b m =>
      have hb : b ≠ 13 := by simpa using hm
      simp [crlfcrlf, occurrences, List.isPrefixOf, Ne.symm hb]

theorem occurrences_segment {ls : List Bytes} (h : ∀ l ∈ ls, IsLine l) {m : Bytes}
    (hne : ls ≠ []) (hm : m.head? ≠ some 13) :
    occurrences crlfcrlf (segment ls ++ (crlfcrlf ++ m)) = 1 + occurrences crlfcrlf m := by
  have hlines : ∀ {ls : List Bytes}, (∀ l ∈ ls, IsLine l) → ls ≠ [] →
      occurrences crlfcrlf (crlf ++ (segment ls ++ (crlfcrlf ++ m)))
        = 1 + occurrences crlfcrlf m := by
    intro ls h hne
    induction ls with
    | nil => exact absurd rfl hne
    | cons l ls ih =>
        have hl := h l List.mem_cons_self
        cases ls with
        | nil =>
            rw [segment, List.intercalate_singleton, occurrences_line hl]
            exact occurrences_crlfcrlf hm
        | cons l' ls =>
            have ih := ih (fun l hmem => h l (List.mem_cons_of_mem _ hmem)) (List.cons_ne_nil _ _)
            rw [segment, List.intercalate_cons_cons, List.append_assoc, List.append_assoc,
              occurrences_line hl]
            exact ih
  obtain ⟨l, ls, rfl⟩ := List.exists_cons_of_ne_nil hne
  have hl := h l List.mem_cons_self
  have hskip : ∀ b ∈ l, b ≠ 13 := fun b hb => (hl.2 b hb).2.1
  cases ls with
  | nil =>
      rw [segment, List.intercalate_singleton, crlfcrlf, occurrences_skip hskip]
      exact occurrences_crlfcrlf hm
  | cons l' ls =>
      rw [segment, List.intercalate_cons_cons, List.append_assoc, List.append_assoc]
      rw [crlfcrlf, occurrences_skip hskip]
      exact hlines (fun l hmem => h l (List.mem_cons_of_mem _ hmem)) (List.cons_ne_nil _ _)

theorem head?_renderAll (rs : List Request) : (renderAll rs).head? ≠ some 13 := by
  cases rs with
  | nil => exact nofun
  | cons r rs =>
      obtain ⟨b, method, hmethod⟩ := List.exists_cons_of_ne_nil r.method_word.1
      have hb : b ≠ 13 := r.method_word.ne (hmethod ▸ List.mem_cons_self) (by decide)
      have hhead : (renderAll (r :: rs)).head? = some b := by
        simp [renderAll_cons, Request.render, Request.lines, Request.line, hmethod]
      rw [hhead]
      simpa using hb

/-- **A stream of requests has one CRLF CRLF for each.** -/
theorem occurrences_renderAll (rs : List Request) :
    occurrences crlfcrlf (renderAll rs) = rs.length := by
  induction rs with
  | nil => rfl
  | cons r rs ih =>
      rw [renderAll_cons, r.render_eq, List.append_assoc,
        occurrences_segment r.isLine (List.cons_ne_nil _ _) (head?_renderAll rs), ih,
        List.length_cons, Nat.add_comm]

theorem renderAll_noNul (rs : List Request) : (0 : UInt8) ∉ renderAll rs := by
  induction rs with
  | nil => exact List.not_mem_nil
  | cons r rs ih =>
      rw [renderAll_cons, r.render_eq, List.mem_append, List.mem_append]
      exact not_or.mpr ⟨not_or.mpr ⟨segment_noNul r.isLine, by decide⟩, ih⟩

/-! ## Part of a request

What has come of a request that is not complete yet. -/

/-- The beginning `z` of the stream of `rs` ends before the first request does. -/
structure Unfinished (z : Bytes) (rs : List Request) : Prop where
  isPrefix : z <+: renderAll rs
  short : ∀ r ∈ rs.head?, z.length < r.render.length

section Unfinished
variable {z : Bytes} {rs : List Request}

theorem Unfinished.nil_left (rs : List Request) : Unfinished [] rs := by
  refine ⟨List.nil_prefix, fun r _ => ?_⟩
  rw [r.render_eq, List.length_append]
  exact Nat.add_pos_right _ (by decide)

theorem Unfinished.nil (h : Unfinished z []) : z = [] := List.prefix_nil.mp h.isPrefix

/-- What is missing of the request. -/
theorem Unfinished.cons {r : Request} (h : Unfinished z (r :: rs)) :
    ∃ v, v ≠ [] ∧ r.render = z ++ v := by
  have hlt := h.short r rfl
  obtain ⟨v, hv⟩ := List.prefix_of_prefix_length_le h.isPrefix (List.prefix_append _ _)
    (Nat.le_of_lt hlt)
  refine ⟨v, ?_, hv.symm⟩
  rintro rfl
  rw [List.append_nil] at hv
  rw [hv] at hlt
  exact absurd hlt (Nat.lt_irrefl _)

/-- A request that is not finished has no end. -/
theorem Unfinished.strstr (h : Unfinished z rs) : strstr crlfcrlf z = none := by
  cases rs with
  | nil =>
      obtain rfl := h.nil
      rfl
  | cons r rs =>
      by_contra hsome
      obtain ⟨k, hk⟩ := Option.ne_none_iff_exists'.mp hsome
      have hfull := strstr_of_prefix (by decide) h.isPrefix hk
      have hend := strstr_renderAll r rs []
      rw [List.append_nil, hfull] at hend
      cases hend
      obtain ⟨-, hat, -⟩ := (strstr_eq_some_iff (by decide)).mp hk
      have hle := hat.length_le
      have hlt := h.short r rfl
      rw [r.render_eq, List.length_append] at hlt
      rw [List.length_drop] at hle
      have hfour : crlfcrlf.length = 4 := rfl
      omega

end Unfinished

/-! ## Whole requests

How a stream is cut by what has come of it: requests that are complete, and part of one. -/

/-- How many of the requests are complete in the first `n` bytes of their stream. -/
def completeIn : List Request → Nat → Nat
  | [], _ => 0
  | r :: rs, n => if r.render.length ≤ n then completeIn rs (n - r.render.length) + 1 else 0

/-- **The beginning of a stream** is the complete requests and part of the next one. -/
theorem exists_complete {rs : List Request} {q : Bytes} (h : q <+: renderAll rs) :
    ∃ z, q = renderAll (rs.take (completeIn rs q.length)) ++ z ∧
      Unfinished z (rs.drop (completeIn rs q.length)) := by
  induction rs generalizing q with
  | nil =>
      obtain rfl := List.prefix_nil.mp h
      exact ⟨[], rfl, .nil_left _⟩
  | cons r rs ih =>
      rw [completeIn]
      by_cases hle : r.render.length ≤ q.length
      · obtain ⟨q', rfl⟩ := List.prefix_of_prefix_length_le (List.prefix_append _ _) h hle
        rw [renderAll_cons, List.prefix_append_right_inj] at h
        obtain ⟨z, hq, hz⟩ := ih h
        have hlen : (r.render ++ q').length - r.render.length = q'.length := by
          rw [List.length_append, Nat.add_sub_cancel_left]
        rw [if_pos hle, hlen]
        refine ⟨z, ?_, hz⟩
        rw [List.take_succ_cons, renderAll_cons, List.append_assoc, ← hq]
      · rw [if_neg hle]
        refine ⟨q, rfl, h, fun r' hr => ?_⟩
        cases hr
        exact Nat.lt_of_not_le hle

/-- What has come when a delivery is over: the bytes not taken for a request before it,
the requests complete in them, and the bytes behind these. -/
structure Cut where
  pending : Nat
  complete : Nat
  left : Nat

/-- The cuts of a stream of `rs` of which `n` bytes are there, when `es` is delivered. -/
def cuts : List Request → Nat → List Bytes → List Cut
  | _, _, [] => []
  | rs, n, e :: es =>
      let pending := n + e.length
      let complete := completeIn rs pending
      let left := pending - (renderAll (rs.take complete)).length
      ⟨pending, complete, left⟩ :: cuts (rs.drop complete) left es

/-! ## A request whose beginning is lost

What the parser makes of the end of a request, which it takes for a request. -/

/-- The first line of a text behind the bytes `z` of lines is the end of a line. -/
theorem strtokAll_segment_suffix {l : Bytes} {ls : List Bytes} (h : ∀ x ∈ l :: ls, IsLine x)
    {z seg : Bytes} (hseg : z ++ seg = segment (l :: ls)) :
    strtokAll isCrlf seg = [] ∨ ∃ t ts, strtokAll isCrlf seg = t :: ts ∧
      (l = z ++ t ∨ ∃ l' ∈ ls, ∃ pre, l' = pre ++ t) := by
  induction ls generalizing l z with
  | nil =>
      rw [segment, List.intercalate_singleton] at hseg
      cases seg with
      | nil => exact .inl strtokAll_nil
      | cons b seg =>
          have hrun : ∀ x ∈ b :: seg, isCrlf x = false := fun x hx =>
            (h l List.mem_cons_self).isCrlf x (hseg ▸ List.mem_append_right z hx)
          exact .inr ⟨_, [], strtokAll_run (List.cons_ne_nil _ _) hrun, .inl hseg.symm⟩
  | cons l' ls ih =>
      have hl := h l List.mem_cons_self
      have hls : ∀ x ∈ l' :: ls, IsLine x := fun x hx => h x (List.mem_cons_of_mem _ hx)
      have hcr : isCrlf 13 = true := by decide
      have hlf : isCrlf 10 = true := by decide
      have htoks : strtokAll isCrlf (segment (l' :: ls)) = l' :: ls := strtokAll_segment hls
      have hlines : strtokAll isCrlf (10 :: segment (l' :: ls)) = l' :: ls := by
        rw [strtokAll_cons_delim _ hlf, htoks]
      have hend : strtokAll isCrlf (crlf ++ segment (l' :: ls)) = l' :: ls := by
        rw [crlf, List.cons_append, List.singleton_append, strtokAll_cons_delim _ hcr, hlines]
      have hnext : ∃ l'' ∈ l' :: ls, ∃ pre, l'' = pre ++ l' := ⟨l', List.mem_cons_self, [], rfl⟩
      rw [segment, List.intercalate_cons_cons, ← segment, List.append_assoc,
        List.append_eq_append_iff] at hseg
      rcases hseg with ⟨a, hla, rfl⟩ | ⟨a, -, hrest⟩
      · -- cut in the first line, or right behind it
        cases a with
        | nil => exact .inr ⟨l', ls, hend, .inr hnext⟩
        | cons b a =>
            have hrun : ∀ x ∈ b :: a, isCrlf x = false := fun x hx =>
              hl.isCrlf x (hla ▸ List.mem_append_right z hx)
            refine .inr ⟨b :: a, l' :: ls, ?_, .inl hla⟩
            have hsplit : (b :: a) ++ (crlf ++ segment (l' :: ls))
                = (b :: a) ++ 13 :: 10 :: segment (l' :: ls) := rfl
            rw [hsplit, strtokAll_append_cons _ _ hcr, hlines,
              strtokAll_run (List.cons_ne_nil _ _) hrun]
            rfl
      · -- cut behind the first line
        cases a with
        | nil =>
            rw [List.nil_append] at hrest
            exact .inr ⟨l', ls, hrest ▸ hend, .inr hnext⟩
        | cons b a =>
            cases a with
            | nil =>
                have hrest : 10 :: segment (l' :: ls) = seg := (List.cons.inj hrest).2
                exact .inr ⟨l', ls, hrest ▸ hlines, .inr hnext⟩
            | cons b' a =>
                obtain ⟨-, hrest⟩ := List.cons.inj hrest
                obtain ⟨-, hrest⟩ := List.cons.inj hrest
                rcases ih hls hrest.symm with hnil | ⟨t, ts, ht, hsuffix⟩
                · exact .inl hnil
                · refine .inr ⟨t, ts, ht, .inr ?_⟩
                  rcases hsuffix with hl' | ⟨l'', hmem, hpre⟩
                  · exact ⟨l', List.mem_cons_self, a, hl'⟩
                  · exact ⟨l'', List.mem_cons_of_mem _ hmem, hpre⟩

/-- A line of two words at most leaves the block for the version as it was. -/
theorem requestLine_short {line : Bytes} (h : (words line).length ≤ 2) (slot : Nat)
    (httpr : HttpRequest) : ∃ e, requestLine zeroBlocks slot line httpr = .error e := by
  have hversion : scanWord zeroBlocks.version (words line)[2]? = .ok (List.replicate 32 0) := by
    rw [List.getElem?_eq_none (by omega)]
    rfl
  have hcstr : cstr (List.replicate 32 0) ≠ http11 := by decide
  cases hmethod : scanWord zeroBlocks.method (words line)[0]? with
  | error e => exact ⟨e, by rw [requestLine, hmethod]; rfl⟩
  | ok method =>
      cases huri : scanWord zeroBlocks.uri (words line)[1]? with
      | error e => exact ⟨e, by rw [requestLine, hmethod, huri]; rfl⟩
      | ok uri =>
          simp only [requestLine, hmethod, huri, hversion, bind, Except.bind, if_pos hcstr]
          split
          · exact ⟨_, rfl⟩
          · split
            · exact ⟨_, rfl⟩
            · exact ⟨_, rfl⟩

theorem requestLine_method {line : Bytes} {slot : Nat} {httpr httpr' : HttpRequest} {m : Bytes}
    {ws : List Bytes} (hm : IsWord m) (hwords : words line = m :: ws)
    (h : requestLine zeroBlocks slot line httpr = .ok httpr') : httpr'.method = some m := by
  have hscan : scanWord zeroBlocks.method (words line)[0]? = .error .undefined ∨
      scanWord zeroBlocks.method (words line)[0]?
          = .ok (writeAt zeroBlocks.method 0 (m ++ [0])) := by
    rw [hwords, List.getElem?_cons_zero, scanWord]
    split
    · exact .inr rfl
    · exact .inl rfl
  simp only [requestLine, bind, Except.bind] at h
  rcases hscan with hscan | hscan
  · rw [hscan] at h
    cases h
  rw [hscan] at h
  simp only [cstr_writeAt_word hm] at h
  split at h
  · cases h
  split at h
  · cases h
  split at h
  · cases h
  split at h
  · cases h
  split at h
  · cases h
  split at h
  · cases h
  cases h
  rfl

theorem parseSegment_method {blocks : Blocks} {slot : Nat} {seg t : Bytes} {ts : List Bytes}
    {httpr : HttpRequest} (htoks : strtokAll isCrlf seg = t :: ts)
    (h : parseSegment blocks slot .zero seg = .ok httpr) :
    ∃ httpr₀, requestLine blocks slot t .zero = .ok httpr₀ ∧ httpr.method = httpr₀.method := by
  rw [parseSegment, htoks, List.foldlM_cons] at h
  have hfirst : lineStep blocks slot ⟨true, .zero, []⟩ t
      = (requestLine blocks slot t .zero).map fun httpr => ⟨false, httpr, []⟩ := rfl
  rw [hfirst] at h
  cases hline : requestLine blocks slot t .zero with
  | error e =>
      rw [hline] at h
      cases h
  | ok httpr₀ =>
      rw [hline] at h
      change (ts.foldlM (lineStep blocks slot) ⟨false, httpr₀, []⟩).map _ = _ at h
      rw [foldlM_lineStep blocks slot ts rfl] at h
      rcases foldlM_headerLine_cases ts ⟨false, httpr₀, []⟩ with hfold | ⟨host, headers, hfold⟩
      · rw [hfold] at h
        cases h
      · rw [hfold] at h
        cases h
        exact ⟨httpr₀, rfl, rfl⟩

/-- The end of a request line has its last two words, and the end of the method if that
is where it is cut. -/
theorem Request.words_suffix (r : Request) {z t : Bytes} (h : r.line = z ++ t) :
    (words t).length ≤ 2 ∨ ∃ m ws, r.method = z ++ m ∧ IsWord m ∧ words t = m :: ws := by
  have hsp : InternetLabs.isSpace 32 = true := by decide
  obtain ⟨rest, hrest⟩ : ∃ rest, rest = 32 :: (r.uri ++ 32 :: r.version) := ⟨_, rfl⟩
  have hline : r.line = r.method ++ rest := by
    simp [Request.line, ascii, hrest]
  have hwords : (words rest).length = 2 := by
    rw [hrest, InternetLabs.words, strtokAll_cons_delim _ hsp, strtokAll_append_cons _ _ hsp,
      List.length_append, ← InternetLabs.words, ← InternetLabs.words, r.uri_word.words,
      r.version_word.words]
    rfl
  rw [hline] at h
  rcases List.append_eq_append_iff.mp h with ⟨a, -, hat⟩ | ⟨a, hza, ht⟩
  · left
    rw [← hwords, hat]
    exact length_strtokAll_append_right a t
  · cases a with
    | nil =>
        left
        rw [ht, List.nil_append, hwords]
    | cons b a =>
        right
        have hword : IsWord (b :: a) :=
          ⟨List.cons_ne_nil _ _, fun x hx => r.method_word.2 x (hza ▸ List.mem_append_right z hx)⟩
        refine ⟨b :: a, words (r.uri ++ 32 :: r.version), hza, hword, ?_⟩
        rw [ht, hrest, InternetLabs.words, strtokAll_append_cons _ _ hsp, ← InternetLabs.words,
          hword.words]
        rfl

/-- **A request whose beginning is lost** is not parsed to its slot. -/
theorem parseSegment_cut (r : Request) {z seg : Bytes} (hz : z ≠ [])
    (hseg : z ++ seg = segment r.lines) {slot : Nat} {httpr : HttpRequest}
    (h : parseSegment zeroBlocks slot .zero seg = .ok httpr) : httpr.method ≠ some r.method := by
  rcases strtokAll_segment_suffix r.isLine hseg with hnil | ⟨t, ts, htoks, hsuffix⟩
  · rw [parseSegment, hnil] at h
    cases h
    intro heq
    cases heq
  obtain ⟨httpr₀, hline, hmethod⟩ := parseSegment_method htoks h
  rw [hmethod]
  have hshort : ¬ (words t).length ≤ 2 := fun hle => by
    obtain ⟨e, he⟩ := requestLine_short hle slot .zero
    rw [hline] at he
    cases he
  rcases hsuffix with hfirst | ⟨l', hl', pre, hpre⟩
  · obtain ⟨m, ws, hm, hword, hwords⟩ := (r.words_suffix hfirst).resolve_left hshort
    rw [requestLine_method hword hwords hline, hm]
    intro heq
    have hlen := congrArg List.length (Option.some.inj heq)
    rw [List.length_append] at hlen
    have := List.length_pos_iff.mpr hz
    omega
  · obtain ⟨hd, hmem, rfl⟩ := List.mem_map.mp hl'
    refine absurd ?_ hshort
    have htwo : (words hd.line).length = 2 := by
      rw [HttpHeader.words_line (r.headers_ok hd hmem)]
      rfl
    rw [← htwo, hpre]
    exact length_strtokAll_append_right pre t

end InternetLabs.EventServer
