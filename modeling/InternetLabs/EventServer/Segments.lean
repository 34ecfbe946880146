/-
# `InternetLabs.EventServer.Segments` — the requests in a received text

Whatever a client sends, the outer loop takes the text before each CRLF CRLF for a
request, up to the first NUL (`segments`).  `requestToStruct_segments` is the parser
on such a text: the requests are parsed one after the other, each to the next slot,
until one of them ends the parse.
-/
import InternetLabs.EventServer.Parse

namespace InternetLabs.EventServer

open InternetLabs

/-! ## Segments

The texts of the requests in a buffer, without the loop that finds them. -/

/-- The texts before the CRLF CRLFs of `text`, in a number of rounds. -/
def segmentsFrom : Nat → Bytes → List Bytes
  | 0, _ => []
  | fuel + 1, text =>
      match strstr crlfcrlf text with
      | none => []
      | some k => text.take k :: segmentsFrom fuel (text.drop (k + 4))

/-- The texts before the CRLF CRLFs of `text`, up to a NUL. -/
def segments (text : Bytes) : List Bytes := segmentsFrom text.length text

theorem segmentsFrom_eq {fuel fuel' : Nat} {text : Bytes} (h : text.length ≤ fuel)
    (h' : text.length ≤ fuel') : segmentsFrom fuel text = segmentsFrom fuel' text := by
  induction fuel generalizing fuel' text with
  | zero =>
      obtain rfl := List.length_eq_zero_iff.mp (Nat.le_zero.mp h)
      cases fuel' <;> rfl
  | succ fuel ih =>
      cases fuel' with
      | zero =>
          obtain rfl := List.length_eq_zero_iff.mp (Nat.le_zero.mp h')
          rfl
      | succ fuel' =>
          rw [segmentsFrom, segmentsFrom]
          match strstr crlfcrlf text with
          | none => rfl
          | some k =>
              have hdrop : (text.drop (k + 4)).length = text.length - (k + 4) := List.length_drop
              exact congrArg (text.take k :: ·) (ih (by omega) (by omega))

theorem segments_of_none {text : Bytes} (h : strstr crlfcrlf text = none) : segments text = [] := by
  rw [segments]
  cases text.length with
  | zero => rfl
  | succ n => simp only [segmentsFrom, h]

theorem segments_cons {seg rest : Bytes}
    (h : strstr crlfcrlf (seg ++ crlfcrlf ++ rest) = some seg.length) :
    segments (seg ++ crlfcrlf ++ rest) = seg :: segments rest := by
  have hlen : (seg ++ crlfcrlf ++ rest).length = seg.length + 4 + rest.length := by
    rw [List.length_append, List.length_append]
    rfl
  have hrest : (seg ++ crlfcrlf ++ rest).drop (seg.length + 4) = rest := by
    rw [show seg.length + 4 = (seg ++ crlfcrlf).length by
      rw [List.length_append]; rfl, List.drop_left]
  rw [segments, hlen, Nat.add_right_comm, segmentsFrom, h]
  simp only [hrest]
  rw [segmentsFrom_eq (by omega) (Nat.le_refl rest.length), List.append_assoc,
    List.take_left]
  rfl

theorem segments_append_zero (text rest : Bytes) : segments (text ++ 0 :: rest)
    = segments text := by
  induction hn : text.length using Nat.strong_induction_on generalizing text with
  | _ n ih =>
      subst hn
      have hfind := @strstr_append_zero crlfcrlf (by decide) (by decide) text rest
      match h : strstr crlfcrlf text with
      | none => rw [segments_of_none h, segments_of_none (hfind.trans h)]
      | some k =>
          obtain ⟨seg, text', rfl, rfl, -⟩ := exists_segment h
          have hshort : text'.length < (seg ++ crlfcrlf ++ text').length := by
            have : crlfcrlf.length = 4 := rfl
            simp only [List.length_append]
            omega
          rw [segments_cons h, ← ih _ hshort text' rfl, List.append_assoc _ text',
            segments_cons (by rw [← List.append_assoc]; exact hfind.trans h)]

/-! ## Parsing

The parser takes the segments one after the other, each for the next slot of the array. -/

/-- The array of requests, with `slots` parsed and the others zero. -/
def requestArray (slots : List HttpRequest) : List HttpRequest :=
  slots ++ List.replicate (maxRequests - slots.length) .zero

theorem requestArray_getD {slots : List HttpRequest} :
    (requestArray slots).getD slots.length .zero = .zero := by
  rw [requestArray, List.getD_eq_getElem?_getD, List.getElem?_append_right (Nat.le_refl _),
    Nat.sub_self]
  cases maxRequests - slots.length <;> rfl

theorem requestArray_set {slots : List HttpRequest} (h : slots.length < maxRequests)
    (httpr : HttpRequest) :
    (requestArray slots).set slots.length httpr = requestArray (slots ++ [httpr]) := by
  obtain ⟨k, hk⟩ : ∃ k, maxRequests - slots.length = k + 1 :=
    ⟨maxRequests - slots.length - 1, by omega⟩
  have hk' : maxRequests - (slots ++ [httpr]).length = k := by
    rw [List.length_append, List.length_singleton]
    omega
  rw [requestArray, requestArray, hk, hk', List.set_append_right _ _ (Nat.le_refl _), Nat.sub_self,
    List.replicate_succ, List.set_cons_zero, List.append_assoc]
  rfl

theorem requestArray_getElem? {slots : List HttpRequest} {i : Nat} (h : i < slots.length) :
    (requestArray slots)[i]? = slots[i]? :=
  List.getElem?_append_left h

/-- What the requests `segs` come to, the first of them for the slot `slot`. -/
def parseSegments (heap : Nat → Blocks) (slot : Nat) :
    List Bytes → Option (Status × List HttpRequest)
  | [] => some (.ok, [])
  | seg :: segs =>
      match parseSegment (heap slot) slot .zero seg with
      | .ok httpr =>
          if slot < maxRequests then
            (parseSegments heap (slot + 1) segs).map fun (status, slots) => (status, httpr :: slots)
          else none
      | .error (.status status) => some (status, [])
      | .error .undefined => none

/-- **The outer loop on a text**, with the requests `slots` parsed before it. -/
theorem requestLoop_segments (heap : Nat → Blocks) {rest : Bytes} {slots : List HttpRequest}
    {s : RequestLoop} (hat : s.At rest) (hreq : s.requests = requestArray slots)
    (hnum : s.numRequests = slots.length) {fuel : Nat} (hfuel : rest.length < fuel) :
    (Loop.run (requestLoop heap) fuel s).map
        (fun (status, s') => (status, s'.requests, s'.numRequests))
      = (parseSegments heap slots.length (segments rest)).map fun (status, more) =>
          (status, requestArray (slots ++ more), (slots ++ more).length) := by
  induction fuel generalizing rest slots s with
  | zero => cases hfuel
  | succ fuel ih =>
      match hfind : strstr crlfcrlf rest with
      | none =>
          rw [Loop.run_ret (requestLoop_done heap hat hfind), segments_of_none hfind, parseSegments]
          simp only [Option.map_some, List.append_nil, hreq, hnum]
      | some k =>
          obtain ⟨seg, rest', rfl, rfl, hseg⟩ := exists_segment hfind
          have hlen : rest'.length < fuel := by
            have : crlfcrlf.length = 4 := rfl
            simp only [List.length_append] at hfuel
            omega
          have hstep := requestLoop_step heap hat hfind hseg
          have hzero : s.requests.getD s.numRequests .zero = .zero := by
            rw [hreq, hnum, requestArray_getD]
          rw [hzero, hnum] at hstep
          rw [segments_cons hfind, parseSegments]
          match h : parseSegment (heap slots.length) slots.length .zero seg with
          | .error .undefined =>
              rw [h] at hstep
              rw [Loop.run_fault hstep]
              rfl
          | .error (.status status) =>
              rw [h] at hstep
              obtain ⟨data, -, hret⟩ := hstep
              rw [Loop.run_ret hret]
              simp only [Option.map_some, List.append_nil, hreq]
          | .ok httpr =>
              simp only [h] at hstep ⊢
              by_cases hlt : slots.length < maxRequests
              · rw [if_pos hlt] at hstep ⊢
                obtain ⟨s', hnext, hat', hreq', hnum', -⟩ := hstep
                rw [hreq, requestArray_set hlt] at hreq'
                have ih := @ih rest' (slots ++ [httpr]) s' hat' hreq'
                  (by rw [List.length_append, List.length_singleton, hnum']) hlen
                rw [Loop.run_next hnext, ih, List.length_append, List.length_singleton,
                  Option.map_map]
                simp only [Function.comp_def, List.append_assoc, List.singleton_append]
              · rw [if_neg hlt] at hstep ⊢
                rw [Loop.run_fault hstep]
                rfl

/-- **The parse of a text**, on a client without requests. -/
theorem requestToStruct_segments (heap : Nat → Blocks) {c : Client}
    (hreq : c.requests = List.replicate maxRequests .zero) (hnum : c.numRequests = 0) :
    (requestToStruct heap c).map (fun (status, c') => (status, c'.requests, c'.numRequests))
      = (parseSegments heap 0 (segments c.recvBuf.data)).map fun (status, slots) =>
          (status, requestArray slots, slots.length) := by
  have hrun := @requestLoop_segments heap c.recvBuf.data []
    { data := c.recvBuf.data, request := 0, curRequest := strstr crlfcrlf c.recvBuf.data,
      requests := c.requests, numRequests := c.numRequests }
    ⟨rfl, by simp, Nat.zero_le _⟩ hreq hnum (c.recvBuf.data.length + 1) (Nat.lt_succ_self _)
  rw [requestToStruct, Option.map_map]
  exact hrun

section Slots
variable {heap : Nat → Blocks} {c : Client} {status : Status}

theorem requestToStruct_slots (hreq : c.requests = List.replicate maxRequests .zero)
    (hnum : c.numRequests = 0) {c' : Client} (h : requestToStruct heap c = some (status, c')) :
    ∃ slots, parseSegments heap 0 (segments c.recvBuf.data) = some (status, slots) ∧
      c'.requests = requestArray slots ∧ c'.numRequests = slots.length := by
  have heq := requestToStruct_segments heap hreq hnum
  rw [h, Option.map_some] at heq
  obtain ⟨⟨status', slots⟩, hslots, heq⟩ := Option.map_eq_some_iff.mp heq.symm
  simp only [Prod.mk.injEq] at heq
  obtain ⟨rfl, hrequests, hslot⟩ := heq
  exact ⟨slots, hslots, hrequests.symm, hslot.symm⟩

theorem exists_requestToStruct (hreq : c.requests = List.replicate maxRequests .zero)
    (hnum : c.numRequests = 0) {slots : List HttpRequest}
    (h : parseSegments heap 0 (segments c.recvBuf.data) = some (status, slots)) :
    ∃ c', requestToStruct heap c = some (status, c') ∧ c'.requests = requestArray slots ∧
      c'.numRequests = slots.length := by
  have heq := requestToStruct_segments heap hreq hnum
  rw [h, Option.map_some] at heq
  obtain ⟨⟨status', c'⟩, hc', heq⟩ := Option.map_eq_some_iff.mp heq
  simp only [Prod.mk.injEq] at heq
  obtain ⟨rfl, hrequests, hslot⟩ := heq
  exact ⟨c', hc', hrequests, hslot⟩

end Slots

end InternetLabs.EventServer
