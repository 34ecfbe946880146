/-
# `InternetLabs.EventServer.Chunks` — a stream delivered in pieces

The event loop delivers a stream piece by piece, and answers a batch before it takes
the next piece.  `Outcome` is what the batches then come to, with any answers of the
system; `exists_outcome` is that there always is one.

`Client.finish` throws the receive buffer away, with what has come of the next request
in it.  So the requests parsed are those sent exactly if no piece that completes a
request has the beginning of another one: `chunks_iff`.
-/
import InternetLabs.EventServer.Serve
import InternetLabs.EventServer.Stream

namespace InternetLabs.EventServer

open InternetLabs

/-! ## A piece

A stream arrives in pieces, each of which is what `recv` hands over until it would
block. -/

/-- What `recv` hands over during a call is `e`. -/
structure Arrives (script : List RecvOutcome) (e : Bytes) : Prop where
  ordinary : ∀ o ∈ script, o.Ordinary
  delivered : delivered script = e

/-- `e`, byte by byte. -/
def bytewise (e : Bytes) : List RecvOutcome := e.map fun b => .data [b] 0

theorem bytewise_arrives (e : Bytes) : Arrives (bytewise e) e := by
  constructor
  · intro o ho
    obtain ⟨b, -, rfl⟩ := List.mem_map.mp ho
    exact ⟨by simp, by simp⟩
  · induction e with
    | nil => rfl
    | cons b e ih => exact congrArg (b :: ·) ih

theorem Receiving.arrived {p e : Bytes} {c : Client} {script : List RecvOutcome}
    (hp : Receiving p c) (h : Arrives script e) (hlt : (p ++ e).length < bufferMax) :
    ∃ c₁, Receiving (p ++ e) c₁ ∧ ∀ heap w, receiveRequests ⟨script, heap, w⟩ c =
      if strstr crlfcrlf (p ++ e) = none then some (1, c₁)
      else (takeRequests heap w c₁).map fun c => (0, c) := by
  have h' := receiveRequests_arrived hp h.ordinary (by rw [h.delivered]; exact hlt)
  rwa [h.delivered] at h'

theorem Receiving.overrun {p e : Bytes} {c : Client} {script : List RecvOutcome}
    (hp : Receiving p c) (h : Arrives script e) (hge : bufferMax ≤ (p ++ e).length)
    (hnul : (0 : UInt8) ∉ p ++ e) (heap : Nat → Blocks) (w : World) :
    receiveRequests ⟨script, heap, w⟩ c = none := by
  have hdel := recvData_delivered hp h.ordinary
  rw [h.delivered] at hdel
  split at hdel
  next hle =>
    obtain ⟨c₁, hrecv, hc₁⟩ := hdel
    have hfull : bufferMax - (p ++ e).length = 0 := by omega
    have hdata : (0 : UInt8) ∉ c₁.recvBuf.data := by
      rw [hc₁.data, hfull, List.replicate_zero, List.append_nil]
      exact hnul
    simp [receiveRequests, hrecv, hdata]
  next hgt => simp [receiveRequests, hdel]

/-! ## The client between batches -/

theorem recvBuf_kept : Kept (fun _ => True) fun _ _ c => c.recvBuf.data.length = bufferMax where
  send {log acc c script} h hord := by
    obtain ⟨⟨k, hclient⟩, -⟩ := sendData_spec hord c
    rw [hclient]
    exact h
  body {log acc c w c'} h _ _ _ hbuild := by
    change c'.recvBuf.data.length = bufferMax
    rw [(buildBody_frame hbuild).1.recvBuf]
    exact h
  header {log acc c w c'} h _ _ _ _ hbuild := by
    rw [(buildHeader_frame hbuild).recvBuf]
    exact h

/-- After an answer the client receives, and nothing has arrived. -/
theorem answer_receiving {c back : Client} {envs : List SendEnv}
    (hlen : c.recvBuf.data.length = bufferMax) (hord : ∀ env ∈ envs, env.Ordinary fun _ => True)
    (h : (answer envs c).ending = .returned 0 back) : Receiving [] back := by
  have hspec := @Kept.answer _ _ recvBuf_kept [] [] c envs hord hlen
  rw [Sent.Spec, h] at hspec
  obtain ⟨c', hc', -, -, -, rfl⟩ := hspec
  exact Client.finish_receiving hc'

theorem takeRequests_parsed {heap : Nat → Blocks} {w : World} {c c' : Client}
    (h : takeRequests heap w c = some c') : ∃ status c₁, requestToStruct heap c
    = some (status, c₁) ∧
      c'.parsed = c₁.parsed ∧ c'.recvBuf.data.length = c.recvBuf.data.length := by
  obtain ⟨status, c₁, c₂, hparse, hbuild, rfl⟩ := takeRequests_spec h
  have hframe := buildHeader_frame hbuild
  obtain ⟨-, hlen, -⟩ := requestToStruct_spec hparse
  refine ⟨status, c₁, hparse, ?_, ?_⟩
  · simp only [Client.parsed, hframe.requests, hframe.numRequests]
  · change c₂.recvBuf.data.length = _
    rw [hframe.recvBuf]
    exact hlen

/-! ## Outcomes

Clocks, files and blocks of the heap are whatever they are; an outcome is a list of
batches that can come about. -/

/-- **What the batches come to** when the pieces are delivered one after the other, each
batch being answered before the next piece: the requests parsed, or undefined behaviour
(`none`), which is the parser's if it is there whatever the builders see. -/
inductive Outcome : Client → List Bytes → Option (List HttpRequest) → Prop where
  | done {c : Client} : Outcome c [] (some [])
  | more {c c₁ : Client} {env : RecvEnv} {e : Bytes} {es : List Bytes}
      {o : Option (List HttpRequest)} (arrives : Arrives env.script e)
      (h : receiveRequests env c = some (1, c₁)) (rest : Outcome c₁ es o) : Outcome c (e :: es) o
  | batch {c c₁ back : Client} {env : RecvEnv} {envs : List SendEnv} {e : Bytes} {es : List Bytes}
      {o : Option (List HttpRequest)} (arrives : Arrives env.script e)
      (h : receiveRequests env c = some (0, c₁))
      (ordinary : ∀ env ∈ envs, env.Ordinary fun _ => True)
      (answered : (answer envs c₁).ending = .returned 0 back) (rest : Outcome back es o) :
      Outcome c (e :: es) (o.map (c₁.parsed ++ ·))
  | undefined {c : Client} {script : List RecvOutcome} {heap : Nat → Blocks} {e : Bytes}
      {es : List Bytes} (arrives : Arrives script e)
      (h : ∀ w, receiveRequests ⟨script, heap, w⟩ c = none) : Outcome c (e :: es) none

/-! ## There is an outcome

So that a statement about all outcomes says something: a system without files answers
every request with an error page. -/

/-- A system without files, at the start of the epoch. -/
def emptyWorld : World where
  openFile _ := .error .enoent
  now := 0
  date _ := ascii "Thu, 01 Jan 1970 00:00:00 UTC"
  date_length := pageWorld.date_length
  date_printable := pageWorld.date_printable

section EmptyWorld
variable {c c' : Client}

theorem buildHeader_none (h : buildHeader emptyWorld c = none) (w : World) :
    buildHeader w c = none := by
  unfold buildHeader at h ⊢
  split at h
  next hok =>
    rw [if_pos hok]
    cases hrequest : c.requests[c.curRequest]? with
    | none => simp [buildOkHeader, hrequest]
    | some request =>
        cases huri : request.uri with
        | none => simp [buildOkHeader, hrequest, huri]
        | some uri =>
            cases hpath : filepath uri with
            | none => simp [buildOkHeader, hrequest, huri, hpath]
            | some path =>
                -- the file is missing, and there is a page for that
                obtain ⟨c', hc'⟩ := @buildErrorHeader_isSome emptyWorld
                  { c with status := OpenError.enoent.status } rfl
                have hmissing : buildOkHeader emptyWorld c = buildErrorHeader emptyWorld
                    { c with status := OpenError.enoent.status } := by
                  simp only [buildOkHeader, hrequest, huri, hpath, bind, Option.bind]
                  rfl
                rw [hmissing, hc'] at h
                cases h
  next hne =>
    rw [if_neg hne]
    cases htext : errorText c.status with
    | none => simp [buildErrorHeader, htext]
    | some text =>
        obtain ⟨c', hc'⟩ := @buildErrorHeader_isSome emptyWorld c (by rw [htext]; rfl)
        rw [hc'] at h
        cases h

/-- Without files, an answer has an error page for every request. -/
theorem buildHeader_servable (h : buildHeader emptyWorld c = some c') :
    Servable emptyWorld.openFile c' := by
  have herror : c'.status ≠ .ok ∧ (errorText c'.status).isSome := by
    unfold buildHeader at h
    split at h
    · obtain ⟨request, uri, path, -, -, -, hopen⟩ := buildOkHeader_page h
      obtain ⟨hstatus, -⟩ : c'.status = OpenError.enoent.status ∧ _ := hopen
      rw [hstatus]
      decide
    next hne =>
      obtain ⟨p, hpage, -⟩ := buildErrorHeader_page h
      obtain ⟨text, htext, -⟩ := Option.map_eq_some_iff.mp hpage
      rw [(buildErrorHeader_frame h).2, htext]
      exact ⟨hne, rfl⟩
  exact ⟨fun hok => absurd hok herror.1, fun _ => herror.2, fun hok => absurd hok herror.1⟩

theorem takeRequests_none {heap : Nat → Blocks} (h : takeRequests heap emptyWorld c = none)
    (w : World) : takeRequests heap w c = none := by
  cases hparse : requestToStruct heap c with
  | none => simp [takeRequests, hparse]
  | some result =>
      obtain ⟨status, c₁⟩ := result
      cases hbuild : buildHeader emptyWorld
          { c₁ with status := status, sendBuf := c₁.sendBuf.clear } with
      | none => simp [takeRequests, hparse, buildHeader_none hbuild w]
      | some c₂ => simp [takeRequests, hparse, hbuild] at h

theorem takeRequests_empty {heap : Nat → Blocks} (h : takeRequests heap emptyWorld c = some c') :
    Servable emptyWorld.openFile c' ∧ c'.state = .sendingHeaders := by
  obtain ⟨status, c₁, c₂, -, hbuild, rfl⟩ := takeRequests_spec h
  have hservable := buildHeader_servable hbuild
  exact ⟨⟨hservable.safe, hservable.error, hservable.curRequest⟩, rfl⟩

end EmptyWorld

/-- What can come of a piece: undefined behaviour, no full request yet, or a batch that
is answered. -/
inductive Event (p e : Bytes) (c : Client) : Prop where
  | undefined (script : List RecvOutcome) (heap : Nat → Blocks) (arrives : Arrives script e)
      (h : ∀ w, receiveRequests ⟨script, heap, w⟩ c = none)
  | more (env : RecvEnv) (c₁ : Client) (arrives : Arrives env.script e)
      (hfind : strstr crlfcrlf (p ++ e) = none) (hc₁ : Receiving (p ++ e) c₁)
      (h : receiveRequests env c = some (1, c₁))
  | batch (env : RecvEnv) (envs : List SendEnv) (c₀ c₁ c₂ back : Client) (status : Status)
      (arrives : Arrives env.script e) (hfind : strstr crlfcrlf (p ++ e) ≠ none)
      (hc₀ : Receiving (p ++ e) c₀) (hlt : (p ++ e).length < bufferMax)
      (hparse : requestToStruct (fun _ => zeroBlocks) c₀ = some (status, c₂))
      (h : receiveRequests env c = some (0, c₁)) (hparsed : c₁.parsed = c₂.parsed)
      (ordinary : ∀ env ∈ envs, env.Ordinary fun _ => True)
      (answered : (answer envs c₁).ending = .returned 0 back) (hback : Receiving [] back)

theorem exists_event {p e : Bytes} {c : Client} (hp : Receiving p c) (hnul : (0 : UInt8) ∉ p ++ e) :
    Event p e c := by
  have harrives := bytewise_arrives e
  by_cases hlt : (p ++ e).length < bufferMax
  swap
  · exact .undefined _ (fun _ => zeroBlocks) harrives
      fun w => hp.overrun harrives (Nat.le_of_not_lt hlt) hnul _ w
  obtain ⟨c₀, hc₀, hrecv⟩ := hp.arrived harrives hlt
  by_cases hfind : strstr crlfcrlf (p ++ e) = none
  · refine .more ⟨bytewise e, fun _ => zeroBlocks, emptyWorld⟩ c₀ harrives hfind hc₀ ?_
    rw [hrecv, if_pos hfind]
  simp only [if_neg hfind] at hrecv
  cases htake : takeRequests (fun _ => zeroBlocks) emptyWorld c₀ with
  | none =>
      refine .undefined _ (fun _ => zeroBlocks) harrives fun w => ?_
      rw [hrecv, takeRequests_none htake w]
      rfl
  | some c₁ =>
      obtain ⟨status, c₂, hparse, hparsed, hlen⟩ := takeRequests_parsed htake
      have htaken : receiveRequests ⟨bytewise e, fun _ => zeroBlocks, emptyWorld⟩ c
          = some (0, c₁) := by
        rw [hrecv, htake]
        rfl
      obtain ⟨hservable, hstate⟩ := takeRequests_empty htake
      obtain ⟨envs, hord, back, hback⟩ := hservable.exists_answer hstate rfl
      have hord' : ∀ env ∈ envs, env.Ordinary fun _ => True :=
        fun env henv => ⟨(hord env henv).script, trivial, trivial⟩
      exact .batch _ envs c₀ c₁ c₂ back status harrives hfind hc₀ hlt hparse htaken hparsed hord'
        hback (answer_receiving (hlen.trans hc₀.data_length) hord' hback)

/-- The bytes that have come hold as many requests as are parsed at least. -/
theorem Receiving.parsed_le {q : Bytes} {c c' : Client} {heap : Nat → Blocks} {status : Status}
    (h : Receiving q c) (hlt : q.length < bufferMax)
    (hparse : requestToStruct heap c = some (status, c')) :
    c'.parsed.length ≤ occurrences crlfcrlf q := by
  obtain ⟨zeros, hzeros, hdata⟩ := h.data_eq hlt
  obtain ⟨-, -, hnum⟩ := requestToStruct_spec hparse
  have hnone : occurrences crlfcrlf zeros = 0 := by
    have hskip : ∀ b ∈ zeros, b ≠ 13 := fun b hb => by
      rw [hzeros] at hb
      rw [List.eq_of_mem_replicate hb]
      decide
    rw [← List.append_nil zeros]
    exact occurrences_skip hskip []
  rw [hdata, occurrences_append_zero (by decide) (by decide), hnone, h.numRequests] at hnum
  rw [Client.parsed, List.length_take]
  omega

/-- **There always is an outcome**, and it has no more requests than the stream has. -/
theorem exists_outcome {p : Bytes} {c : Client} (hp : Receiving p c) (es : List Bytes)
    (hnul : (0 : UInt8) ∉ p ++ es.flatten) : ∃ o, Outcome c es o ∧
      ∀ requests, o = some requests → requests.length ≤ occurrences crlfcrlf (p ++ es.flatten) := by
  induction es generalizing p c with
  | nil => exact ⟨some [], .done, fun _ h => by cases h; exact Nat.zero_le _⟩
  | cons e es ih =>
      rw [List.flatten_cons, ← List.append_assoc] at hnul ⊢
      have hnul' := List.mem_append.not.mp hnul
      rcases exists_event hp (not_or.mp hnul').1 with
        ⟨script, heap, harrives, h⟩ | ⟨env, c₁, harrives, -, hc₁, h⟩ |
        ⟨env, envs, c₀, c₁, c₂, back, status, harrives, -, hc₀, hlt, hparse, h, hparsed, hord,
          hback, hreceiving⟩
      · exact ⟨none, .undefined harrives h, nofun⟩
      · obtain ⟨o, ho, hle⟩ := ih hc₁ hnul
        exact ⟨o, .more harrives h ho, hle⟩
      · obtain ⟨o, ho, hle⟩ := ih hreceiving (not_or.mp hnul').2
        refine ⟨_, .batch harrives h hord hback ho, fun requests hr => ?_⟩
        obtain ⟨more, rfl, rfl⟩ := Option.map_eq_some_iff.mp hr
        have hle := hle more rfl
        have hparsedLe := hc₀.parsed_le hlt hparse
        have hsum := occurrences_append_le crlfcrlf (p ++ e) es.flatten
        rw [List.nil_append] at hle
        rw [List.length_append, hparsed]
        omega

/-! ## A request whose beginning is thrown away

After a batch the buffer is cleared, with what may have arrived of the next request. -/

theorem occurrences_part {k : Nat} (hk : 0 < k) {m : Bytes} (hm : m.head? ≠ some 13) :
    occurrences crlfcrlf (crlfcrlf.drop k ++ m) = occurrences crlfcrlf m := by
  by_cases hlt : k < 4
  swap
  · rw [List.drop_of_length_le (by simpa [crlfcrlf] using hlt), List.nil_append]
  interval_cases k <;>
  · cases m with
    | nil => rfl
    | cons b m =>
        have hb : b ≠ 13 := by simpa using hm
        simp [crlfcrlf, occurrences, List.isPrefixOf, Ne.symm hb]

/-- The parts of a request that is cut. -/
theorem Request.cut (r : Request) {z v : Bytes} (hr : r.render = z ++ v) :
    v.length < 4 ∧ (∃ k, v = crlfcrlf.drop k ∧ k + v.length = 4) ∨
      ∃ seg, v = seg ++ crlfcrlf ∧ z ++ seg = segment r.lines := by
  have hfour : crlfcrlf.length = 4 := rfl
  have hv : v <:+ r.render := ⟨z, hr.symm⟩
  have hend : crlfcrlf <:+ r.render := ⟨_, r.render_eq.symm⟩
  by_cases hlt : v.length < 4
  · obtain ⟨w, hw⟩ := List.suffix_of_suffix_length_le hv hend (by omega)
    have hlen := congrArg List.length hw
    rw [List.length_append, hfour] at hlen
    refine .inl ⟨hlt, w.length, ?_, hlen⟩
    rw [← hw, List.drop_left]
  · obtain ⟨seg, hseg⟩ := List.suffix_of_suffix_length_le hend hv (by omega)
    refine .inr ⟨seg, hseg.symm, ?_⟩
    rw [r.render_eq, ← hseg, ← List.append_assoc] at hr
    exact (List.append_cancel_right hr).symm

/-- What is left of a request whose beginning is lost is parsed to another slot, or it is
refused. -/
theorem exists_lost_end {r : Request} {tail : List Request} {z seg : Bytes} (hz : z ≠ [])
    (hseg : z ++ seg = segment r.lines)
    (hfull : strstr crlfcrlf (seg ++ crlfcrlf ++ renderAll tail) = some seg.length)
    (hnul : (0 : UInt8) ∉ seg ++ crlfcrlf ++ renderAll tail)
    (hocc : occurrences crlfcrlf (seg ++ crlfcrlf ++ renderAll tail) ≤ tail.length + 1)
    {es : List Bytes} {p : Bytes} {c : Client} (hp : Receiving p c)
    (hfind : strstr crlfcrlf p = none)
    (hstream : p ++ es.flatten = seg ++ crlfcrlf ++ renderAll tail) :
    ∃ o, Outcome c es o ∧ o ≠ some ((r :: tail).map Request.slot) := by
  induction es generalizing p c with
  | nil => exact ⟨_, .done, by simp⟩
  | cons e es ih =>
      rw [List.flatten_cons, ← List.append_assoc] at hstream
      have hnul' : (0 : UInt8) ∉ p ++ e ++ es.flatten := by rw [hstream]; exact hnul
      have hnuls := not_or.mp (List.mem_append.not.mp hnul')
      rcases exists_event hp hnuls.1 with
        ⟨script, heap, harrives, h⟩ | ⟨env, c₁, harrives, hfind₁, hc₁, h⟩ |
        ⟨env, envs, c₀, c₁, c₂, back, status, harrives, hfound, hc₀, hlt, hparse, h, hparsed,
          hord, hback, hreceiving⟩
      · exact ⟨none, .undefined harrives h, nofun⟩
      · obtain ⟨o, ho, hne⟩ := ih hc₁ hfind₁ hstream
        exact ⟨o, .more harrives h ho, hne⟩
      · obtain ⟨o, ho, hle⟩ := exists_outcome hreceiving es hnuls.2
        refine ⟨_, .batch harrives h hord hback ho, fun heq => ?_⟩
        obtain ⟨more, rfl, hmore⟩ := Option.map_eq_some_iff.mp heq
        -- the first text parsed is what is left of the request
        obtain ⟨k, hk⟩ := Option.ne_none_iff_exists'.mp hfound
        have hk' := strstr_of_prefix (by decide) ⟨es.flatten, hstream⟩ hk
        rw [hfull] at hk'
        cases hk'
        obtain ⟨seg', rest, hq, hlen, -⟩ := exists_segment hk
        have hseg' : seg' = seg := by
          rw [hq] at hstream
          simp only [List.append_assoc] at hstream
          exact (List.append_inj hstream hlen).1
        subst hseg'
        obtain ⟨zeros, -, hdata⟩ := hc₀.data_eq hlt
        have hdata' : c₀.recvBuf.data = seg' ++ crlfcrlf ++ (rest ++ 0 :: zeros) := by
          rw [hdata, hq]
          simp only [List.append_assoc]
        have hfind' := strstr_append_zero (by decide) (by decide : (0 : UInt8) ∉ crlfcrlf)
          (p ++ e) zeros
        rw [← hdata, hdata', hk] at hfind'
        rcases requestToStruct_first hdata' hfind' hc₀.requests hc₀.numRequests hparse with
          hnone | ⟨slot, others, hslot, hfirst⟩
        · -- it is refused, and nothing else of the piece is parsed
          have hle := hle more rfl
          have hpos := occurrences_pos (by decide) hk
          have hsum := occurrences_append_le crlfcrlf (p ++ e) es.flatten
          rw [hstream] at hsum
          rw [hparsed, hnone, List.nil_append] at hmore
          rw [hmore, List.length_map, List.length_cons, List.nil_append] at hle
          omega
        · rw [hparsed, hfirst, List.cons_append, List.map_cons] at hmore
          obtain ⟨rfl, -⟩ := List.cons.inj hmore
          exact parseSegment_cut r hz hseg hslot rfl

/-- **A client that has lost the beginning of a request** can come to other requests than
those that follow. -/
theorem exists_lost {r : Request} {tail : List Request} {z v : Bytes} (hz : z ≠ [])
    (hv : v ≠ []) (hr : r.render = z ++ v) {c : Client} (hc : Receiving [] c) {es : List Bytes}
    (hstream : es.flatten = v ++ renderAll tail) :
    ∃ o, Outcome c es o ∧ o ≠ some ((r :: tail).map Request.slot) := by
  have hall : renderAll (r :: tail) = z ++ (v ++ renderAll tail) := by
    rw [renderAll_cons, hr, List.append_assoc]
  have hnul : (0 : UInt8) ∉ v ++ renderAll tail := fun h =>
    renderAll_noNul (r :: tail) (hall ▸ List.mem_append_right z h)
  -- as many requests as follow can be found at most
  have hocc : occurrences crlfcrlf (v ++ renderAll tail) ≤ tail.length + 1 := by
    have hsum := occurrences_append_le crlfcrlf z (v ++ renderAll tail)
    rw [← hall, occurrences_renderAll, List.length_cons] at hsum
    omega
  rcases r.cut hr with ⟨hlt, k, rfl, hk⟩ | ⟨seg, rfl, hseg⟩
  · -- the end of the request is not seen
    have hkpos : 0 < k := by omega
    obtain ⟨o, ho, hle⟩ := exists_outcome hc es (by rw [List.nil_append, hstream]; exact hnul)
    refine ⟨o, ho, fun heq => ?_⟩
    have hle := hle _ heq
    rw [List.nil_append, hstream, occurrences_part hkpos (head?_renderAll tail),
      occurrences_renderAll, List.length_map, List.length_cons] at hle
    omega
  · have hfull : strstr crlfcrlf (seg ++ crlfcrlf ++ renderAll tail) = some seg.length := by
      have hend := strstr_renderAll r tail []
      rw [List.append_nil, hall] at hend
      obtain ⟨-, -, hfirst⟩ := (strstr_eq_some_iff (by decide)).mp hend
      have hlen := congrArg List.length hseg
      rw [List.length_append] at hlen
      refine (strstr_eq_some_iff (by decide)).mpr
        ⟨fun h => hnul (List.mem_of_mem_take h), ?_, fun j hj hat => ?_⟩
      · rw [List.append_assoc, List.drop_left]
        exact List.prefix_append _ _
      · refine hfirst (z.length + j) (by omega) ?_
        rwa [← List.drop_drop, List.drop_left]
    exact exists_lost_end hz hseg hfull hnul hocc hc rfl (by rw [List.nil_append, hstream])

/-! ## The result

A piece that completes no request waits for more.  One that does must end where a
request ends, and what it completes must fit. -/

/-- There is room for what is pending, and a slot for every complete request. -/
def Cut.Fits (cut : Cut) : Prop := cut.pending < bufferMax ∧ cut.complete ≤ maxRequests

/-- Nothing is left behind the requests that are complete, if there are any. -/
def Cut.Whole (cut : Cut) : Prop := 0 < cut.complete → cut.left = 0

instance (cut : Cut) : Decidable cut.Fits := inferInstanceAs (Decidable (_ ∧ _))

instance (cut : Cut) : Decidable cut.Whole := inferInstanceAs (Decidable (_ → _))

section Batch
variable {bs : List Request} {z : Bytes} {c : Client}

/-- The requests parsed of a batch that part of a request follows. -/
theorem requestToStruct_parsed (hc : Receiving (renderAll bs ++ z) c)
    (hlt : (renderAll bs ++ z).length < bufferMax) (hz : strstr crlfcrlf z = none)
    (hlen : bs.length ≤ maxRequests) (heap : Nat → Blocks) :
    (requestToStruct heap c).map (fun (status, c') => (status, c'.parsed)) = parseBatch bs := by
  obtain ⟨zeros, -, hdata⟩ := hc.data_eq hlt
  have hz' : strstr crlfcrlf (z ++ 0 :: zeros) = none := by
    rw [strstr_append_zero (by decide) (by decide), hz]
  have hbatch := requestToStruct_batch heap hz' hlen (by rw [hdata, List.append_assoc])
    hc.requests hc.numRequests
  cases hslots : parseBatch bs with
  | none =>
      rw [hslots, Option.map_none, Option.map_eq_none_iff] at hbatch
      rw [hbatch, Option.map_none]
  | some result =>
      obtain ⟨status, slots⟩ := result
      rw [hslots] at hbatch
      obtain ⟨⟨status', c'⟩, hparse, heq⟩ := Option.map_eq_some_iff.mp hbatch
      simp only [Prod.mk.injEq] at heq
      obtain ⟨rfl, hrequests, hnum⟩ := heq
      simp only [hparse, Option.map_some, Client.parsed, hrequests, hnum, requestArray,
        List.take_left]

theorem parseBatch_full {status : Status} {slots : List HttpRequest}
    (h : parseBatch bs = some (status, slots)) (hfull : bs.length ≤ slots.length)
    (hsize : (renderAll bs).length < bufferMax) : ∀ r ∈ bs, r.Accepted ∧ r.Fits := by
  obtain ⟨hslots, hend⟩ := parseBatch_cases h
  have hall : slots.length = bs.length := by
    rcases hend with ⟨hall, -⟩ | ⟨r, hr, -⟩
    · exact hall
    · obtain ⟨hlt, -⟩ := List.getElem?_eq_some_iff.mp hr
      omega
  intro r hr
  obtain ⟨i, hi, rfl⟩ := List.mem_iff_getElem.mp hr
  obtain ⟨r', hr', ho⟩ := hslots i slots[i] (List.getElem?_eq_getElem (by omega))
  rw [List.getElem?_eq_getElem hi] at hr'
  cases hr'
  have hlt : bs[i].render.length < bufferMax := by
    have := render_length_le hr
    omega
  rcases bs[i].outcome_cases with h' | ⟨-, h'⟩ | ⟨hacc, -⟩
  · rw [ho] at h'; cases h'
  · rw [ho] at h'; cases h'
  · refine ⟨hacc, ?_⟩
    by_contra hfits
    rw [Request.outcome_eq hlt hacc, if_neg hfits] at ho
    cases ho

end Batch

section Piece
variable {p e : Bytes} {c : Client} {es : List Bytes} {T : Prop}

theorem outcomes_more (hp : Receiving p c) (hlt : (p ++ e).length < bufferMax)
    (hfind : strstr crlfcrlf (p ++ e) = none) {x : Option (List HttpRequest)}
    (hrest : ∀ {c₁}, Receiving (p ++ e) c₁ → ((∀ o, Outcome c₁ es o → o = x) ↔ T)) :
    (∀ o, Outcome c (e :: es) o → o = x) ↔ T := by
  constructor
  · intro h
    have harrives := bytewise_arrives e
    obtain ⟨c₁, hc₁, hrecv⟩ := hp.arrived harrives hlt
    have hmore := hrecv (fun _ => zeroBlocks) emptyWorld
    rw [if_pos hfind] at hmore
    exact (hrest hc₁).mp fun o ho => h o (.more harrives hmore ho)
  · intro hT o ho
    cases ho with
    | @more _ c₁' env _ _ _ arrives h rest =>
        obtain ⟨c₁, hc₁, hrecv⟩ := hp.arrived arrives hlt
        have h' := hrecv env.heap env.world
        rw [if_pos hfind] at h'
        cases h.symm.trans h'
        exact (hrest hc₁).mpr hT o rest
    | @batch _ c₁' _ env _ _ _ _ arrives h =>
        obtain ⟨c₁, -, hrecv⟩ := hp.arrived arrives hlt
        have h' := hrecv env.heap env.world
        rw [if_pos hfind] at h'
        cases h.symm.trans h'
    | @undefined _ script heap _ _ arrives h =>
        obtain ⟨c₁, -, hrecv⟩ := hp.arrived arrives hlt
        have h' := hrecv heap emptyWorld
        rw [if_pos hfind] at h'
        cases (h emptyWorld).symm.trans h'

section Later
variable {back : Client} (hback : Receiving [] back)
include hback

/-- So many requests come later at most that a batch recorded in full is parsed in full. -/
theorem length_le_parsed {bs tail : List Request} {z : Bytes}
    (htail : z ++ es.flatten = renderAll tail) (hnul : (0 : UInt8) ∉ es.flatten)
    {parsed : List HttpRequest} (hrun : ∀ o, Outcome back es o →
      o.map (parsed ++ ·) = some ((bs ++ tail).map Request.slot)) :
    bs.length ≤ parsed.length := by
  obtain ⟨o, ho, hle⟩ := exists_outcome hback es hnul
  obtain ⟨more, rfl, hmore⟩ := Option.map_eq_some_iff.mp (hrun o ho)
  have hlen := congrArg List.length hmore
  have hle := hle more rfl
  have hsum := occurrences_append_le crlfcrlf z es.flatten
  rw [htail, occurrences_renderAll] at hsum
  rw [List.nil_append] at hle
  simp only [List.length_append, List.length_map] at hlen
  omega

/-- If the requests that follow are recorded, no part of one has come with the batch. -/
theorem eq_nil_of_recorded {tail : List Request} {z : Bytes} (hz : Unfinished z tail)
    (htail : z ++ es.flatten = renderAll tail)
    (hlater : ∀ o, Outcome back es o → o = some (tail.map Request.slot)) : z = [] := by
  by_contra hne
  cases tail with
  | nil => exact hne hz.nil
  | cons r tail =>
      obtain ⟨v, hv, hr⟩ := hz.cons
      rw [renderAll_cons, hr, List.append_assoc] at htail
      obtain ⟨o, ho, hlost⟩ := exists_lost hne hv hr hback (List.append_cancel_left htail)
      exact hlost (hlater o ho)

end Later

section Completed
variable {bs tail : List Request} {z : Bytes}

theorem strstr_batch (hq : p ++ e = renderAll bs ++ z) (hpos : bs ≠ []) :
    strstr crlfcrlf (p ++ e) ≠ none := by
  obtain ⟨r, bs, rfl⟩ := List.exists_cons_of_ne_nil hpos
  rw [hq, strstr_renderAll]
  exact Option.some_ne_none _

theorem renderAll_lt (hq : p ++ e = renderAll bs ++ z) (hlt : (p ++ e).length < bufferMax) :
    (renderAll bs).length < bufferMax := by
  rw [hq, List.length_append] at hlt
  omega

theorem parseBatch_good (hsize : (renderAll bs).length < bufferMax)
    (hgood : ∀ r ∈ bs, r.Accepted ∧ r.Fits) : parseBatch bs = some (.ok, bs.map Request.slot) :=
  parseBatch_eq_slots fun r hr => ⟨Nat.lt_of_le_of_lt (render_length_le hr) hsize, hgood r hr⟩

theorem parsed_batch (hq : p ++ e = renderAll bs ++ z) (hz : Unfinished z tail)
    (hlt : (p ++ e).length < bufferMax) (hmax : bs.length ≤ maxRequests) {c₀ : Client}
    (hc₀ : Receiving (p ++ e) c₀) (heap : Nat → Blocks) :
    (requestToStruct heap c₀).map (fun (status, c') => (status, c'.parsed)) = parseBatch bs :=
  requestToStruct_parsed (hq ▸ hc₀) (hq ▸ hlt) hz.strstr hmax heap

/-- **If all are recorded**, the batch is good, nothing is left over, and the client that
comes back records the others. -/
theorem whole_of_outcomes (hp : Receiving p c) (hq : p ++ e = renderAll bs ++ z)
    (hz : Unfinished z tail) (htail : z ++ es.flatten = renderAll tail) (hpos : bs ≠ [])
    (hlt : (p ++ e).length < bufferMax) (hmax : bs.length ≤ maxRequests)
    (h : ∀ o, Outcome c (e :: es) o → o = some ((bs ++ tail).map Request.slot)) :
    (∀ r ∈ bs, r.Accepted ∧ r.Fits) ∧ z = [] ∧ ∃ back, Receiving [] back ∧
      ∀ o, Outcome back es o → o = some (tail.map Request.slot) := by
  have hnul : (0 : UInt8) ∉ p ++ e ++ es.flatten := by
    rw [hq, List.append_assoc, htail, List.mem_append]
    exact not_or.mpr ⟨renderAll_noNul bs, renderAll_noNul tail⟩
  have hnuls := not_or.mp (List.mem_append.not.mp hnul)
  rcases exists_event hp hnuls.1 with
    ⟨script, heap, harrives, hnone⟩ | ⟨env, c₁, -, hnone, -, -⟩ |
    ⟨env, envs, c₀, c₁, c₂, back, status, harrives, -, hc₀, -, hparse, hrecv, hp₂, hord, hback,
      hreceiving⟩
  · cases h none (.undefined harrives hnone)
  · exact absurd hnone (strstr_batch hq hpos)
  have hbatch : some (status, c₁.parsed) = parseBatch bs := by
    rw [← parsed_batch hq hz hlt hmax hc₀ fun _ => zeroBlocks, hparse, hp₂]
    rfl
  have hrun : ∀ o, Outcome back es o →
      o.map (c₁.parsed ++ ·) = some ((bs ++ tail).map Request.slot) :=
    fun o ho => h _ (.batch harrives hrecv hord hback ho)
  have hfull := length_le_parsed hreceiving htail hnuls.2 hrun
  have hgood := parseBatch_full hbatch.symm hfull (renderAll_lt hq hlt)
  have heq := hbatch.trans (parseBatch_good (renderAll_lt hq hlt) hgood)
  simp only [Option.some.injEq, Prod.mk.injEq] at heq
  have hlater : ∀ o, Outcome back es o → o = some (tail.map Request.slot) := by
    intro o ho
    obtain ⟨more, rfl, hmore⟩ := Option.map_eq_some_iff.mp (hrun o ho)
    rw [heq.2, List.map_append] at hmore
    rw [List.append_cancel_left hmore]
  exact ⟨hgood, eq_nil_of_recorded hreceiving hz htail hlater, back, hreceiving, hlater⟩

theorem not_undefined_batch (hp : Receiving p c) (hq : p ++ e = renderAll bs) (hpos : bs ≠ [])
    (hlt : (p ++ e).length < bufferMax) (hmax : bs.length ≤ maxRequests)
    (hgood : ∀ r ∈ bs, r.Accepted ∧ r.Fits) {script : List RecvOutcome} {heap : Nat → Blocks}
    (harrives : Arrives script e)
    (hnone : ∀ world, receiveRequests { script := script, heap := heap, world := world } c = none) :
    False := by
  obtain ⟨c₀, hc₀, hrecv⟩ := hp.arrived harrives hlt
  have hrun := hrecv heap emptyWorld
  rw [if_neg (strstr_batch (hq.trans (List.append_nil _).symm) hpos), hnone emptyWorld] at hrun
  have hsize : (renderAll bs).length < bufferMax := hq ▸ hlt
  have hsafe : ∀ r ∈ bs, r.Safe emptyWorld.openFile := fun r hr => by
    obtain ⟨hacc, hfits⟩ := hgood r hr
    have hmethods : ∀ m ∈ methods, m.length < 16 := by decide
    exact ⟨hmethods _ hacc.1, by rw [hacc.2]; decide, hfits, fun _ _ _ hfile => by cases hfile⟩
  obtain ⟨zeros, -, hdata⟩ := hc₀.data_eq hlt
  rw [hq] at hdata
  obtain ⟨taken, htake, -⟩ := takeRequests_servable hpos hmax hsafe hsize
    (by rfl : strstr crlfcrlf (0 :: zeros) = none) hdata hc₀.requests hc₀.numRequests
    hc₀.curRequest heap rfl
  rw [htake] at hrun
  cases hrun

/-- **A good batch with nothing left over** is recorded, and what follows after it. -/
theorem outcome_of_whole (hp : Receiving p c) (hq : p ++ e = renderAll bs) (hpos : bs ≠ [])
    (hlt : (p ++ e).length < bufferMax) (hmax : bs.length ≤ maxRequests)
    (hgood : ∀ r ∈ bs, r.Accepted ∧ r.Fits)
    (hlater : ∀ {back}, Receiving [] back →
      ∀ o, Outcome back es o → o = some (tail.map Request.slot))
    {o : Option (List HttpRequest)} (ho : Outcome c (e :: es) o) :
    o = some ((bs ++ tail).map Request.slot) := by
  have hq' : p ++ e = renderAll bs ++ [] := hq.trans (List.append_nil _).symm
  have hfind := strstr_batch hq' hpos
  cases ho with
  | @more _ c₁' env _ _ _ arrives h rest =>
      obtain ⟨c₁, -, hrecv⟩ := hp.arrived arrives hlt
      have h' := hrecv env.heap env.world
      rw [if_neg hfind] at h'
      obtain ⟨c₂, -, h'⟩ := Option.map_eq_some_iff.mp (h'.symm.trans h)
      cases h'
  | @batch _ c₁' back env envs _ _ _ arrives h ordinary answered rest =>
      obtain ⟨c₀, hc₀, hrecv⟩ := hp.arrived arrives hlt
      have h' := hrecv env.heap env.world
      rw [if_neg hfind] at h'
      obtain ⟨c₁, htake, h'⟩ := Option.map_eq_some_iff.mp (h'.symm.trans h)
      cases h'
      obtain ⟨status, c₂, hparse, hp₂, hlen⟩ := takeRequests_parsed htake
      have hbatch := parsed_batch hq' (Unfinished.nil_left tail) hlt hmax hc₀ env.heap
      rw [hparse, parseBatch_good (hq ▸ hlt) hgood] at hbatch
      simp only [Option.map_some, Option.some.injEq, Prod.mk.injEq] at hbatch
      have hback := answer_receiving (hlen.trans hc₀.data_length) ordinary answered
      rw [hlater hback _ rest, hp₂, hbatch.2, Option.map_some, List.map_append]
  | undefined arrives h => exact (not_undefined_batch hp hq hpos hlt hmax hgood arrives h).elim

theorem outcomes_batch (hp : Receiving p c) (hq : p ++ e = renderAll bs ++ z)
    (hz : Unfinished z tail) (htail : z ++ es.flatten = renderAll tail) (hpos : bs ≠ [])
    (hlt : (p ++ e).length < bufferMax) (hmax : bs.length ≤ maxRequests)
    (hrest : z = [] → ∀ {back}, Receiving [] back →
      ((∀ o, Outcome back es o → o = some (tail.map Request.slot)) ↔ T)) :
    (∀ o, Outcome c (e :: es) o → o = some ((bs ++ tail).map Request.slot)) ↔
      (∀ r ∈ bs, r.Accepted ∧ r.Fits) ∧ z = [] ∧ T := by
  constructor
  · intro h
    obtain ⟨hgood, hnothing, back, hback, hlater⟩ :=
      whole_of_outcomes hp hq hz htail hpos hlt hmax h
    exact ⟨hgood, hnothing, (hrest hnothing hback).mp hlater⟩
  · rintro ⟨hgood, rfl, hT⟩ o ho
    rw [List.append_nil] at hq
    exact outcome_of_whole hp hq hpos hlt hmax hgood (fun hback => (hrest rfl hback).mpr hT) ho

end Completed

end Piece

/-- The outcomes from a client to which `p` has come of the stream of `rs`. -/
theorem outcomes_iff {rs : List Request} {p : Bytes} {c : Client} {es : List Bytes}
    (hp : Receiving p c) (hun : Unfinished p rs) (hstream : p ++ es.flatten = renderAll rs)
    (hfits : ∀ cut ∈ cuts rs p.length es, cut.Fits) :
    (∀ o, Outcome c es o → o = some (rs.map Request.slot)) ↔
      (∀ r ∈ rs, r.Accepted ∧ r.Fits) ∧ ∀ cut ∈ cuts rs p.length es, cut.Whole := by
  induction es generalizing rs p c with
  | nil =>
      rw [List.flatten_nil, List.append_nil] at hstream
      cases rs with
      | nil =>
          refine iff_of_true (fun o ho => ?_) ⟨fun r hr => ?_, fun cut hcut => ?_⟩
          · cases ho
            rfl
          · cases hr
          · cases hcut
      | cons r rs =>
          have hlt := hun.short r rfl
          rw [hstream, renderAll_cons, List.length_append] at hlt
          omega
  | cons e es ih =>
      rw [List.flatten_cons, ← List.append_assoc] at hstream
      obtain ⟨z, hq, hz⟩ := exists_complete (⟨es.flatten, hstream⟩ : p ++ e <+: renderAll rs)
      obtain ⟨k, hk⟩ : ∃ k, k = completeIn rs (p ++ e).length := ⟨_, rfl⟩
      rw [← hk] at hq hz
      have hleft : (p ++ e).length - (renderAll (rs.take k)).length = z.length := by
        rw [hq, List.length_append, Nat.add_sub_cancel_left]
      rw [cuts, ← List.length_append, ← hk, hleft, List.forall_mem_cons] at hfits
      obtain ⟨⟨hlt, hmax⟩, hfits⟩ := hfits
      simp only at hlt hmax
      rw [cuts, ← List.length_append, ← hk, hleft, List.forall_mem_cons]
      have hsplit : renderAll rs = renderAll (rs.take k) ++ renderAll (rs.drop k) := by
        rw [← renderAll_append, List.take_append_drop]
      have htail : z ++ es.flatten = renderAll (rs.drop k) := by
        rw [hq, hsplit, List.append_assoc] at hstream
        exact List.append_cancel_left hstream
      by_cases hk0 : k = 0
      · subst hk0
        rw [List.take_zero, renderAll, List.map_nil, List.flatten_nil, List.nil_append] at hq
        subst hq
        rw [List.drop_zero] at hz hfits ⊢
        rw [outcomes_more hp hlt hz.strstr fun hc₁ => ih hc₁ hz hstream hfits]
        simp [Cut.Whole]
      · have hpos : rs.take k ≠ [] := by
          cases rs with
          | nil => exact absurd hk hk0
          | cons r rs =>
              obtain ⟨k, rfl⟩ := Nat.exists_eq_succ_of_ne_zero hk0
              exact List.cons_ne_nil _ _
        have hlater : z = [] → ∀ {back}, Receiving [] back →
            ((∀ o, Outcome back es o → o = some ((rs.drop k).map Request.slot)) ↔
              (∀ r ∈ rs.drop k, r.Accepted ∧ r.Fits) ∧
                ∀ cut ∈ cuts (rs.drop k) z.length es, cut.Whole) := by
          rintro rfl back hback
          exact ih hback (Unfinished.nil_left _) htail hfits
        have hiff := outcomes_batch hp hq hz htail hpos hlt (by rw [List.length_take]; omega) hlater
        have hall : (∀ r ∈ rs, r.Accepted ∧ r.Fits) ↔
            (∀ r ∈ rs.take k, r.Accepted ∧ r.Fits) ∧ ∀ r ∈ rs.drop k, r.Accepted ∧ r.Fits := by
          rw [← List.forall_mem_append, List.take_append_drop]
        have hwhole : Cut.Whole ⟨(p ++ e).length, k, z.length⟩ ↔ z = [] := by
          simp [Cut.Whole, Nat.pos_of_ne_zero hk0]
        rw [List.take_append_drop] at hiff
        rw [hiff, hall, hwhole]
        constructor
        · rintro ⟨h₁, h₂, h₃, h₄⟩
          exact ⟨⟨h₁, h₃⟩, h₂, h₄⟩
        · rintro ⟨⟨h₁, h₃⟩, h₂, h₄⟩
          exact ⟨h₁, h₂, h₃, h₄⟩

/-- **A stream in pieces.**  The requests parsed are those sent, whatever the system
answers, exactly if the parser takes them and every piece that completes a request ends
with one. -/
theorem chunks_iff {rs : List Request} {es : List Bytes} (hstream : es.flatten = renderAll rs)
    (hfits : ∀ cut ∈ cuts rs 0 es, cut.Fits) (now : Int) :
    (∃ o, Outcome (newClient now) es o) ∧
      ((∀ o, Outcome (newClient now) es o → o = some (rs.map Request.slot)) ↔
        (∀ r ∈ rs, r.Accepted ∧ r.Fits) ∧ ∀ cut ∈ cuts rs 0 es, cut.Whole) := by
  have hnew := newClient_receiving now
  obtain ⟨o, ho, -⟩ := exists_outcome hnew es (by
    rw [List.nil_append, hstream]
    exact renderAll_noNul rs)
  exact ⟨⟨o, ho⟩, outcomes_iff hnew (Unfinished.nil_left rs) (by rwa [List.nil_append]) hfits⟩

/-- A request in two pieces is parsed. -/
theorem splitRequest_parsed :
    ∃ o, Outcome (newClient 0) [ascii "GE", ascii "T / HTTP/1.1" ++ crlfcrlf] o ∧
      o = some [getRoot.slot] := by
  have hboth := @chunks_iff [getRoot] [ascii "GE", ascii "T / HTTP/1.1" ++ crlfcrlf]
    (by decide) (by decide) 0
  obtain ⟨o, ho⟩ := hboth.1
  exact ⟨o, ho, hboth.2.mpr ⟨by decide, by decide⟩ o ho⟩

/-- A piece with a request and the beginning of the next: the second request is not
parsed. -/
theorem splitSecond_lost :
    ¬ ∀ o, Outcome (newClient 0) [getRoot.render ++ ascii "GET",
    ascii " / HTTP/1.1" ++ crlfcrlf] o →
      o = some ([getRoot, getRoot].map Request.slot) := by
  have hiff := @outcomes_iff [getRoot, getRoot] [] (newClient 0)
    [getRoot.render ++ ascii "GET", ascii " / HTTP/1.1" ++ crlfcrlf]
    (newClient_receiving 0) (.nil_left _) (by decide) (by decide)
  rw [hiff]
  decide

end InternetLabs.EventServer
