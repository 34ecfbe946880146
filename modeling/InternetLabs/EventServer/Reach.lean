/-
# `InternetLabs.EventServer.Reach` — the clients of the event loop

The loop calls `receive_requests` on a client that receives and `send_responses`
on one that sends; `Reach` are the clients it can come to from a new one, with any
answers of the system.  While a client receives, nothing of an answered batch is
left: its buffer holds what has arrived since, and its slots are zero (`Receiving`,
`Reach.receiving`).
-/
import InternetLabs.EventServer.Request
import InternetLabs.EventServer.Server

namespace InternetLabs.EventServer

open InternetLabs

/-- A client that receives, with `p` arrived. -/
structure Receiving (p : Bytes) (c : Client) : Prop where
  state : c.state = .receivingHeaders
  data : c.recvBuf.data = p ++ List.replicate (bufferMax - p.length) 0
  length : c.recvBuf.length = p.length
  fits : p.length ≤ bufferMax
  requests : c.requests = List.replicate maxRequests .zero
  numRequests : c.numRequests = 0
  curRequest : c.curRequest = 0

theorem Receiving.data_length {p : Bytes} {c : Client} (h : Receiving p c) :
    c.recvBuf.data.length = bufferMax := by
  rw [h.data, List.length_append, List.length_replicate]
  exact Nat.add_sub_cancel' h.fits

theorem newClient_receiving (now : Int) : Receiving [] (newClient now) :=
  ⟨rfl, rfl, rfl, Nat.zero_le _, rfl, rfl, rfl⟩

/-! ## Receiving -/

/-- The bytes a script of `recv` delivers, which end when there are no more. -/
def delivered : List RecvOutcome → Bytes
  | .data bytes _ :: script => bytes ++ delivered script
  | .interrupted true :: script => delivered script
  | _ => []

/-- The call of `recv` that ends `recv_data` fails. -/
def recvFails : List RecvOutcome → Bool
  | .data _ _ :: script => recvFails script
  | .interrupted true :: script => recvFails script
  | .failed :: _ => true
  | _ => false

/-- `recv` fails only for want of data, and a piece is as large as the block it goes
to at most. -/
def RecvOutcome.Ordinary : RecvOutcome → Prop
  | .data bytes _ => 0 < bytes.length ∧ bytes.length ≤ bufferMax
  | .wouldBlock => True
  | .interrupted serverRunning => serverRunning = true
  | .closed => False
  | .failed => False

section Recv
variable {script : List RecvOutcome} {p : Bytes} {c c' : Client} {ret : Nat}

theorem Receiving.append (h : Receiving p c) {bytes : Bytes}
    (hfits : c.recvBuf.length + bytes.length ≤ c.recvBuf.data.length) (now : Int) :
    Receiving (p ++ bytes) { c with
      lastActive := now
      recvBuf := { c.recvBuf with
        data := writeAt c.recvBuf.data c.recvBuf.length bytes
        length := c.recvBuf.length + bytes.length } } := by
  have hlen : (p ++ bytes).length ≤ bufferMax := by
    rw [List.length_append, ← h.length, ← h.data_length]
    exact hfits
  refine ⟨h.state, ?_, ?_, hlen, h.requests, h.numRequests, h.curRequest⟩
  · have hwrite := writeAt_built p (List.replicate bufferMax 0) bytes
    rw [List.drop_replicate, List.drop_replicate] at hwrite
    rw [h.data, h.length]
    exact hwrite
  · simp only [h.length, List.length_append]

/-- **`recv_data` on a client that receives** takes what is delivered, if the buffer has
room for it. -/
theorem recvData_arrived (h : Receiving p c) (script : List RecvOutcome) :
    if (p ++ delivered script).length ≤ bufferMax then
      ∃ c', recvData script c = some (if recvFails script then 1 else 0, c') ∧
        Receiving (p ++ delivered script) c'
    else recvData script c = none := by
  have stay : (p ++ []).length ≤ bufferMax ∧ Receiving (p ++ []) c := by
    rw [List.append_nil]
    exact ⟨h.fits, h⟩
  induction script generalizing p c with
  | nil =>
      rw [show delivered [] = [] from rfl, if_pos stay.1]
      exact ⟨c, rfl, stay.2⟩
  | cons o script ih =>
      cases o with
      | data bytes now =>
          rw [delivered, recvData, ← List.append_assoc]
          by_cases hfits : c.recvBuf.length + bytes.length ≤ c.recvBuf.data.length
          · rw [if_pos hfits]
            have happend := h.append hfits now
            exact ih happend (by rw [List.append_nil]; exact ⟨happend.fits, happend⟩)
          · rw [if_neg hfits, if_neg]
            rw [h.length, h.data_length] at hfits
            simp only [List.length_append]
            omega
      | interrupted serverRunning =>
          cases serverRunning with
          | true => exact ih h stay
          | false =>
              rw [show delivered (.interrupted false :: script) = [] from rfl, if_pos stay.1]
              exact ⟨c, rfl, stay.2⟩
      | wouldBlock =>
          rw [show delivered (.wouldBlock :: script) = [] from rfl, if_pos stay.1]
          exact ⟨c, rfl, stay.2⟩
      | closed =>
          rw [show delivered (.closed :: script) = [] from rfl, if_pos stay.1]
          exact ⟨c, rfl, stay.2⟩
      | failed =>
          rw [show delivered (.failed :: script) = [] from rfl, if_pos stay.1]
          exact ⟨c, rfl, stay.2⟩

theorem recvData_receiving (h : Receiving p c) (hr : recvData script c = some (ret, c')) :
    ∃ q, Receiving (p ++ q) c' := by
  have hall := recvData_arrived h script
  split at hall
  · obtain ⟨c₁, hrecv, hc₁⟩ := hall
    cases hrecv.symm.trans hr
    exact ⟨_, hc₁⟩
  · rw [hall] at hr
    cases hr

theorem recvFails_of_ordinary (hord : ∀ o ∈ script, o.Ordinary) : recvFails script = false := by
  induction script with
  | nil => rfl
  | cons o script ih =>
      have hrest : ∀ o ∈ script, o.Ordinary := fun o ho => hord o (List.mem_cons_of_mem _ ho)
      cases o with
      | data bytes now => exact ih hrest
      | interrupted serverRunning =>
          cases serverRunning with
          | true => exact ih hrest
          | false => rfl
      | wouldBlock => rfl
      | closed => rfl
      | failed => exact (hord _ List.mem_cons_self).elim

/-- **`recv_data` takes all there is**, if the buffer has room for it. -/
theorem recvData_delivered (h : Receiving p c) (hord : ∀ o ∈ script, o.Ordinary) :
    if (p ++ delivered script).length ≤ bufferMax then
      ∃ c', recvData script c = some (0, c') ∧ Receiving (p ++ delivered script) c'
    else recvData script c = none := by
  have hall := recvData_arrived h script
  rw [recvFails_of_ordinary hord] at hall
  exact hall

end Recv

/-! ## A batch is taken -/

/-- What `request_to_struct` leaves alone, and how many requests it finds at most. -/
theorem requestToStruct_spec {heap : Nat → Blocks} {c c' : Client} {status : Status}
    (h : requestToStruct heap c = some (status, c')) :
    c'.curRequest = c.curRequest ∧ c'.recvBuf.data.length = c.recvBuf.data.length ∧
      c'.numRequests ≤ c.numRequests + occurrences crlfcrlf c.recvBuf.data := by
  obtain ⟨⟨status', s⟩, hrun, h⟩ := Option.map_eq_some_iff.mp h
  have hat : RequestLoop.At
      { data := c.recvBuf.data, request := 0, curRequest := strstr crlfcrlf c.recvBuf.data,
        requests := c.requests, numRequests := c.numRequests } c.recvBuf.data :=
    ⟨rfl, by simp, Nat.zero_le _⟩
  obtain ⟨hlen, hnum, -⟩ := requestLoop_run_spec heap hat hrun
  cases h
  exact ⟨rfl, hlen, hnum⟩

/-- The first text is parsed to the first request, if any is parsed. -/
theorem requestToStruct_first {heap : Nat → Blocks} {c c' : Client} {status : Status}
    {seg rest : Bytes} (hdata : c.recvBuf.data = seg ++ crlfcrlf ++ rest)
    (hfind : strstr crlfcrlf (seg ++ crlfcrlf ++ rest) = some seg.length)
    (hreq : c.requests = List.replicate maxRequests .zero) (hnum : c.numRequests = 0)
    (h : requestToStruct heap c = some (status, c')) :
    c'.parsed = [] ∨ ∃ slot more, parseSegment (heap 0) 0 .zero seg = .ok slot ∧
      c'.parsed = slot :: more := by
  obtain ⟨⟨status', s⟩, hrun, h⟩ := Option.map_eq_some_iff.mp h
  cases h
  have hnul : (0 : UInt8) ∉ seg := by
    obtain ⟨hnul, -⟩ := (strstr_eq_some_iff (by decide)).mp hfind
    rwa [List.append_assoc, List.take_left] at hnul
  have hat : RequestLoop.At
      { data := c.recvBuf.data, request := 0, curRequest := strstr crlfcrlf c.recvBuf.data,
        requests := c.requests, numRequests := c.numRequests } (seg ++ crlfcrlf ++ rest) :=
    ⟨hdata, by simp [hdata], Nat.zero_le _⟩
  have hstep := requestLoop_step heap hat hfind hnul
  rw [hreq, hnum, show (List.replicate maxRequests HttpRequest.zero).getD 0 .zero = .zero from rfl]
    at hstep
  rw [hreq, hnum] at hrun
  match hparse : parseSegment (heap 0) 0 .zero seg with
  | .error .undefined =>
      rw [hparse] at hstep
      rw [Loop.run_fault hstep] at hrun
      cases hrun
  | .error (.status status') =>
      rw [hparse] at hstep
      obtain ⟨data, -, hret⟩ := hstep
      rw [Loop.run_ret hret] at hrun
      cases hrun
      exact .inl rfl
  | .ok slot =>
      rw [hparse] at hstep
      obtain ⟨s₁, hnext, hat₁, hreq₁, hnum₁, -⟩ := hstep
      rw [Loop.run_next hnext] at hrun
      obtain ⟨-, -, hge, htake⟩ := requestLoop_run_spec heap hat₁ hrun
      rw [hnum₁] at hge htake
      rw [hreq₁] at htake
      have htake : s.requests.take 1 = [slot] := htake
      match hrequests : s.requests with
      | [] => rw [hrequests] at htake; cases htake
      | slot' :: requests =>
          rw [hrequests] at htake
          obtain rfl : slot' = slot := List.singleton_injective htake
          obtain ⟨n, hn⟩ : ∃ n, s.numRequests = n + 1 := ⟨s.numRequests - 1, by omega⟩
          refine .inr ⟨slot', requests.take n, rfl, ?_⟩
          simp only [Client.parsed, hn, List.take_succ_cons]

theorem takeRequests_spec {heap : Nat → Blocks} {w : World} {c c' : Client}
    (h : takeRequests heap w c = some c') :
    ∃ status c₁ c₂, requestToStruct heap c = some (status, c₁) ∧
      buildHeader w { c₁ with status := status, sendBuf := c₁.sendBuf.clear } = some c₂ ∧
      c' = { c₂ with state := .sendingHeaders } := by
  obtain ⟨⟨status, c₁⟩, hparse, h⟩ := Option.bind_eq_some_iff.mp h
  obtain ⟨c₂, hbuild, h⟩ := Option.bind_eq_some_iff.mp h
  cases h
  exact ⟨status, c₁, c₂, hparse, hbuild, rfl⟩

/-- **`receive_requests`**: the client is disconnected, or has not got a full request
yet, or takes what it has got for a batch. -/
theorem receiveRequests_cases {env : RecvEnv} {c c' : Client} {ret : Nat}
    (h : receiveRequests env c = some (ret, c')) :
    ∃ r c₁, recvData env.script c = some (r, c₁) ∧
      (r ≠ 0 ∧ ret = 1 ∧ c' = { c₁ with state := .disconnected } ∨
        r = 0 ∧ (0 : UInt8) ∈ c₁.recvBuf.data ∧
          (strstr crlfcrlf c₁.recvBuf.data = none ∧ ret = 1 ∧ c' = c₁ ∨
            strstr crlfcrlf c₁.recvBuf.data ≠ none ∧ ret = 0 ∧
              takeRequests env.heap env.world c₁ = some c')) := by
  obtain ⟨⟨r, c₁⟩, hrecv, h⟩ := Option.bind_eq_some_iff.mp h
  refine ⟨r, c₁, hrecv, ?_⟩
  simp only at h
  split at h
  next hr => cases h; exact .inl ⟨hr, rfl, rfl⟩
  next hr =>
    split at h
    · cases h
    next hnul =>
      refine .inr ⟨not_not.mp hr, not_not.mp hnul, ?_⟩
      split at h
      next hfind => cases h; exact .inl ⟨hfind, rfl, rfl⟩
      next hfind =>
        obtain ⟨c₂, htake, h⟩ := Option.map_eq_some_iff.mp h
        cases h
        exact .inr ⟨hfind, rfl, htake⟩

theorem Receiving.data_eq {p : Bytes} {c : Client} (h : Receiving p c)
    (hlt : p.length < bufferMax) :
    ∃ zeros, zeros = List.replicate (bufferMax - p.length - 1) 0 ∧
      c.recvBuf.data = p ++ 0 :: zeros := by
  obtain ⟨k, hk⟩ : ∃ k, bufferMax - p.length = k + 1 := ⟨bufferMax - p.length - 1, by omega⟩
  refine ⟨_, rfl, ?_⟩
  rw [h.data, hk]
  rfl

/-- **`receive_requests` on what has arrived**, if there is room for it. -/
theorem receiveRequests_arrived {script : List RecvOutcome} {p : Bytes} {c : Client}
    (h : Receiving p c) (hord : ∀ o ∈ script, o.Ordinary)
    (hlt : (p ++ delivered script).length < bufferMax) :
    ∃ c₁, Receiving (p ++ delivered script) c₁ ∧ ∀ heap w, receiveRequests ⟨script, heap, w⟩ c =
      if strstr crlfcrlf (p ++ delivered script) = none then some (1, c₁)
      else (takeRequests heap w c₁).map fun c => (0, c) := by
  have hdel := recvData_delivered h hord
  rw [if_pos (Nat.le_of_lt hlt)] at hdel
  obtain ⟨c₁, hrecv, hc₁⟩ := hdel
  refine ⟨c₁, hc₁, fun heap w => ?_⟩
  obtain ⟨zeros, -, hdata⟩ := hc₁.data_eq hlt
  have hnul : (0 : UInt8) ∈ c₁.recvBuf.data := by
    rw [hdata]
    exact List.mem_append_right _ List.mem_cons_self
  have hfind : strstr crlfcrlf c₁.recvBuf.data = strstr crlfcrlf (p ++ delivered script) := by
    rw [hdata, strstr_append_zero (by decide) (by decide)]
  simp only [receiveRequests, hrecv, bind, Option.bind, ne_eq, not_true_eq_false, if_false,
    if_neg (not_not.mpr hnul), hfind]

/-! ## Sending -/

/-- `send_data` moves the position over what is accepted, or gives the client up. -/
theorem sendData_client (script : List SendOutcome) (c : Client) :
    ∃ n ≤ c.sendBuf.length - c.sendBuf.position, (sendData script c).client = c.advance n ∨
      (sendData script c).client = { c.advance n with state := .disconnected } ∧
        (sendData script c).ret = some 1 := by
  induction script generalizing c with
  | nil =>
      refine ⟨0, Nat.zero_le _, .inl ?_⟩
      by_cases hleft : c.sendBuf.length - c.sendBuf.position = 0
      · rw [sendData_done hleft]; rfl
      · rw [sendData_nil hleft]; rfl
  | cons o script ih =>
      by_cases hleft : c.sendBuf.length - c.sendBuf.position = 0
      · exact ⟨0, Nat.zero_le _, .inl (by rw [sendData_done hleft]; rfl)⟩
      cases o with
      | accepted k =>
          rw [sendData_accepted hleft]
          obtain ⟨n, hle, hn⟩ :=
            ih (c.advance (min (k + 1) (c.sendBuf.length - c.sendBuf.position)))
          rw [Client.advance_advance] at hn
          refine ⟨_, ?_, hn⟩
          simp only [Client.advance] at hle
          omega
      | wouldBlock => exact ⟨0, Nat.zero_le _, .inl (by rw [sendData_wouldBlock hleft]; rfl)⟩
      | interrupted serverRunning =>
          rw [sendData_interrupted hleft]
          split
          · exact ih c
          · exact ⟨0, Nat.zero_le _, .inl rfl⟩
      | reset => exact ⟨0, Nat.zero_le _, .inr (by rw [sendData_reset hleft]; exact ⟨rfl, rfl⟩)⟩
      | failed => exact ⟨0, Nat.zero_le _, .inr (by rw [sendData_failed hleft]; exact ⟨rfl, rfl⟩)⟩

theorem sendData_frame (script : List SendOutcome) (c : Client) :
    ∃ sendBuf state, (sendData script c).client
    = { c with sendBuf := sendBuf, state := state } := by
  obtain ⟨n, -, hclient | ⟨hclient, -⟩⟩ := sendData_client script c
  · exact ⟨_, _, hclient⟩
  · exact ⟨_, _, hclient⟩

/-! ## The rule for a call

A property of the client is kept by a call of `send_responses`, whatever `send` comes
to, if it is kept by what the call is made of. -/

/-- The steps of `send_responses` keep `I`. -/
structure SendRule (I : Client → Prop) : Prop where
  advance : ∀ {c n}, I c → c.state ≠ .receivingHeaders →
    n ≤ c.sendBuf.length - c.sendBuf.position → I (c.advance n)
  disconnect : ∀ {c}, I c → I { c with state := .disconnected }
  body : ∀ {c w c'}, I c → c.state = .sendingHeaders →
    buildBody w { c with sendBuf := c.sendBuf.clear } = some c' →
      I { c' with state := .sendingBody }
  header : ∀ {c w c'}, I c → c.state = .sendingBody → c.curRequest + 1 < c.numRequests →
    buildHeader w { c with
      curRequest := c.curRequest + 1, state := .sendingHeaders, sendBuf := c.sendBuf.rewind }
      = some c' → I c'
  finish : ∀ {c}, I c → c.state = .sendingBody → I c.finish

section SendRule
variable {I : Client → Prop} (hI : SendRule I) {c c' : Client} {ret : Nat}
include hI

theorem SendRule.sendData (h : I c) (hstate : c.state ≠ .receivingHeaders)
    (script : List SendOutcome) : I (sendData script c).client := by
  obtain ⟨n, hle, hclient | ⟨hclient, -⟩⟩ := sendData_client script c
  · rw [hclient]
    exact hI.advance h hstate hle
  · rw [hclient]
    exact hI.disconnect (hI.advance h hstate hle)

omit hI in
/-- Unless it gives the client up, `send_data` leaves the state alone. -/
theorem sendData_state {script : List SendOutcome} (h : (sendData script c).ret ≠ some 1) :
    (sendData script c).client.state = c.state := by
  obtain ⟨n, -, hclient | ⟨-, hret⟩⟩ := sendData_client script c
  · rw [hclient]; rfl
  · exact absurd hret h

theorem SendRule.sendBody (h : I c) {env : SendEnv} {script : List SendOutcome}
    (hend : (sendBody env script c).ending = .returned ret c') : I c' := by
  unfold EventServer.sendBody at hend
  split at hend
  swap
  · cases hend; exact h
  next hsending =>
    have hsent := hI.sendData h (by rw [hsending]; simp) script
    have hstate : (EventServer.sendData script c).ret ≠ some 1 → _ :=
      fun hret => (sendData_state hret).trans hsending
    generalize EventServer.sendData script c = sent at *
    obtain ⟨r, c₁, acc, rest⟩ := sent
    match r with
    | none => cases hend
    | some (_ + 1) => cases hend; exact hsent
    | some 0 =>
        have hstate : c₁.state = .sendingBody := hstate (by simp)
        simp only at hend
        split at hend
        next hnext =>
          split at hend
          · cases hend
          next c₂ hbuild =>
            cases hend
            exact hI.header hsent hstate hnext hbuild
        · cases hend
          exact (hI.finish hsent hstate : I c₁.finish)

/-- **A call of `send_responses` keeps the property.** -/
theorem SendRule.sendResponses (h : I c) {env : SendEnv}
    (hend : (sendResponses env c).ending = .returned ret c') : I c' := by
  unfold EventServer.sendResponses at hend
  split at hend
  swap
  · exact hI.sendBody h hend
  next hsending =>
    have hsent := hI.sendData h (by rw [hsending]; simp) env.script
    have hstate : (EventServer.sendData env.script c).ret ≠ some 1 → _ := fun hret =>
      (sendData_state hret).trans hsending
    generalize EventServer.sendData env.script c = sent at *
    obtain ⟨r, c₁, acc, rest⟩ := sent
    match r with
    | none => cases hend
    | some (_ + 1) => exact hI.sendBody hsent hend
    | some 0 =>
        simp only at hend
        split at hend
        · cases hend
        next c₂ hbuild => exact hI.sendBody (hI.body hsent (hstate (by simp)) hbuild) hend

end SendRule

/-- The client after the last response receives again, with nothing arrived. -/
theorem Client.finish_receiving {c : Client} (h : c.recvBuf.data.length = bufferMax) :
    Receiving [] c.finish := by
  refine ⟨rfl, ?_, rfl, Nat.zero_le _, rfl, rfl, rfl⟩
  have hwrite := writeAt_zero c.recvBuf.data (List.replicate bufferMax 0)
  rw [List.length_replicate, List.drop_of_length_le (Nat.le_of_eq h), List.append_nil] at hwrite
  exact hwrite

/-- The receive buffer has its size, and holds what has arrived while the client
receives. -/
structure Client.Inv (c : Client) : Prop where
  recvBuf : c.recvBuf.data.length = bufferMax
  receiving : c.state = .receivingHeaders → ∃ p, Receiving p c

theorem Client.Inv.of_state {c : Client} (h : c.recvBuf.data.length = bufferMax)
    (hstate : c.state ≠ .receivingHeaders) : c.Inv :=
  ⟨h, fun hrecv => absurd hrecv hstate⟩

section Keep
variable {c c' : Client} {ret : Nat}

theorem receiveRequests_inv {env : RecvEnv} (hc : c.Inv) (hstate : c.state = .receivingHeaders)
    (h : receiveRequests env c = some (ret, c')) : c'.Inv := by
  obtain ⟨p, hp⟩ := hc.receiving hstate
  obtain ⟨r, c₁, hrecv, hcases⟩ := receiveRequests_cases h
  obtain ⟨q, hq⟩ := recvData_receiving hp hrecv
  rcases hcases with ⟨-, -, rfl⟩ | ⟨-, -, ⟨-, -, rfl⟩ | ⟨-, -, htake⟩⟩
  · exact .of_state hq.data_length (by simp)
  · exact ⟨hq.data_length, fun _ => ⟨_, hq⟩⟩
  · obtain ⟨status, c₂, c₃, hparse, hbuild, rfl⟩ := takeRequests_spec htake
    obtain ⟨-, hlen, -⟩ := requestToStruct_spec hparse
    refine .of_state ?_ (by simp)
    rw [(buildHeader_frame hbuild).recvBuf]
    exact hlen.trans hq.data_length

theorem Client.Inv.sendRule : SendRule Client.Inv where
  advance h hstate _ := .of_state h.recvBuf hstate
  disconnect h := .of_state h.recvBuf (by simp)
  body h _ hbuild := by
    refine .of_state ?_ (by simp)
    rw [(buildBody_frame hbuild).1.recvBuf]
    exact h.recvBuf
  header h _ _ hbuild := by
    have hframe := buildHeader_frame hbuild
    refine .of_state ?_ (by rw [hframe.state]; simp)
    rw [hframe.recvBuf]
    exact h.recvBuf
  finish h _ :=
    have hback := Client.finish_receiving h.recvBuf
    ⟨hback.data_length, fun _ => ⟨_, hback⟩⟩

end Keep

/-! ## Reachable clients

The states that a client can come to by calls of its two handlers. -/

/-- The clients the event loop can come to. -/
inductive Reach : Client → Prop where
  | new (now : Int) : Reach (newClient now)
  | receive {c c' : Client} {env : RecvEnv} {ret : Nat} (hc : Reach c)
      (hstate : c.state = .receivingHeaders) (h : receiveRequests env c = some (ret, c')) : Reach c'
  | send {c c' : Client} {env : SendEnv} {ret : Nat} (hc : Reach c)
      (hstate : c.state = .sendingHeaders ∨ c.state = .sendingBody)
      (h : (sendResponses env c).ending = .returned ret c') : Reach c'

theorem Reach.inv {c : Client} (h : Reach c) : c.Inv := by
  induction h with
  | new now =>
      have := newClient_receiving now
      exact ⟨this.data_length, fun _ => ⟨_, this⟩⟩
  | receive hc hstate h ih => exact receiveRequests_inv ih hstate h
  | send hc hstate h ih => exact Client.Inv.sendRule.sendResponses ih h

/-- **While a client receives**, nothing of an answered batch is left. -/
theorem Reach.receiving {c : Client} (h : Reach c) (hstate : c.state = .receivingHeaders) :
    ∃ p, Receiving p c :=
  h.inv.receiving hstate

end InternetLabs.EventServer
