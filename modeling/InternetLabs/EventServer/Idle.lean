/-
# `InternetLabs.EventServer.Idle` — the clients the sweep closes

The sweep goes by `last_active`, which `recv_data` and the builders renew and `send_data`
does not.  The system here is that of `EventLoop` with a clock: an action comes with the
times of its calls of `send`, the other times are in it already, and the clock does not
go back.  `moved` has the times at which bytes were received from a client or accepted by
its socket, since it was accepted.

What happens to a client in the calls an event stands for is a list of events in time
(`eventActivity`); that it is what the calls make of `last_active` is proved of each of
them.  `idle_swept`: if all that is sent has a stamp behind it, the sweep closes only
clients that have been idle.  `busy_swept` is a client that is closed in the second in
which it takes what it is sent.
-/
import InternetLabs.Lib.Stamps
import InternetLabs.EventServer.Edge
import InternetLabs.EventServer.Tracking

namespace InternetLabs.EventServer

open InternetLabs Function Stamps

/-! ## The calls in time

The model of the calls has no time between two sends, so what happens in a call is told
beside it, with the time of each. -/

/-- The times at which `recv_data` receives something. -/
def recvTimes : List RecvOutcome → List Int
  | .data _ now :: script => now :: recvTimes script
  | .interrupted true :: script => recvTimes script
  | _ => []

/-- What happens in a call of `receive_requests`: the stamp is renewed behind each piece,
and by the builder of the header if a request is complete. -/
def recvActivity (env : RecvEnv) (c : Client) : List (Moment Int) :=
  (recvTimes env.script).flatMap (fun now => [.moved now, .stamped now]) ++
    match receiveRequests env c with
    | some (0, _) => [.stamped env.world.now]
    | _ => []

/-- What happens in a call of `send_data` with `n` bytes to send, each `send` with its
time; and what is left of the script when the call returns 0.  A `send` that fails gives
the client up. -/
def handOver : List (SendOutcome × Int) → Nat →
    List (Moment Int) × Option (List (SendOutcome × Int))
  | script, 0 => ([], some script)
  | (.accepted k, now) :: script, n + 1 =>
      let (es, rest) := handOver script (n - k)
      (.moved now :: es, rest)
  | (.interrupted serverRunning, _) :: script, n + 1 =>
      if serverRunning then handOver script (n + 1) else ([], some script)
  | (.reset, _) :: _, _ + 1 => ([.gone], none)
  | (.failed, _) :: _, _ + 1 => ([.gone], none)
  | (.wouldBlock, _) :: _, _ + 1 => ([], none)
  | [], _ + 1 => ([], none)

/-- What happens in `send_responses` from the test for `SENDING_BODY` on, with `n` bytes of
the body to send.  The builder of the next header renews the stamp.  A client that has
shut down its side (`rdhup`) is given up behind the last response. -/
def bodyActivity (env : SendEnv) (rdhup : Bool) (script : List (SendOutcome × Int)) (n : Nat)
    (c : Client) : List (Moment Int) :=
  match handOver script n with
  | (es, none) => es
  | (es, some _) =>
      es ++ if c.curRequest + 1 < c.numRequests then [.stamped env.header.now]
        else if rdhup then [.gone] else []

/-- What happens in a call of `send_responses`.  `build_ok_body` renews the stamp,
`build_error_body` does not. -/
def sendActivity (env : SendEnv) (rdhup : Bool) (script : List (SendOutcome × Int)) (c : Client) :
    List (Moment Int) :=
  if c.state = .sendingHeaders then
    match handOver script c.left with
    | (es, none) => es
    | (es, some script) =>
        es ++ (if c.status = .ok then [.stamped env.body.now] else []) ++
          bodyActivity env rdhup script (bodyLength env.body c) c
  else if c.state = .sendingBody then bodyActivity env rdhup script c.left c
  else []

/-- What happens to a client in the calls that its event stands for; `times` are those of
the calls of `send`. -/
def eventActivity (flags : Flags) (recv : RecvEnv) (send : SendEnv) (times : List Int)
    (c : Client) : List (Moment Int) :=
  let received := if flags.epollin then recvActivity recv c else []
  let client := if flags.epollin then (receiveRequests recv c).map Prod.snd else some c
  match client with
  | none => received
  | some c =>
      received ++ if flags.epollout then
          sendActivity send flags.epollrdhup (send.script.zip times) c
        else []

/-! ## What the calls make of the stamp

`recv_data` and the builders renew the stamp, but for `build_error_body`.  `send_data`
does not. -/

section Calls
variable {c c' : Client} {w : World} {env : SendEnv} {rdhup : Bool} {ret : Nat}

theorem buildErrorHeader_lastActive (h : buildErrorHeader w c = some c') :
    c'.lastActive = w.now := by
  obtain ⟨text, -, h⟩ := Option.bind_eq_some_iff.mp h
  obtain ⟨r, -, h⟩ := Option.bind_eq_some_iff.mp h
  cases h
  rfl

theorem buildHeader_lastActive (h : buildHeader w c = some c') : c'.lastActive = w.now := by
  rw [buildHeader] at h
  split at h
  swap
  · exact buildErrorHeader_lastActive h
  obtain ⟨request, -, h⟩ := Option.bind_eq_some_iff.mp h
  obtain ⟨uri, -, h⟩ := Option.bind_eq_some_iff.mp h
  obtain ⟨path, -, h⟩ := Option.bind_eq_some_iff.mp h
  split at h
  · exact buildErrorHeader_lastActive h
  · obtain ⟨version, -, h⟩ := Option.bind_eq_some_iff.mp h
    obtain ⟨filetype, -, h⟩ := Option.bind_eq_some_iff.mp h
    obtain ⟨r, -, h⟩ := Option.bind_eq_some_iff.mp h
    cases h
    rfl

theorem buildBody_lastActive (h : buildBody w c = some c') :
    c'.lastActive = if c.status = .ok then w.now else c.lastActive := by
  rw [buildBody] at h
  split at h
  next hok =>
    rw [if_pos hok]
    obtain ⟨request, -, h⟩ := Option.bind_eq_some_iff.mp h
    obtain ⟨uri, -, h⟩ := Option.bind_eq_some_iff.mp h
    obtain ⟨path, -, h⟩ := Option.bind_eq_some_iff.mp h
    obtain ⟨sendBuf, -, h⟩ := Option.bind_eq_some_iff.mp h
    cases h
    rfl
  next hok =>
    rw [if_neg hok]
    cases h
    rfl

theorem recvData_lastActive {script : List RecvOutcome} (h : recvData script c = some (ret, c')) :
    c'.lastActive
      = lastStamp c.lastActive ((recvTimes script).flatMap fun now => [.moved now,
      .stamped now]) := by
  induction script generalizing c with
  | nil => cases h; rfl
  | cons o script ih =>
      cases o with
      | data bytes now =>
          rw [recvData] at h
          split at h
          · exact ih h
          · cases h
      | interrupted serverRunning =>
          cases serverRunning with
          | true => exact ih h
          | false => cases h; rfl
      | wouldBlock => cases h; rfl
      | closed => cases h; rfl
      | failed => cases h; rfl

/-- **A call of `receive_requests`** leaves the stamp of its last event. -/
theorem receiveRequests_lastActive {env : RecvEnv} (h : receiveRequests env c = some (ret, c')) :
    c'.lastActive = lastStamp c.lastActive (recvActivity env c) := by
  obtain ⟨r, c₁, hrecv, hcases⟩ := receiveRequests_cases h
  rw [recvActivity, h, lastStamp_append, ← recvData_lastActive hrecv]
  rcases hcases with ⟨-, rfl, rfl⟩ | ⟨-, -, ⟨-, rfl, rfl⟩ | ⟨-, rfl, htake⟩⟩
  · rfl
  · rfl
  · obtain ⟨status, c₂, c₃, -, hbuild, rfl⟩ := takeRequests_spec htake
    have hstamp := buildHeader_lastActive hbuild
    exact hstamp

theorem gone_notMem_recvActivity (env : RecvEnv) (c : Client) : .gone ∉ recvActivity env c := by
  intro hmem
  rw [recvActivity, List.mem_append] at hmem
  rcases hmem with hmem | hmem
  · obtain ⟨now, -, hmem⟩ := List.mem_flatMap.mp hmem
    simp at hmem
  · split at hmem
    · cases List.mem_singleton.mp hmem
    · cases hmem

theorem lastStamp_handOver (stamp : Int) (script : List (SendOutcome × Int)) (n : Nat) :
    lastStamp stamp (handOver script n).1 = stamp := by
  fun_induction handOver script n with
  | case1 script => rfl
  | case2 k now script n es rest hrest ih =>
      rw [hrest] at ih
      exact ih
  | case3 now script n ih => exact ih
  | case4 now script n => rfl
  | case5 now script n => rfl
  | case6 now script n => rfl
  | case7 now script n => rfl
  | case8 n => rfl

/-- **`send_data` in time**: it returns 0 where `handOver` has come through, and gives the
client up where that says so. -/
theorem sendData_handOver (script : List (SendOutcome × Int)) (c : Client) :
    (sendData (script.map Prod.fst) c).ret = none ∨
      (∃ rest, (handOver script c.left).2 = some rest ∧ .gone ∉ (handOver script c.left).1 ∧
        (sendData (script.map Prod.fst) c).ret = some 0 ∧
        (sendData (script.map Prod.fst) c).script = rest.map Prod.fst) ∨
      (handOver script c.left).2 = none ∧ (sendData (script.map Prod.fst) c).ret = some 1 ∧
        (.gone ∈ (handOver script c.left).1 →
          (sendData (script.map Prod.fst) c).client.state = .disconnected) := by
  induction script generalizing c with
  | nil =>
      by_cases hleft : c.left = 0
      · rw [List.map_nil, sendData_done hleft, hleft]
        exact .inr (.inl ⟨[], rfl, nofun, rfl, rfl⟩)
      · rw [List.map_nil, sendData_nil hleft]
        exact .inl rfl
  | cons o script ih =>
      obtain ⟨o, now⟩ := o
      by_cases hleft : c.left = 0
      · rw [sendData_done hleft, hleft]
        exact .inr (.inl ⟨(o, now) :: script, by rw [handOver], by rw [handOver]; nofun, rfl, rfl⟩)
      obtain ⟨n, hn⟩ := Nat.exists_eq_succ_of_ne_zero hleft
      rw [List.map_cons]
      cases o with
      | accepted k =>
          rw [sendData_accepted hleft, hn, handOver]
          have hrest := ih (c.advance (min (k + 1) (c.sendBuf.length - c.sendBuf.position)))
          rw [Client.advance_left, hn, Nat.succ_sub_succ] at hrest
          simpa using hrest
      | interrupted serverRunning =>
          rw [sendData_interrupted hleft]
          cases serverRunning with
          | true =>
              have hrest := ih c
              rw [hn] at hrest ⊢
              exact hrest
          | false =>
              rw [hn]
              exact .inr (.inl ⟨script, rfl, nofun, rfl, rfl⟩)
      | wouldBlock =>
          rw [sendData_wouldBlock hleft, hn]
          exact .inr (.inr ⟨rfl, rfl, nofun⟩)
      | reset =>
          rw [sendData_reset hleft, hn]
          exact .inr (.inr ⟨rfl, rfl, fun _ => rfl⟩)
      | failed =>
          rw [sendData_failed hleft, hn]
          exact .inr (.inr ⟨rfl, rfl, fun _ => rfl⟩)

/-- The client has the stamp of its last event, and is given up if there is nothing to
close. -/
structure Leaves (stamp : Int) (es : List (Moment Int)) (rdhup : Bool) (c : Client) : Prop where
  lastActive : c.lastActive = lastStamp stamp es
  gone : .gone ∈ es → c.state = .disconnected ∨ rdhup = true ∧ c.state = .receivingHeaders

theorem bodyActivity_leaves {script : List (SendOutcome × Int)} (hstate : c.state = .sendingBody)
    (hend : (sendBody env (script.map Prod.fst) c).ending = .returned ret c') :
    Leaves c.lastActive (bodyActivity env rdhup script c.left c) rdhup c' := by
  obtain ⟨sendBuf, state, hclient⟩ := sendData_frame (script.map Prod.fst) c
  have hmoves := lastStamp_handOver c.lastActive script c.left
  rw [sendBody_ending hstate] at hend
  rw [bodyActivity]
  generalize hhanded : handOver script c.left = handed at hmoves ⊢
  obtain ⟨es, rest⟩ := handed
  have hspec := sendData_handOver script c
  rw [hhanded] at hspec
  rcases hspec with hret | ⟨rest', hthrough, hgone, hret, -⟩ | ⟨hstop, hret, hgone⟩
  · rw [hret] at hend
    cases hend
  · -- all of the body is sent
    obtain rfl : rest = some rest' := hthrough
    rw [hret, hclient] at hend
    simp only at hend
    by_cases hnext : c.curRequest + 1 < c.numRequests
    · rw [if_pos hnext] at hend
      split at hend
      · cases hend
      next c₂ hbuild =>
        cases hend
        simp only [if_pos hnext]
        refine ⟨?_, fun hmem => ?_⟩
        · rw [lastStamp_append, buildHeader_lastActive hbuild]
          rfl
        · rw [List.mem_append, List.mem_singleton] at hmem
          exact absurd (hmem.resolve_right nofun) hgone
    · rw [if_neg hnext] at hend
      cases hend
      simp only [if_neg hnext]
      refine ⟨?_, fun hmem => .inr ⟨?_, rfl⟩⟩
      · rw [lastStamp_append, hmoves]
        cases rdhup <;> rfl
      · cases rdhup with
        | true => rfl
        | false =>
            rw [List.mem_append] at hmem
            exact absurd (hmem.resolve_right nofun) hgone
  · -- a `send` is refused or fails
    obtain rfl : rest = none := hstop
    rw [hret] at hend
    cases hend
    refine ⟨?_, fun hmem => .inl (hgone hmem)⟩
    rw [hmoves, hclient]

/-- **A call of `send_responses`** leaves the stamp of its last event. -/
theorem sendResponses_leaves {script : List (SendOutcome × Int)}
    (hscript : env.script = script.map Prod.fst)
    (hend : (sendResponses env c).ending = .returned ret c') :
    Leaves c.lastActive (sendActivity env rdhup script c) rdhup c' := by
  rw [sendActivity]
  by_cases hheader : c.state = .sendingHeaders
  swap
  · rw [if_neg hheader]
    unfold sendResponses at hend
    rw [if_neg hheader, hscript] at hend
    split
    next hbody => exact bodyActivity_leaves hbody hend
    next hbody =>
      rw [sendBody_ending_of_ne hbody] at hend
      cases hend
      exact ⟨rfl, nofun⟩
  rw [if_pos hheader]
  obtain ⟨sendBuf, state, hclient⟩ := sendData_frame (script.map Prod.fst) c
  have hmoves := lastStamp_handOver c.lastActive script c.left
  rw [sendResponses_ending hheader, hscript] at hend
  generalize hhanded : handOver script c.left = handed at hmoves ⊢
  obtain ⟨es, rest⟩ := handed
  have hspec := sendData_handOver script c
  rw [hhanded] at hspec
  rcases hspec with hret | ⟨rest', hthrough, hgone, hret, hrest⟩ | ⟨hstop, hret, hgone⟩
  · rw [hret] at hend
    cases hend
  · -- the header is sent, and the body is built
    obtain rfl : rest = some rest' := hthrough
    rw [hret] at hend
    simp only at hend
    split at hend
    · cases hend
    next c₂ hbuild =>
      have hleft : ({ c₂ with state := .sendingBody } : Client).left = bodyLength env.body c := by
        have := buildBody_left hbuild
        rw [hclient] at this
        exact this
      have hactive : c₂.lastActive = if c.status = .ok then env.body.now else c.lastActive := by
        have := buildBody_lastActive hbuild
        rw [hclient] at this
        exact this
      have hframe := (buildBody_frame hbuild).1
      rw [hrest] at hend
      have hbody :=
        @bodyActivity_leaves { c₂ with state := .sendingBody } c' env rdhup ret rest' rfl hend
      have hsame : bodyActivity env rdhup rest' (bodyLength env.body c)
        { c₂ with state := .sendingBody }
          = bodyActivity env rdhup rest' (bodyLength env.body c) c := by
        unfold bodyActivity
        rw [hframe.curRequest, hframe.numRequests, hclient]
      rw [hleft, hsame] at hbody
      refine ⟨?_, fun hmem => ?_⟩
      · rw [hbody.lastActive, lastStamp_append, lastStamp_append, hmoves, hactive]
        split <;> rfl
      · rw [List.mem_append, List.mem_append] at hmem
        rcases hmem with (hmem | hmem) | hmem
        · exact absurd hmem hgone
        · split at hmem
          · cases List.mem_singleton.mp hmem
          · cases hmem
        · exact hbody.gone hmem
  · -- a `send` is refused or fails
    obtain rfl : rest = none := hstop
    rw [hret] at hend
    have hne : (sendData (script.map Prod.fst) c).client.state ≠ .sendingBody := by
      obtain ⟨n, -, hadvance | ⟨hadvance, -⟩⟩ := sendData_client (script.map Prod.fst) c
      · rw [hadvance]
        show c.state ≠ _
        rw [hheader]
        nofun
      · rw [hadvance]
        nofun
    have hstop : (sendBody env (sendData (script.map Prod.fst) c).script
        (sendData (script.map Prod.fst) c).client).ending = .returned ret c' := hend
    rw [sendBody_ending_of_ne hne] at hstop
    cases hstop
    refine ⟨?_, fun hmem => .inl (hgone hmem)⟩
    rw [hmoves, hclient]

theorem map_fst_zip {script : List SendOutcome} {times : List Int}
    (h : times.length = script.length) :
    script = (script.zip times).map Prod.fst :=
  (List.map_fst_zip (Nat.le_of_eq h.symm)).symm

theorem handleEvent_cases {flags : Flags} {recv : RecvEnv} {send : SendEnv}
    {interest : Option Interest} (h : handleEvent flags recv send c = some (c', interest)) :
    ∃ c₁, (if flags.epollin then ∃ ret, receiveRequests recv c = some (ret, c₁) else c₁ = c) ∧
      ∃ c₂, (if flags.epollout then ∃ ret, (sendResponses send c₁).ending = .returned ret c₂
          else c₂ = c₁) ∧
        c' = if flags.epollrdhup ∧ (c₂.state = .receivingHeaders ∨ c₂.state = .receivingBody) then
          { c₂ with state := .disconnected } else c₂ := by
  have hreceive : ∀ next : Client × Option Interest → Option (Client × Option Interest),
      (if flags.epollin then
        ((receiveRequests recv c).map fun r =>
          (r.2, if r.1 = 0 then some Interest.epollout else none)).bind next
      else (some (c, none)).bind next) = some (c', interest) →
      ∃ c₁ i₁, (if flags.epollin then ∃ ret, receiveRequests recv c = some (ret, c₁) else c₁ = c) ∧
        next (c₁, i₁) = some (c', interest) := by
    intro next hnext
    split at hnext
    next hin =>
      obtain ⟨received, hreceived, hnext⟩ := Option.bind_eq_some_iff.mp hnext
      obtain ⟨⟨ret, c₁⟩, hcall, rfl⟩ := Option.map_eq_some_iff.mp hreceived
      refine ⟨c₁, _, ?_, hnext⟩
      rw [if_pos hin]
      exact ⟨ret, hcall⟩
    next hin =>
      refine ⟨c, none, ?_, hnext⟩
      rw [if_neg hin]
  have hlast : ∀ c₂ i, (if flags.epollrdhup ∧
    (c₂.state = .receivingHeaders ∨ c₂.state = .receivingBody)
      then some ({ c₂ with state := State.disconnected }, i) else some (c₂, i))
        = some (c', interest) →
      c' = if flags.epollrdhup ∧ (c₂.state = .receivingHeaders ∨ c₂.state = .receivingBody) then
          { c₂ with state := .disconnected } else c₂ := by
    intro c₂ i hlast
    split at hlast
    next hshut => cases hlast; rw [if_pos hshut]
    next hshut => cases hlast; rw [if_neg hshut]
  simp only [handleEvent] at h
  obtain ⟨c₁, i₁, hreceived, h⟩ := hreceive _ h
  refine ⟨c₁, hreceived, ?_⟩
  by_cases hout : flags.epollout
  · simp only [if_pos hout] at h ⊢
    cases hcall : (sendResponses send c₁).ending with
    | returned ret c₂ =>
        simp only [hcall] at h
        exact ⟨c₂, ⟨ret, rfl⟩, hlast c₂ _ h⟩
    | sending =>
        simp only [hcall] at h
        cases h
    | undefined =>
        simp only [hcall] at h
        cases h
  · simp only [if_neg hout] at h ⊢
    exact ⟨c₁, rfl, hlast c₁ _ h⟩

/-- **The calls an event stands for** leave the stamp of the last of their events. -/
theorem handleEvent_leaves {flags : Flags} {recv : RecvEnv} {send : SendEnv} {times : List Int}
    {interest : Option Interest} (htimes : times.length = send.script.length)
    (h : handleEvent flags recv send c = some (c', interest)) :
    Leaves c.lastActive (eventActivity flags recv send times c) false c' := by
  obtain ⟨c₁, hreceive, c₂, hsend, rfl⟩ := handleEvent_cases h
  have hreceived : (if flags.epollin then (receiveRequests recv c).map Prod.snd
    else some c) = some c₁ ∧
      c₁.lastActive = lastStamp c.lastActive (if flags.epollin then recvActivity recv c else []) ∧
      .gone ∉ (if flags.epollin then recvActivity recv c else []) := by
    by_cases hin : flags.epollin
    · rw [if_pos hin] at hreceive
      obtain ⟨ret, hcall⟩ := hreceive
      rw [if_pos hin, if_pos hin, hcall]
      exact ⟨rfl, receiveRequests_lastActive hcall, gone_notMem_recvActivity recv c⟩
    · rw [if_neg hin] at hreceive
      rw [if_neg hin, if_neg hin, hreceive]
      exact ⟨rfl, rfl, nofun⟩
  have hsent : Leaves c₁.lastActive (if flags.epollout then
      sendActivity send flags.epollrdhup (send.script.zip times) c₁
          else []) flags.epollrdhup c₂ := by
    by_cases hout : flags.epollout
    · rw [if_pos hout] at hsend
      obtain ⟨ret, hcall⟩ := hsend
      rw [if_pos hout]
      exact sendResponses_leaves (map_fst_zip htimes) hcall
    · rw [if_neg hout] at hsend
      rw [if_neg hout, hsend]
      exact ⟨rfl, nofun⟩
  have hactivity : eventActivity flags recv send times c
      = (if flags.epollin then recvActivity recv c else []) ++ if flags.epollout then
          sendActivity send flags.epollrdhup (send.script.zip times) c₁ else [] := by
    simp only [eventActivity, hreceived.1]
  have hstamp : c₂.lastActive = lastStamp c.lastActive (eventActivity flags recv send times c) := by
    rw [hactivity, lastStamp_append, ← hreceived.2.1]
    exact hsent.lastActive
  have hgone : .gone ∈ eventActivity flags recv send times c →
      c₂.state = .disconnected ∨ flags.epollrdhup = true ∧ c₂.state = .receivingHeaders := by
    intro hmem
    rw [hactivity, List.mem_append] at hmem
    exact hsent.gone (hmem.resolve_left hreceived.2.2)
  split
  · exact ⟨hstamp, fun _ => .inl rfl⟩
  next hopen =>
    refine ⟨hstamp, fun hmem => .inl ((hgone hmem).resolve_right fun hshut => hopen ?_)⟩
    exact ⟨hshut.1, .inl hshut.2⟩

end Calls

/-! ## The loop in time

The loop with a clock, and for each client the time when something last moved. -/

/-- The loop, the clock, and what has moved. -/
structure Timed where
  loop : Loop
  clock : Int
  moved : Nat → List Int

/-- An action, with the times of the calls of `send`. -/
structure TimedAction where
  action : Action
  times : List Int

/-- The client whose event the action handles, and what happens to it. -/
def Timed.handled (s : Timed) (x : TimedAction) : Option (Nat × Conn × List (Moment Int)) :=
  match x.action, s.loop.phase with
  | .client recv send _, .handling (⟨.client p, flags⟩ :: _) =>
      (s.loop.tables.heap p).map fun conn =>
        (p, conn, eventActivity flags recv send x.times conn.client)
  | _, _ => none

/-- What happens in a step. -/
def Timed.activity (s : Timed) (x : TimedAction) : List (Moment Int) :=
  match s.handled x with
  | some (_, _, es) => es
  | none =>
      match x.action with
      | .accept (.client _ _ now) _ => [.stamped now]
      | .sweep now => [.read now]
      | _ => []

/-- What has moved after a step; at the address of a new client nothing has. -/
def Timed.record (s : Timed) (x : TimedAction) : Nat → List Int :=
  match s.handled x with
  | some (p, _, es) => update s.moved p (s.moved p ++ moves es)
  | none =>
      match x.action with
      | .accept (.client _ p _) _ => update s.moved p []
      | _ => s.moved

/-- Every `send` has its time. -/
def TimedAction.Timely (x : TimedAction) : Prop :=
  match x.action with
  | .client _ send _ => x.times.length = send.script.length
  | _ => True

instance (x : TimedAction) : Decidable x.Timely := by
  unfold TimedAction.Timely
  split <;> infer_instance

/-- A step in time. -/
def timedStep (x : TimedAction) (s : Timed) : Option Timed :=
  if x.Timely ∧ InOrder s.clock (s.activity x) then
    (step x.action s.loop).map fun loop => ⟨loop, clockAfter s.clock (s.activity x), s.record x⟩
  else none

/-- The runs in time, from any time on. -/
def timedLoop : System Timed TimedAction :=
  System.ofStep (fun s => s.loop = ⟨.running, .init⟩ ∧ s.moved = fun _ => []) timedStep

/-- The client whose event is handled has a stamp behind all that moves, unless it is
given up. -/
def AllStamped (s : Timed) (x : TimedAction) : Prop :=
  match s.handled x with
  | some (_, conn, es) => Covered conn.client.lastActive es
  | none => True

instance (s : Timed) (x : TimedAction) : Decidable (AllStamped s x) :=
  match h : s.handled x with
  | some (_, conn, es) =>
      decidable_of_iff (Covered conn.client.lastActive es) (by rw [AllStamped, h])
  | none => .isTrue (by rw [AllStamped, h]; trivial)

/-- A client that the step sweeps has been idle for `EXPIRE_TIME`. -/
def OnlyIdle (s : Timed) (x : TimedAction) : Prop :=
  ∀ now i p, x.action = .sweep now → s.loop.phase = .sweeping i →
    s.loop.tables.clients[i]? = some (some p) →
    (sweepClient now i s.loop.tables).tables.heap p = none →
    ∀ t ∈ s.moved p, expireTime ≤ (now - t) * 1000

section Timed
variable {s s' : Timed} {x : TimedAction}

/-- What happens to the clients in a step that goes on: one is new, or one has had its
event handled, and the others are as before. -/
theorem Loop.Inv.step_client {s s' : Loop} {a : Action} (hs : s.Inv) (h : step a s = some s')
    (hfailed : s'.phase ≠ .failed) (hstuck : s'.phase ≠ .stuck) {q : Nat} {conn' : Conn}
    (hq : s'.tables.heap q = some conn') :
    (∃ fd now ctl, a = .accept (.client fd q now) ctl ∧ conn'.client = newClient now) ∨
    (∃ recv send ctl flags events conn i, a = .client recv send ctl ∧
      s.phase = .handling (⟨.client q, flags⟩ :: events) ∧ s.tables.heap q = some conn ∧
      handleEvent flags recv send conn.client = some (conn'.client, i) ∧
      conn'.client.state ≠ .disconnected) ∨
    (s.tables.heap q = some conn' ∧ s.target a ≠ some q) := by
  cases hs.change h with
  | unchanged htables htarget =>
      rw [htables] at hq
      exact .inr (.inr ⟨hq, by rw [htarget]; nofun⟩)
  | stuck => exact absurd rfl hstuck
  | refused hp hfd => exact absurd rfl hfailed
  | @admitted fd p now events hp hfd =>
      simp only [Tables.admitted, Tables.register, Tables.getNewClient, update_apply] at hq
      split at hq
      next hqp =>
        cases hq
        exact .inl ⟨fd, now, true, by rw [hqp], rfl⟩
      next hqp => exact .inr (.inr ⟨hq, fun heq => hqp (Option.some.inj heq).symm⟩)
  | @handled recv send ctl flags events p conn c i t' _ hphase hp hevent ht' hinv hend =>
      have hheap : t'.heap = update s.tables.heap p (some { conn with client := c }) := by
        rcases ht' with rfl | ⟨i, rfl⟩ <;> rfl
      have hother : q ≠ p → t'.heap q = some conn' →
          s.tables.heap q = some conn' ∧ s.target (.client recv send ctl) ≠ some q := by
        intro hqp hq'
        rw [hheap, update_of_ne hqp] at hq'
        simp only [Loop.target, hphase]
        exact ⟨hq', fun heq => hqp (Option.some.inj heq).symm⟩
      rcases hend with rfl | ⟨hconnected, rfl⟩ | ⟨-, rfl⟩
      · exact absurd rfl hfailed
      · by_cases hqp : q = p
        · subst hqp
          rw [show t'.heap q = _ from by rw [hheap, update_self]] at hq
          cases hq
          exact .inr (.inl ⟨recv, send, ctl, flags, events, conn, i, rfl,
            hphase, hp, hevent, hconnected⟩)
        · exact .inr (.inr (hother hqp hq))
      · obtain ⟨hqp, hq⟩ :=
          @Tables.released_heap (t'.unregister conn.fd) p { conn with client := c } q conn' hq
        exact .inr (.inr (hother hqp hq))
  | @released a s' p conn i hi hp htables htarget =>
      rw [htables] at hq
      exact .inr (.inr ⟨(@Tables.released_heap s.tables p conn q conn' hq).2, by
        rw [htarget]; nofun⟩)

theorem Timed.handled_eq_some {p : Nat} {conn : Conn} {es : List (Moment Int)} :
    s.handled x = some (p, conn, es) ↔ ∃ recv send ctl flags events,
    x.action = .client recv send ctl ∧
      s.loop.phase = .handling (⟨.client p, flags⟩ :: events) ∧ s.loop.tables.heap p = some conn ∧
      es = eventActivity flags recv send x.times conn.client := by
  constructor
  · intro h
    unfold Timed.handled at h
    split at h
    next recv send ctl q flags events haction hphase =>
      obtain ⟨conn', hconn, heq⟩ := Option.map_eq_some_iff.mp h
      cases heq
      exact ⟨recv, send, ctl, flags, events, haction, hphase, hconn, rfl⟩
    · cases h
  · rintro ⟨recv, send, ctl, flags, events, haction, hphase, hconn, rfl⟩
    simp only [Timed.handled, haction, hphase, hconn, Option.map_some]

theorem Timed.record_other {q : Nat} (h : s.loop.target x.action ≠ some q) :
    s.record x q = s.moved q := by
  cases hhandled : s.handled x with
  | some y =>
      obtain ⟨p, conn, es⟩ := y
      obtain ⟨recv, send, ctl, flags, events, haction, hphase, -⟩ :=
        Timed.handled_eq_some.mp hhandled
      simp only [Timed.record, hhandled]
      refine update_of_ne (fun hqp => h ?_) _ _
      simp only [Loop.target, haction, hphase, hqp]
  | none =>
      have hrecord : s.record x = s.moved ∨ ∃ fd p now ctl,
          x.action = .accept (.client fd p now) ctl ∧ s.record x = update s.moved p [] := by
        simp only [Timed.record, hhandled]
        split
        next fd p now ctl haction => exact .inr ⟨fd, p, now, ctl, haction, rfl⟩
        · exact .inl rfl
      rcases hrecord with hrecord | ⟨fd, p, now, ctl, haction, hrecord⟩
      · rw [hrecord]
      · rw [hrecord]
        refine update_of_ne (fun hqp => h ?_) _ _
        rw [haction, hqp]
        rfl

theorem timedStep_cases (h : timedStep x s = some s') :
    x.Timely ∧ InOrder s.clock (s.activity x) ∧ step x.action s.loop = some s'.loop ∧
      s'.clock = clockAfter s.clock (s.activity x) ∧ s'.moved = s.record x := by
  unfold timedStep at h
  split at h
  next hguard =>
    obtain ⟨loop, hstep, rfl⟩ := Option.map_eq_some_iff.mp h
    exact ⟨hguard.1, hguard.2, hstep, rfl, rfl⟩
  · cases h

/-- The stamp of every client stands for what has moved. -/
def Timed.AllFresh (s : Timed) : Prop :=
  s.loop.phase ≠ .failed → s.loop.phase ≠ .stuck → ∀ p conn, s.loop.tables.heap p = some conn →
    Fresh s.clock conn.client.lastActive (s.moved p)

theorem step_not_stuck {s s' : Loop} {a : Action} (h : step a s = some s') : s.phase ≠ .stuck := by
  obtain ⟨phase, t⟩ := s
  rintro rfl
  cases a <;> cases h

/-- **A step in time** keeps the stamps, if what moves in it is stamped. -/
theorem Timed.AllFresh.step (hs : s.AllFresh) (hinv : s.loop.Inv) (hstamped : AllStamped s x)
    (h : timedStep x s = some s') : s'.AllFresh := by
  obtain ⟨htimely, horder, hstep, hclock, hmoved⟩ := timedStep_cases h
  have hfresh := hs (step_not_failed hstep) (step_not_stuck hstep)
  intro hfailed hstuck q conn' hq
  rw [hclock, hmoved]
  obtain ⟨fd, now, ctl, haction, hnew⟩ |
    ⟨recv, send, ctl, flags, events, conn, i, haction, hphase, hconn, hevent, hconnected⟩ |
    ⟨hconn, hother⟩ := hinv.step_client hstep hfailed hstuck hq
  · -- a new client
    have hnone : s.handled x = none := by simp only [Timed.handled, haction]
    simp only [Timed.activity, Timed.record, hnone, haction, update_self, hnew]
    exact ⟨le_rfl, nofun⟩
  · -- the client whose event is handled
    have hhandled : s.handled x
        = some (q, conn, eventActivity flags recv send x.times conn.client) :=
      Timed.handled_eq_some.mpr ⟨recv, send, ctl, flags, events, haction, hphase, hconn, rfl⟩
    simp only [AllStamped, hhandled] at hstamped
    simp only [Timed.activity, hhandled] at horder
    simp only [Timed.activity, Timed.record, hhandled, update_self]
    have htimes : x.times.length = send.script.length := by
      simpa only [TimedAction.Timely, haction] using htimely
    have hleaves := handleEvent_leaves htimes hevent
    have hcovered := hstamped.resolve_left fun hgone =>
      hconnected ((hleaves.gone hgone).resolve_right fun hshut => nomatch hshut.1)
    rw [hleaves.lastActive]
    exact (hfresh q conn hconn).after horder hcovered
  · -- another client
    rw [Timed.record_other hother]
    exact (hfresh q conn' hconn).later (le_clockAfter horder)

theorem Timed.AllFresh.onlyIdle (hs : s.AllFresh) (hinv : s.loop.Inv) : OnlyIdle s x := by
  intro now i p _ hphase hi hclosed t ht
  obtain ⟨conn, hconn⟩ := hinv.tables.clients (Slots.mem_stored.mpr (List.mem_of_getElem? hi))
  obtain hsweep | hsweep | ⟨q, other, hi', hother, hexpired, -⟩ :=
    @sweepClient_cases _ now i hinv.tables
  · rw [hsweep] at hclosed
    exact absurd (hconn.symm.trans hclosed) nofun
  · rw [hsweep] at hclosed
    exact absurd (hconn.symm.trans hclosed) nofun
  · obtain rfl : p = q := Option.some.inj (Option.some.inj (hi.symm.trans hi'))
    have hle := (hs (by rw [hphase]; nofun) (by rw [hphase]; nofun) p other hother).moved_le t ht
    omega

/-- At the start there is no client. -/
theorem Timed.AllFresh.start {clock : Int} {moved : Nat → List Int} :
    Timed.AllFresh ⟨⟨.running, .init⟩, clock, moved⟩ := by
  intro _ _ p conn hconn
  cases hconn

/-- **Only idle clients are swept**, in every run in which all that moves is stamped. -/
theorem idle_swept {past : List (Timed × TimedAction)} (h : timedLoop.Run past s)
    (hstamped : ∀ y ∈ past, AllStamped y.1 y.2) : ∀ y ∈ past, OnlyIdle y.1 y.2 := by
  have hfresh : System.Always (fun s => s.loop.Inv ∧ s.AllFresh) past s := by
    refine h.always_of (P := AllStamped) (fun s hs => ?_) (fun x s s' hI hx hs => ?_) hstamped
    · obtain ⟨loop, clock, moved⟩ := s
      obtain ⟨rfl, -⟩ : loop = _ ∧ _ := hs
      exact ⟨.init, .start⟩
    · exact ⟨step_inv hI.1 (timedStep_cases hs).2.2.1, hI.2.step hI.1 hx hs⟩
  intro y hy
  obtain ⟨hinv, hall⟩ := hfresh.1 y hy
  exact hall.onlyIdle hinv

end Timed

/-! ## An idle client and a busy one -/

def Timed.start : Timed := ⟨⟨.running, .init⟩, 0, fun _ => []⟩

theorem timedLoop_exec {actions : List TimedAction} {s : Timed}
    (h : System.exec timedStep actions .start = some s) :
    timedLoop.Run (System.steps timedStep actions .start) s := by
  have hstart : (System.ofStep (fun s => s.loop = ⟨.running, .init⟩ ∧ s.moved = fun _ => [])
    timedStep).Run [] .start := .start ⟨rfl, rfl⟩
  exact hstart.steps h

/-- Actions without a `send`. -/
def untimed (actions : List Action) : List TimedAction := actions.map (⟨·, []⟩)

/-- A batch with an event of one descriptor, and what `action` makes of it. -/
def batch (ready : Option Nat × Flags) (action : Action) : List Action :=
  [.wait [ready], action, .endBatch]

/-- A round of the loop in which a client connects. -/
def connect : List TimedAction :=
  untimed (batch (none, ⟨true, false, false⟩) (.accept (.client 4 64 0) true)
    ++ List.replicate (maxClients + 1) (.sweep 0))

/-- The client sends three bytes in the next second, and is swept five seconds later. -/
def quiet : List TimedAction :=
  connect ++ untimed (batch (some 4, ⟨true, false, false⟩) (.client
    { pageRecv [] with script := [.data (ascii "GET") 1] } ⟨[], pageWorld, pageWorld⟩ true))
    ++ untimed [.sweep 6]

theorem quiet_swept : ∃ past s, timedLoop.Run past s ∧ s.loop.tables.heap 64 = none ∧
    s.moved 64 = [1] ∧ ∀ y ∈ past, OnlyIdle y.1 y.2 := by
  have hrun : ((System.exec timedStep quiet .start).any fun s =>
      (s.loop.tables.heap 64).isNone && s.moved 64 == [1]) = true := by
    decide +kernel
  obtain ⟨s, hexec, hs⟩ := (Option.any_eq_true _ _).mp hrun
  simp only [Bool.and_eq_true, Option.isNone_iff_eq_none, beq_iff_eq] at hs
  have hstamped : ∀ y ∈ System.steps timedStep quiet .start, AllStamped y.1 y.2 := by
    decide +kernel
  have hpast := timedLoop_exec hexec
  exact ⟨_, s, hpast, hs.1, hs.2, idle_swept hpast hstamped⟩

/-- The socket takes four bytes at the time `now`. -/
def slowSend (now : Int) : List TimedAction :=
  [⟨.wait [(some 4, ⟨false, true, false⟩)], []⟩,
    ⟨.client (pageRecv []) ⟨[.accepted 3, .wouldBlock], pageWorld, pageWorld⟩ true, [now, now]⟩,
    ⟨.endBatch, []⟩]

/-- The client requests a page, and takes four bytes of it at once and four more five
seconds later. -/
def busy : List TimedAction :=
  connect ++ untimed (batch (some 4, ⟨true, false, false⟩)
      (.client (pageRecv (ascii "GET / HTTP/1.1" ++ crlfcrlf)) ⟨[], pageWorld, pageWorld⟩ true)
      ++ List.replicate (maxClients + 1) (.sweep 0))
    ++ slowSend 0 ++ untimed (List.replicate (maxClients + 1) (.sweep 0)) ++ slowSend 5

/-- The client of `busy` is swept in the second in which it takes four bytes. -/
theorem busy_swept : ¬ ∀ past s, timedLoop.Run past s → ∀ y ∈ past, OnlyIdle y.1 y.2 := by
  intro hall
  have hrun : ((System.exec timedStep busy .start).any fun s =>
      decide (s.loop.phase = .sweeping 0) &&
      s.loop.tables.clients[0]? == some (some 64) &&
      ((sweepClient 5 0 s.loop.tables).tables.heap 64).isNone && (s.moved 64).contains 5 &&
      (timedStep ⟨.sweep 5, []⟩ s).isSome) = true := by
    decide +kernel
  obtain ⟨s, hexec, hs⟩ := (Option.any_eq_true _ _).mp hrun
  simp only [Bool.and_eq_true, decide_eq_true_eq, Option.isNone_iff_eq_none, beq_iff_eq,
    List.contains_iff_mem] at hs
  obtain ⟨⟨⟨⟨hphase, hclient⟩, hclosed⟩, hmoved⟩, hstep⟩ := hs
  obtain ⟨s', hs'⟩ := Option.isSome_iff_exists.mp hstep
  have hsweep : timedLoop.Run _ s' :=
    (timedLoop_exec hexec).step (show timedLoop.step ⟨.sweep 5, []⟩ s s' from hs')
  have hidle := hall _ s' hsweep (s, ⟨.sweep 5, []⟩) (by simp) 5 0 64 rfl hphase hclient hclosed 5
    hmoved
  exact absurd hidle (by decide)

end InternetLabs.EventServer
