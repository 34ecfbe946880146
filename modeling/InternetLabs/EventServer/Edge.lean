/-
# `InternetLabs.EventServer.Edge` — what the last `send` of a call came to

The event loop registers a client's socket edge-triggered: after a call of
`send_responses` that returns 1 it hears of the socket again only if the socket has
refused a `send`.  `lastSend` is what the last `send` of a call came to, read off the
call itself: the sends it makes are the shortest beginning of the script with which it
comes to an end.

A call stops sending for one more reason than the socket's: it has sent a response
that another one follows.  `send_refused_iff`: the law holds but for those calls.
-/
import InternetLabs.EventServer.Send
import InternetLabs.EventServer.Pages

namespace InternetLabs.EventServer

open InternetLabs

/-! ## The sends of a call

How many calls of `send` a script is used for is counted, so that it can be said what
the last of them came to. -/

/-- The call has come to an end. -/
def Ending.ended : Ending → Bool
  | .returned _ _ => true
  | .sending => false
  | .undefined => true

/-- How many times a call of `send_responses` calls `send`. -/
def sendCount (env : SendEnv) (c : Client) : Option Nat :=
  (List.range (env.script.length + 1)).find? fun n =>
    (sendResponses { env with script := env.script.take n } c).ending.ended

/-- What the last `send` of the call comes to. -/
def lastSend (env : SendEnv) (c : Client) : Option SendOutcome :=
  (sendCount env c).bind fun n => (env.script.take n).getLast?

/-- The call `call` makes the sends `used`, whatever the socket would do after them. -/
structure Uses (call : List SendOutcome → Ending) (used : List SendOutcome) : Prop where
  before : ∀ s, s <+: used → s ≠ used → call s = .sending
  after : ∀ more, call (used ++ more) = call used
  ended : (call used).ended = true

theorem Uses.lastSend {env : SendEnv} {c : Client} {used rest : List SendOutcome}
    (hscript : env.script = used ++ rest)
    (h : Uses (fun s => (sendResponses { env with script := s } c).ending) used) :
    lastSend env c = used.getLast? := by
  have hcount : sendCount env c = some used.length := by
    rw [sendCount, List.find?_range_eq_some, hscript]
    refine ⟨?_, ?_, fun n hn => ?_⟩
    · rw [List.take_left]
      exact h.ended
    · rw [List.mem_range, List.length_append]
      omega
    · have hshort : (used ++ rest).take n <+: used := by
        rw [List.take_append_of_le_length (Nat.le_of_lt hn)]
        exact List.take_prefix n used
      have hne : (used ++ rest).take n ≠ used := by
        intro heq
        have := congrArg List.length heq
        rw [List.length_take, List.length_append] at this
        omega
      rw [show (sendResponses { env with script := (used ++ rest).take n } c).ending = .sending from
        h.before _ hshort hne]
      rfl
  rw [EventServer.lastSend, hcount, hscript, Option.bind_some, List.take_left]

/-! ## What the socket takes

The condition is about the script and the two buffers only: whether the sends, one after
the other, take it all. -/

/-- The bytes of the buffer that are still to be sent. -/
def Client.left (c : Client) : Nat := c.sendBuf.length - c.sendBuf.position

/-- The outcomes left when the socket has taken `n` bytes, if it refuses no `send`
before. -/
def takes : List SendOutcome → Nat → Option (List SendOutcome)
  | script, 0 => some script
  | .accepted k :: script, n + 1 => takes script (n - k)
  | .interrupted _ :: script, n + 1 => takes script (n + 1)
  | _, _ + 1 => none

/-- The length of the body of the response. -/
def bodyLength (w : World) (c : Client) : Nat :=
  if c.status = .ok then
    match c.requests[c.curRequest]?.bind fun request => request.uri.bind filepath with
    | none => 0
    | some path =>
        match w.openFile path with
        | .error _ => 0
        | .ok file => file.content.length
  else 0

/-- The socket takes what is left of the response being sent. -/
def TakesResponse (env : SendEnv) (c : Client) : Prop :=
  if c.state = .sendingHeaders then
    ((takes env.script c.left).bind fun rest => takes rest (bodyLength env.body c)).isSome
  else (takes env.script c.left).isSome

instance (env : SendEnv) (c : Client) : Decidable (TakesResponse env c) := by
  unfold TakesResponse
  infer_instance

section SendData
variable {c : Client}

theorem Client.advance_left (c : Client) (k : Nat) :
    (c.advance (min (k + 1) (c.sendBuf.length - c.sendBuf.position))).left = c.left - (k + 1) := by
  simp only [Client.left, Client.advance]
  omega

/-- `send_data` makes the sends `used`. -/
structure Consumes (script : List SendOutcome) (c : Client) (used : List SendOutcome) : Prop where
  rest : script = used ++ (sendData script c).script
  before : ∀ s, s <+: used → s ≠ used → (sendData s c).ret = none
  after : ∀ more, sendData (used ++ more) c = { sendData script c with script := more }

theorem Consumes.nil {script : List SendOutcome}
    (h : ∀ s, sendData s c = { sendData script c with script := s })
    (hscript : (sendData script c).script = script) : Consumes script c [] where
  rest := hscript.symm
  before _ hs hne := absurd (List.prefix_nil.mp hs) hne
  after more := h more

/-- One more `send` before. -/
theorem Consumes.cons {c' : Client} {o : SendOutcome} {script used : List SendOutcome}
    (acc : Bytes) (hnil : (sendData [] c).ret = none)
    (hstep : ∀ s, sendData (o :: s) c
      = { sendData s c' with accepted := acc ++ (sendData s c').accepted })
    (h : Consumes script c' used) : Consumes (o :: script) c (o :: used) where
  rest := by
    rw [hstep]
    exact congrArg (o :: ·) h.rest
  before := by
    intro s hs hne
    cases s with
    | nil => exact hnil
    | cons o' s =>
        obtain ⟨rfl, hpre⟩ := List.cons_prefix_cons.mp hs
        rw [hstep]
        exact h.before _ hpre fun heq => hne (by rw [heq])
  after := by
    intro more
    rw [List.cons_append, hstep, hstep, h.after more]

/-- Nothing is left, and no `send` is made. -/
theorem Consumes.done (hleft : c.sendBuf.length - c.sendBuf.position = 0)
    (script : List SendOutcome) : Consumes script c [] ∧ (sendData script c).ret = some 0 ∧
      takes script c.left = some (sendData script c).script := by
  refine ⟨.nil (fun s => ?_) ?_, ?_, ?_⟩
  · rw [sendData_done hleft, sendData_done hleft]
  · rw [sendData_done hleft]
  · rw [sendData_done hleft]
  · rw [sendData_done hleft, Client.left, hleft, takes.eq_def]

/-- A `send` that ends the loop. -/
theorem Consumes.stop {o : SendOutcome} {script : List SendOutcome} {ret : Nat} {client : Client}
    (hnil : (sendData [] c).ret = none)
    (hs : ∀ s, sendData (o :: s) c = ⟨some ret, client, [], s⟩) :
    Consumes (o :: script) c [o] where
  rest := by rw [hs]; rfl
  before := by
    intro s hpre hne
    rcases List.prefix_cons_iff.mp hpre with rfl | ⟨s', rfl, hs'⟩
    · exact hnil
    · exact absurd (by rw [List.prefix_nil.mp hs']) hne
  after := by
    intro more
    rw [List.singleton_append, hs, hs]

theorem getLast?_cons_wouldBlock {o : SendOutcome} (ho : o ≠ .wouldBlock)
    (used : List SendOutcome) :
    (o :: used).getLast? = some .wouldBlock ↔ used.getLast? = some .wouldBlock := by
  rw [List.getLast?_cons]
  cases used.getLast? with
  | none => simp [ho]
  | some o' => simp

/-- **`send_data`** sends all that is left if the socket takes it; otherwise it returns
1 with the client given up, or behind a `send` that was refused. -/
theorem sendData_consumes {script : List SendOutcome}
    (hrun : ∀ o ∈ script, o ≠ .interrupted false) (c : Client) :
    ((sendData script c).ret = none ∧ takes script c.left = none) ∨
      ∃ used, Consumes script c used ∧
        ((sendData script c).ret = some 0 ∧ takes script c.left = some (sendData script c).script ∧
            used.getLast? ≠ some .wouldBlock ∨
          (sendData script c).ret = some 1 ∧ takes script c.left = none ∧
            (used.getLast? = some .wouldBlock ∨ (sendData script c).client.state
            = .disconnected)) := by
  induction script generalizing c with
  | nil =>
      by_cases hleft : c.sendBuf.length - c.sendBuf.position = 0
      · obtain ⟨hused, hret, htakes⟩ := Consumes.done hleft []
        exact .inr ⟨[], hused, .inl ⟨hret, htakes, nofun⟩⟩
      · obtain ⟨n, hn⟩ := Nat.exists_eq_succ_of_ne_zero hleft
        refine .inl ⟨by rw [sendData_nil hleft], ?_⟩
        rw [Client.left, hn]
        rfl
  | cons o script ih =>
      by_cases hleft : c.sendBuf.length - c.sendBuf.position = 0
      · obtain ⟨hused, hret, htakes⟩ := Consumes.done hleft (o :: script)
        exact .inr ⟨[], hused, .inl ⟨hret, htakes, nofun⟩⟩
      have hnil : (sendData [] c).ret = none := by rw [sendData_nil hleft]
      obtain ⟨n, hn⟩ := Nat.exists_eq_succ_of_ne_zero hleft
      have hrest : ∀ o ∈ script, o ≠ .interrupted false :=
        fun o ho => hrun o (List.mem_cons_of_mem _ ho)
      cases o with
      | accepted k =>
          have hstep := fun s => sendData_accepted hleft s k
          have htakes : takes (.accepted k :: script) c.left
              = takes script (c.advance (min (k + 1)
                  (c.sendBuf.length - c.sendBuf.position))).left := by
            rw [Client.advance_left, Client.left, hn, takes, Nat.succ_sub_succ]
          rw [htakes]
          rcases ih hrest (c.advance (min (k + 1) (c.sendBuf.length - c.sendBuf.position))) with
            ⟨hret, hnone⟩ | ⟨used, hused, hend⟩
          · exact .inl ⟨by rw [hstep]; exact hret, hnone⟩
          · have hlast := @getLast?_cons_wouldBlock (.accepted k) nofun used
            refine .inr ⟨_, hused.cons _ hnil hstep, ?_⟩
            rw [hstep, ne_eq, hlast]
            exact hend
      | interrupted serverRunning =>
          have htrue : serverRunning = true := by
            cases serverRunning with
            | true => rfl
            | false => exact absurd rfl (hrun _ List.mem_cons_self)
          subst htrue
          have hstep : ∀ s, sendData (.interrupted true :: s) c
              = { sendData s c with accepted := [] ++ (sendData s c).accepted } := by
            intro s
            rw [sendData_interrupted hleft]
            rfl
          have htakes : takes (.interrupted true :: script) c.left = takes script c.left := by
            rw [Client.left, hn, takes]
          rw [htakes]
          rcases ih hrest c with ⟨hret, hnone⟩ | ⟨used, hused, hend⟩
          · exact .inl ⟨by rw [hstep]; exact hret, hnone⟩
          · have hlast := @getLast?_cons_wouldBlock (.interrupted true) nofun used
            refine .inr ⟨_, hused.cons _ hnil hstep, ?_⟩
            rw [hstep, ne_eq, hlast]
            exact hend
      | wouldBlock =>
          have hs := sendData_wouldBlock hleft
          refine .inr ⟨_, .stop hnil hs, .inr ⟨by rw [hs], ?_, .inl rfl⟩⟩
          rw [Client.left, hn]
          rfl
      | reset =>
          have hs := sendData_reset hleft
          refine .inr ⟨_, .stop hnil hs, .inr ⟨by rw [hs], ?_, .inr (by rw [hs])⟩⟩
          rw [Client.left, hn]
          rfl
      | failed =>
          have hs := sendData_failed hleft
          refine .inr ⟨_, .stop hnil hs, .inr ⟨by rw [hs], ?_, .inr (by rw [hs])⟩⟩
          rw [Client.left, hn]
          rfl

end SendData

/-! ## The body -/

theorem readLoop_length_eq {reads : List Bytes} {b b' : Buffer} (h : readLoop reads b = some b') :
    b'.length = b.length + (reads.takeWhile (· ≠ [])).flatten.length := by
  induction reads generalizing b with
  | nil => cases h; rfl
  | cons bytes rest ih =>
      rw [readLoop] at h
      split at h
      next hnil =>
        cases h
        rw [List.takeWhile_cons_of_neg (by simpa using hnil)]
        rfl
      next hne =>
        obtain ⟨b₁, happend, h⟩ := Option.bind_eq_some_iff.mp h
        have hstep : b₁.length = b.length + bytes.length := by
          simp only [appendRead] at happend
          split at happend
          · split at happend
            · cases happend; rfl
            · cases happend
          · cases happend; rfl
        rw [ih h, hstep, List.takeWhile_cons_of_pos (by simpa using hne), List.flatten_cons,
          List.length_append, Nat.add_assoc]

theorem buildBody_left {w : World} {c c' : Client}
    (h : buildBody w { c with sendBuf := c.sendBuf.clear } = some c') :
    c'.left = bodyLength w c := by
  have hposition : c'.sendBuf.position = 0 := (buildBody_frame h).1.position
  rw [Client.left, hposition, Nat.sub_zero, bodyLength]
  unfold buildBody at h
  by_cases hok : c.status = .ok
  swap
  · rw [if_neg hok] at h
    rw [if_neg hok]
    cases h
    rfl
  rw [if_pos hok] at h
  obtain ⟨request, hrequest, h⟩ := Option.bind_eq_some_iff.mp h
  obtain ⟨uri, huri, h⟩ := Option.bind_eq_some_iff.mp h
  obtain ⟨path, hpath, h⟩ := Option.bind_eq_some_iff.mp h
  obtain ⟨sendBuf, hread, h⟩ := Option.bind_eq_some_iff.mp h
  cases h
  have hrequest : c.requests[c.curRequest]? = some request := hrequest
  rw [if_pos hok, hrequest, Option.bind_some, huri, Option.bind_some, hpath]
  simp only [readLoop_length_eq hread, Buffer.clear_length, Nat.zero_add]
  cases w.openFile path with
  | error errno => rfl
  | ok file => rfl

/-! ## A call of `send_responses` -/

section Call
variable {env : SendEnv} {c : Client} {script : List SendOutcome}

theorem sendBody_ending (hstate : c.state = .sendingBody) :
    (sendBody env script c).ending =
      match (sendData script c).ret with
      | none => .sending
      | some (_ + 1) => .returned 1 (sendData script c).client
      | some 0 =>
          let c : Client := { (sendData script c).client with
            curRequest := (sendData script c).client.curRequest + 1 }
          if c.curRequest < c.numRequests then
            match buildHeader env.header
                { c with state := .sendingHeaders, sendBuf := c.sendBuf.rewind } with
            | none => .undefined
            | some c => .returned 1 c
          else .returned 0 c.finish := by
  unfold sendBody
  rw [if_pos hstate]
  generalize sendData script c = sent
  obtain ⟨ret, client, accepted, rest⟩ := sent
  match ret with
  | none => rfl
  | some (_ + 1) => rfl
  | some 0 =>
      simp only
      split
      · cases buildHeader env.header { client with
          curRequest := client.curRequest + 1
          state := .sendingHeaders
          sendBuf := client.sendBuf.rewind } with
        | none => rfl
        | some c => rfl
      · rfl

theorem Consumes.self {used : List SendOutcome} (h : Consumes script c used) :
    sendData used c = { sendData script c with script := [] } := by
  have := h.after []
  rwa [List.append_nil] at this

/-- The call keeps the law: it returns 0 or 1, and 1 only behind a `send` that was
refused, or with the client given up. -/
def Law (used : List SendOutcome) (ret : Nat) (c : Client) : Prop :=
  (ret = 0 ∨ ret = 1) ∧ (ret = 1 → c.state ≠ .disconnected → used.getLast? = some .wouldBlock)

theorem sendBody_uses (hstate : c.state = .sendingBody)
    (hrun : ∀ o ∈ script, o ≠ .interrupted false) :
    (sendBody env script c).ending = .sending ∧ takes script c.left = none ∨
      ∃ used rest, script = used ++ rest ∧ Uses (fun s => (sendBody env s c).ending) used ∧
        ∀ ret c', (sendBody env script c).ending = .returned ret c' →
          (Law used ret c' ↔ ¬ (c.curRequest + 1 < c.numRequests ∧
          (takes script c.left).isSome)) := by
  rcases sendData_consumes hrun c with ⟨hret, htakes⟩ | ⟨used, hused, hend⟩
  · refine .inl ⟨?_, htakes⟩
    rw [sendBody_ending hstate, hret]
  refine .inr ⟨used, _, hused.rest, ⟨fun s hs hne => ?_, fun more => ?_, ?_⟩, fun ret c' hret => ?_⟩
  · rw [sendBody_ending hstate, hused.before s hs hne]
  · rw [sendBody_ending hstate, sendBody_ending hstate, hused.after more, hused.self]
  · rw [sendBody_ending hstate, hused.self]
    rcases hend with ⟨hret, -⟩ | ⟨hret, -⟩
    · simp only [hret]
      split
      · split <;> rfl
      · rfl
    · simp only [hret]
      rfl
  · rw [sendBody_ending hstate] at hret
    obtain ⟨sendBuf, state, hclient⟩ := sendData_frame script c
    rcases hend with ⟨hzero, htakes, hlast⟩ | ⟨hone, htakes, hlast⟩
    · rw [hzero, hclient] at hret
      simp only at hret
      split at hret
      next hnext =>
        split at hret
        · cases hret
        next c₂ hbuild =>
          cases hret
          have hsending : c'.state = .sendingHeaders := (buildHeader_frame hbuild).state
          refine ⟨fun hlaw => absurd (hlaw.2 rfl (by rw [hsending]; nofun)) hlast, fun hno => ?_⟩
          exact absurd ⟨hnext, by rw [htakes]; rfl⟩ hno
      next hnext =>
        cases hret
        exact ⟨fun _ hno => hnext hno.1, fun _ => ⟨.inl rfl, nofun⟩⟩
    · rw [hone] at hret
      cases hret
      refine ⟨fun _ hno => ?_, fun _ => ⟨.inr rfl, fun _ hconn => ?_⟩⟩
      · rw [htakes] at hno
        cases hno.2
      · exact hlast.resolve_right hconn

theorem sendBody_ending_of_ne (hstate : c.state ≠ .sendingBody) :
    (sendBody env script c).ending = .returned 1 c := by
  unfold sendBody
  rw [if_neg hstate]

theorem sendResponses_ending (hstate : c.state = .sendingHeaders) :
    (sendResponses env c).ending =
      match (sendData env.script c).ret with
      | none => .sending
      | some (_ + 1) =>
          (sendBody env (sendData env.script c).script (sendData env.script c).client).ending
      | some 0 =>
          match buildBody env.body { (sendData env.script c).client with
              sendBuf := (sendData env.script c).client.sendBuf.clear } with
          | none => .undefined
          | some c' =>
              (sendBody env (sendData env.script c).script
              { c' with state := .sendingBody }).ending := by
  unfold sendResponses
  rw [if_pos hstate]
  generalize sendData env.script c = sent
  obtain ⟨ret, client, accepted, rest⟩ := sent
  match ret with
  | none => rfl
  | some (_ + 1) => rfl
  | some 0 =>
      simp only
      cases buildBody env.body { client with sendBuf := client.sendBuf.clear } with
      | none => rfl
      | some c' => rfl

/-- The part of the call that sends a header, when it is sent in full. -/
theorem Uses.header {used used' : List SendOutcome} {c₂ : Client}
    (hstate : c.state = .sendingHeaders)
    (hused : Consumes script c used) (hret : (sendData script c).ret = some 0)
    (hbuild : buildBody env.body { (sendData script c).client with
      sendBuf := (sendData script c).client.sendBuf.clear } = some c₂)
    (h : Uses (fun s => (sendBody env s { c₂ with state := .sendingBody }).ending) used') :
    Uses (fun s => (sendResponses { env with script := s } c).ending) (used ++ used') := by
  have hbody : ∀ s, (sendResponses { env with script := used ++ s } c).ending
      = (sendBody env s { c₂ with state := .sendingBody }).ending := by
    intro s
    rw [sendResponses_ending hstate]
    simp only [hused.after, hret, hbuild]
    rfl
  refine ⟨fun s hs hne => ?_, fun more => ?_, ?_⟩
  · rcases List.prefix_or_prefix_of_prefix hs (List.prefix_append used used') with hshort | ⟨t, rfl⟩
    · by_cases heq : s = used
      · subst heq
        have hnil := hbody []
        rw [List.append_nil] at hnil
        rw [hnil]
        exact h.before [] List.nil_prefix fun hnil' => hne (by rw [← hnil', List.append_nil])
      · rw [sendResponses_ending hstate]
        simp only [hused.before s hshort heq]
    · rw [hbody]
      exact h.before t ((List.prefix_append_right_inj used).mp hs) fun heq => hne (by rw [heq])
  · simp only [List.append_assoc, hbody]
    exact h.after more
  · simp only [hbody]
    exact h.ended

theorem sendResponses_unsent (hstate : c.state = .sendingHeaders)
    (hret : (sendData env.script c).ret = some 1) :
    (sendResponses env c).ending = .returned 1 (sendData env.script c).client := by
  have hne : (sendData env.script c).client.state ≠ .sendingBody := by
    obtain ⟨n, -, hadvance | ⟨hadvance, -⟩⟩ := sendData_client env.script c
    · rw [hadvance]
      show c.state ≠ _
      rw [hstate]
      nofun
    · rw [hadvance]
      nofun
  rw [sendResponses_ending hstate, hret]
  exact sendBody_ending_of_ne hne

/-- The call that stops in the header makes the sends that `send_data` makes. -/
theorem Uses.unsent {used : List SendOutcome} (hstate : c.state = .sendingHeaders)
    (hused : Consumes script c used) (hret : (sendData script c).ret = some 1) :
    Uses (fun s => (sendResponses { env with script := s } c).ending) used := by
  have hcall : ∀ s, (sendResponses { env with script := used ++ s } c).ending
      = .returned 1 (sendData script c).client := by
    intro s
    rw [sendResponses_unsent hstate (by rw [hused.after]; exact hret), hused.after]
  have hself := hcall []
  rw [List.append_nil] at hself
  refine ⟨fun s hs hne => ?_, fun more => ?_, ?_⟩
  · rw [sendResponses_ending hstate]
    simp only [hused.before s hs hne]
  · simp only [hcall, hself]
  · simp only [hself]
    rfl

theorem sendResponses_of_body (hstate : c.state = .sendingBody) (s : List SendOutcome) :
    sendResponses { env with script := s } c = sendBody env s c := by
  unfold sendResponses
  exact if_neg (by rw [hstate]; nofun)

/-- **The edge-triggered law**, of a client that sends while the server is running: the
call returns 0, or 1 behind a `send` that was refused, or gives the client up, exactly if
it does not send the last of a response that another one follows. -/
theorem send_refused_iff (hstate : c.state = .sendingHeaders ∨ c.state = .sendingBody)
    (hrun : ∀ o ∈ env.script, o ≠ .interrupted false) {ret : Nat} {c' : Client}
    (hend : (sendResponses env c).ending = .returned ret c') :
    (ret = 0 ∨ ret = 1) ∧ (ret = 1 → c'.state ≠ .disconnected → lastSend env c = some .wouldBlock) ↔
      ¬ (c.curRequest + 1 < c.numRequests ∧ TakesResponse env c) := by
  by_cases hheader : c.state = .sendingHeaders
  swap
  · -- the call sends a body only
    have hbody := hstate.resolve_left hheader
    have hcall := @sendResponses_of_body env c hbody
    rw [TakesResponse, if_neg hheader]
    rw [show sendResponses env c = _ from hcall env.script] at hend
    rcases @sendBody_uses env c env.script hbody hrun with ⟨hnone, -⟩ | ⟨used,
      rest, hscript, huses, hlaw⟩
    · rw [hnone] at hend
      cases hend
    · rw [Uses.lastSend hscript (by simpa only [hcall] using huses)]
      exact hlaw ret c' hend
  rw [TakesResponse, if_pos hheader]
  rcases sendData_consumes hrun c with ⟨hret, -⟩ | ⟨used, hused,
    ⟨hret, htakes, hlast⟩ | ⟨hret, htakes, hlast⟩⟩
  · rw [sendResponses_ending hheader, hret] at hend
    cases hend
  · -- the header is sent in full
    rw [sendResponses_ending hheader, hret] at hend
    simp only at hend
    split at hend
    · cases hend
    next c₂ hbuild =>
      obtain ⟨sendBuf, state, hclient⟩ := sendData_frame env.script c
      have hframe := (buildBody_frame hbuild).1
      have hleft : ({ c₂ with state := .sendingBody } : Client).left = bodyLength env.body c := by
        have := buildBody_left hbuild
        rw [hclient] at this
        exact this
      have hcur : c₂.curRequest = c.curRequest ∧ c₂.numRequests = c.numRequests := by
        rw [hframe.curRequest, hframe.numRequests, hclient]
        exact ⟨rfl, rfl⟩
      have hrest : ∀ o ∈ (sendData env.script c).script, o ≠ .interrupted false := by
        intro o ho
        refine hrun o ?_
        rw [hused.rest]
        exact List.mem_append_right used ho
      rw [htakes, Option.bind_some, ← hcur.1, ← hcur.2, ← hleft]
      rcases @sendBody_uses env { c₂ with state := .sendingBody } _ rfl hrest with
        ⟨hnone, -⟩ | ⟨used', rest, hscript, huses, hlaw⟩
      · rw [hnone] at hend
        cases hend
      · have hall := Uses.header hheader hused hret hbuild huses
        have hjoin : env.script = (used ++ used') ++ rest := by
          rw [List.append_assoc, ← hscript]
          exact hused.rest
        rw [Uses.lastSend hjoin hall, List.getLast?_append, ← hlaw ret c' hend, Law]
        have hor : used'.getLast?.or used.getLast? = some .wouldBlock
            ↔ used'.getLast? = some .wouldBlock := by
          cases used'.getLast? with
          | none => simpa using hlast
          | some o => rfl
        rw [hor]
  · -- the header is not sent in full
    rw [sendResponses_unsent hheader hret] at hend
    cases hend
    rw [Uses.lastSend hused.rest (.unsent hheader hused hret), htakes]
    refine ⟨fun _ hno => (by cases hno.2),
      fun _ => ⟨.inr rfl, fun _ hconn => hlast.resolve_right hconn⟩⟩

end Call

/-- One page is requested: the call stops where the socket refuses a `send`. -/
theorem page_refused :
    ∃ c c', receiveRequests (pageRecv (ascii "GET / HTTP/1.1" ++ crlfcrlf))
    (newClient 0) = some (0, c) ∧
      (sendResponses ⟨[.accepted 3, .wouldBlock], pageWorld, pageWorld⟩ c).ending = .returned 1 c' ∧
      c'.state ≠ .disconnected ∧
      lastSend ⟨[.accepted 3, .wouldBlock], pageWorld, pageWorld⟩ c = some .wouldBlock := by
  obtain ⟨env, henv⟩ : ∃ env : SendEnv, env = ⟨[.accepted 3, .wouldBlock], pageWorld, pageWorld⟩ :=
    ⟨_, rfl⟩
  have hrun : ((receiveRequests (pageRecv (ascii "GET / HTTP/1.1" ++ crlfcrlf)) (newClient 0)).any
      fun r => r.1 == 0 && r.2.state == .sendingHeaders &&
        !decide (r.2.curRequest + 1 < r.2.numRequests) &&
        (sendResponses env r.2).ending.returnedWith fun ret c' =>
          ret == 1 && c'.state != .disconnected) = true := by
    rw [henv]
    decide +kernel
  have hscript : ∀ o ∈ env.script, o ≠ .interrupted false := by
    rw [henv]
    decide
  rw [← henv]
  obtain ⟨⟨ret, c⟩, hrecv, hrun⟩ := (Option.any_eq_true _ _).mp hrun
  simp only [Bool.and_eq_true, beq_iff_eq, Bool.not_eq_true', decide_eq_false_iff_not,
    Ending.returnedWith_iff, bne_iff_ne] at hrun
  obtain ⟨⟨⟨rfl, hstate⟩, hnum⟩, ret, c', hend, rfl, hconn⟩ := hrun
  have hlaw := (send_refused_iff (.inl hstate) hscript hend).mpr fun hno => hnum hno.1
  exact ⟨c, c', hrecv, hend, hconn, hlaw.2 rfl hconn⟩

/-- Two pages are requested, and the socket takes all of the first: the call returns 1
behind a `send` that was accepted. -/
theorem pages_not_refused : ¬ ∀ (c : Client) (env : SendEnv) (ret : Nat) (c' : Client), Reach c →
    (c.state = .sendingHeaders ∨ c.state = .sendingBody) →
    (∀ o ∈ env.script, o ≠ .interrupted false) → (sendResponses env c).ending = .returned ret c' →
    (ret = 0 ∨ ret = 1) ∧
      (ret = 1 → c'.state ≠ .disconnected → lastSend env c = some .wouldBlock) := by
  intro hall
  obtain ⟨env, henv⟩ : ∃ env : SendEnv, env = ⟨[.accepted 4000, .accepted 4000],
      pageWorld, pageWorld⟩ :=
    ⟨_, rfl⟩
  have hrun : ((receiveRequests (pageRecv (ascii "GET / HTTP/1.1" ++ crlfcrlf
      ++ ascii "GET / HTTP/1.1" ++ crlfcrlf)) (newClient 0)).any fun r => r.1 == 0 &&
        r.2.state == .sendingHeaders && (sendResponses env r.2).ending.returnedWith fun ret c' =>
          ret == 1 && c'.state != .disconnected && lastSend env r.2 != some .wouldBlock)
              = true := by
    rw [henv]
    decide +kernel
  have hscript : ∀ o ∈ env.script, o ≠ .interrupted false := by
    rw [henv]
    decide
  obtain ⟨⟨ret, c⟩, hrecv, hrun⟩ := (Option.any_eq_true _ _).mp hrun
  simp only [Bool.and_eq_true, beq_iff_eq, Ending.returnedWith_iff, bne_iff_ne] at hrun
  obtain ⟨⟨rfl, hstate⟩, ret, c', hend, ⟨rfl, hconn⟩, hlast⟩ := hrun
  exact hlast ((hall c env 1 c' (.receive (.new 0) rfl hrecv)
    (.inl hstate) hscript hend).2 rfl hconn)

end InternetLabs.EventServer
