/-
# `InternetLabs.EventServer.Delivery` — what a client is sent by the time it disconnects

A connection takes batch after batch.  `outputAll` collects, over all its events, how many
requests each batch has, the parts of responses that are built, and the bytes its socket
accepts; `Supplied` says that they fit together and what the client has still to send.
`loop_sends_in_order` is about every client in every run of the loop, however the events of
clients interleave.
-/
import InternetLabs.EventServer.Isolation

namespace InternetLabs.EventServer

open InternetLabs

/-! ## What events put out

A client leaves a trail in its events: the batches it has been taken for, the parts
built, and the bytes accepted. -/

/-- The batches that are taken, by their numbers of requests, the parts that are built, and the
bytes that are accepted. -/
structure Output where
  batches : List Nat
  built : List Built
  accepted : Bytes

namespace Output

def none : Output := ⟨[], [], []⟩

def append (o o' : Output) : Output :=
  ⟨o.batches ++ o'.batches, o.built ++ o'.built, o.accepted ++ o'.accepted⟩

@[simp] theorem append_none (o : Output) : o.append none = o := by simp [append, none]

@[simp] theorem none_append (o : Output) : none.append o = o := by simp [append, none]

theorem append_assoc (o o' o'' : Output) : (o.append o').append o'' = o.append (o'.append o'') := by
  simp [append]

/-- The parts of the responses to all the requests of the batches; a batch that cannot be parsed
has one response all the same. -/
def parts (o : Output) : List (Part × Nat) := o.batches.flatMap fun n => EventServer.parts (max n 1)

end Output

/-- What `receive_requests` puts out: the header of the first response. -/
def receiveOutput (recv : RecvEnv) (c : Client) : Output :=
  match receiveRequests recv c with
  | some (0, c) => ⟨[c.numRequests], [⟨.header, 0, c.sendBuf.contents⟩], []⟩
  | _ => .none

/-- What `send_responses` puts out. -/
def sendOutput (send : SendEnv) (c : Client) : Output :=
  ⟨[], (sendResponses send c).built, (sendResponses send c).accepted⟩

/-- What an event puts out. -/
def ClientEvent.output (e : ClientEvent) (c : Client) : Output :=
  (if e.flags.epollin then receiveOutput e.recv c else .none).append
    (if e.flags.epollout then
      match (if e.flags.epollin then (receiveRequests e.recv c).map Prod.snd else some c) with
      | some c => sendOutput e.send c
      | none => .none
    else .none)

def outputAll : List ClientEvent → Client → Output
  | [], _ => .none
  | e :: es, c => (e.output c).append
      (match handleEvent e.flags e.recv e.send c with
      | some (c, _) => outputAll es c
      | none => .none)

theorem outputAll_concat {es : List ClientEvent} {c c' : Client} (e : ClientEvent)
    (h : handleAll es c = some c') : outputAll (es ++ [e]) c
    = (outputAll es c).append (e.output c') := by
  induction es generalizing c with
  | nil =>
      obtain rfl : c = c' := Option.some.inj h
      simp only [List.nil_append, outputAll, Output.none_append]
      cases handleEvent e.flags e.recv e.send c <;> exact Output.append_none _
  | cons d es ih =>
      obtain ⟨⟨c₁, i⟩, hd, h⟩ := Option.bind_eq_some_iff.mp h
      simp only [List.cons_append, outputAll, hd, ih h, Output.append_assoc]

/-! ## What is built, accepted, and still to be sent

The three agree at every moment; what is built and not accepted is in the send buffer. -/

/-- **What has been put out fits the client.**  All the batches but the last are answered in full.
A client that receives has answered the last one as well; one that sends is at `Progress` with
it. -/
inductive Supplied (o : Output) (c : Client) : Prop
  | receiving (state : c.state = .receivingHeaders) (labels : o.built.map Built.label = o.parts)
      (bytes : o.accepted = logBytes o.built)
  | sending {o' : Output} {n : Nat} {log : List Built} {acc : Bytes}
      (eq : o = o'.append ⟨[n], log, acc⟩)
      (labels : o'.built.map Built.label = o'.parts) (bytes : o'.accepted = logBytes o'.built)
      (progress : Progress n log acc c)

section Supplied
variable {o o' : Output} {c c' : Client} {n : Nat} {log : List Built} {acc : Bytes}

theorem logBytes_append (log log' : List Built) : logBytes (log ++ log')
    = logBytes log ++ logBytes log' := by
  simp [logBytes]

theorem Output.parts_append (o o' : Output) : (o.append o').parts = o.parts ++ o'.parts :=
  List.flatMap_append

@[simp] theorem Output.parts_singleton (n : Nat) (log : List Built) (acc : Bytes) :
    Output.parts ⟨[n], log, acc⟩ = EventServer.parts (max n 1) := by
  simp [Output.parts]

/-- A batch that is answered in full. -/
theorem Supplied.answered (hstate : c.state = .receivingHeaders)
    (hlabels : o'.built.map Built.label = o'.parts) (hbytes : o'.accepted = logBytes o'.built)
    (hlog : log.map Built.label = EventServer.parts (max n 1)) (hacc : acc = logBytes log) :
    Supplied (o'.append ⟨[n], log, acc⟩) c := by
  refine .receiving hstate ?_ ?_
  · rw [Output.parts_append, Output.parts_singleton, ← hlabels, ← hlog]
    exact List.map_append
  · subst hacc
    exact (congrArg (· ++ logBytes log) hbytes).trans (logBytes_append _ _).symm

/-- **What has been sent** is a beginning of what is built, which is a beginning of the responses
to all batches. -/
theorem Supplied.in_order (h : Supplied o c) :
    o.built.map Built.label <+: o.parts ∧ o.accepted <+: logBytes o.built ∧
      (c.state = .receivingHeaders → o.built.map Built.label = o.parts ∧
      o.accepted = logBytes o.built) := by
  cases h with
  | receiving hstate hlabels hbytes =>
      exact ⟨hlabels ▸ List.prefix_refl _, hbytes ▸ List.prefix_refl _, fun _ => ⟨hlabels, hbytes⟩⟩
  | @sending o' n log acc heq hlabels hbytes hprogress =>
      subst heq
      refine ⟨?_, ?_, fun hstate => ?_⟩
      · rw [Output.parts_append, Output.parts_singleton, ← hlabels]
        have hmap : (o'.append ⟨[n], log, acc⟩).built.map Built.label
            = o'.built.map Built.label ++ log.map Built.label := List.map_append
        rw [hmap]
        exact (List.prefix_append_right_inj _).mpr hprogress.labels_prefix
      · simp only [Output.append, logBytes_append, hbytes]
        exact (List.prefix_append_right_inj _).mpr hprogress.accepted_prefix
      · rcases hprogress.labels with ⟨hs, -⟩ | ⟨hs, -⟩ <;> rw [hs] at hstate <;> cases hstate

/-! ## One event more -/

/-- A client that receives. -/
theorem Supplied.receive {recv : RecvEnv} {ret : Nat} (h : Supplied o c) (hc : Reach c)
    (hstate : c.state = .receivingHeaders) (hrecv : receiveRequests recv c = some (ret, c'))
    (hlive : c'.state ≠ .disconnected) : Supplied (o.append (receiveOutput recv c)) c' := by
  obtain ⟨-, -, hfull⟩ := h.in_order
  obtain ⟨hlabels, hbytes⟩ := hfull hstate
  obtain ⟨p, hp⟩ := hc.receiving hstate
  have hstate' := (receiveRequests_state hp hrecv).resolve_left hlive
  rw [receiveOutput, hrecv]
  cases ret with
  | zero => exact .sending rfl hlabels hbytes (.start hc hstate hrecv)
  | succ k => exact .receiving hstate' (by simpa using hlabels) (by simpa using hbytes)

/-- A client that sends. -/
theorem Supplied.send {send : SendEnv} {ret : Nat} (h : Supplied o c)
    (hstate : c.state = .sendingHeaders ∨ c.state = .sendingBody)
    (hord : ∀ x ∈ send.script, SendOutcome.Ordinary x)
    (hsend : (sendResponses send c).ending = .returned ret c') :
    Supplied (o.append (sendOutput send c)) c' := by
  cases h with
  | receiving hs => rcases hstate with h | h <;> rw [hs] at h <;> cases h
  | @sending o' n log acc heq hlabels hbytes hprogress =>
      subst heq
      have henv : send.Ordinary fun _ => True := ⟨hord, trivial, trivial⟩
      have hspec := (Progress.kept n).sendResponses henv hprogress
      have heq : (o'.append ⟨[n], log, acc⟩).append (sendOutput send c)
          = o'.append ⟨[n], log ++ (sendResponses send c).built,
              acc ++ (sendResponses send c).accepted⟩ :=
        o'.append_assoc _ _
      rw [heq]
      rw [Sent.Spec, hsend] at hspec
      cases ret with
      | zero =>
          obtain ⟨c₁, hlast, hsending, hunsent, hnum, rfl⟩ := hspec
          obtain ⟨hlog, hacc⟩ := hlast.finished hsending hunsent hnum
          exact .answered rfl hlabels hbytes hlog hacc
      | succ k => exact .sending rfl hlabels hbytes hspec

/-- **A client that handles an event it is registered for**, and stays. -/
theorem Supplied.handle {e : ClientEvent} {i : Interest} {interest : Option Interest}
    (h : Supplied o c) (hc : Reach c) (hi : i.Suits c) (hflags : e.flags.Of i)
    (hord : ∀ x ∈ e.send.script, SendOutcome.Ordinary x)
    (hevent : handleEvent e.flags e.recv e.send c = some (c', interest))
    (hlive : c'.state ≠ .disconnected) : Supplied (o.append (e.output c)) c' := by
  -- the test for `EPOLLRDHUP` at the end leaves a client that stays
  have hlast : ∀ c₂ i₂, (if e.flags.epollrdhup ∧
    (c₂.state = .receivingHeaders ∨ c₂.state = .receivingBody)
      then some ({ c₂ with state := State.disconnected }, i₂) else some (c₂, i₂))
        = some (c', interest) → c₂ = c' := by
    intro c₂ i₂ hlast
    split at hlast
    · cases hlast
      exact (hlive rfl).elim
    · cases hlast
      rfl
  cases i with
  | epollin =>
      have hout : ¬ e.flags.epollout = true := fun hflag => by cases hflags.2 hflag
      rw [ClientEvent.output, if_neg hout, Output.append_none]
      simp only [handleEvent, if_neg hout] at hevent
      split at hevent
      next hin =>
        rw [if_pos hin]
        obtain ⟨received, hreceived, hevent⟩ := Option.bind_eq_some_iff.mp hevent
        obtain ⟨⟨ret, c₁⟩, hcall, rfl⟩ := Option.map_eq_some_iff.mp hreceived
        obtain rfl := hlast c₁ _ hevent
        exact h.receive hc hi hcall hlive
      next hin =>
        rw [if_neg hin, Output.append_none]
        obtain rfl := hlast c _ hevent
        exact h
  | epollout =>
      have hin : ¬ e.flags.epollin = true := fun hflag => by cases hflags.1 hflag
      simp only [ClientEvent.output, if_neg hin, Output.none_append]
      simp only [handleEvent, if_neg hin] at hevent
      by_cases hout : e.flags.epollout = true
      · simp only [if_pos hout, Option.bind_eq_bind, Option.bind_some] at hevent
        rw [if_pos hout]
        cases hcall : (sendResponses e.send c).ending with
        | returned ret c₂ =>
            simp only [hcall] at hevent
            obtain rfl := hlast c₂ _ hevent
            exact h.send hi hord hcall
        | sending =>
            simp only [hcall] at hevent
            cases hevent
        | undefined =>
            simp only [hcall] at hevent
            cases hevent
      · rw [if_neg hout, Output.append_none]
        simp only [if_neg hout] at hevent
        obtain rfl := hlast c none hevent
        exact h

end Supplied

/-! ## Runs of the loop

The runs of a client by itself are put together with the result that keeps clients
apart. -/

/-- **Each client is sent its own responses, in order**, in any run of the loop in which sockets
do not fail: whatever its requests are split into, whatever the socket takes at a time and whatever
happens to other clients in between, the bytes its socket has accepted are a beginning of the
responses to the batches it has sent, one header and one body for each request; and all of them
when the server is back to receiving from it. -/
theorem loop_sends_in_order {past : List (Loop × Action)} {s : Loop} (h : eventLoop.Run past s)
    (hreports : ∀ x ∈ past, Reports x) (hphase : s.phase ≠ .stuck ∧ s.phase ≠ .failed) {p : Nat}
    {conn : Conn} (hp : s.tables.heap p = some conn)
    (hord : ∀ e ∈ eventsOf conn.serial past, ∀ x ∈ e.send.script, SendOutcome.Ordinary x) :
    ∃ now o, birthsOf conn.serial past = [now] ∧
      o = outputAll (eventsOf conn.serial past) (newClient now) ∧
      o.built.map Built.label <+: o.parts ∧ o.accepted <+: logBytes o.built ∧
      (conn.client.state = .receivingHeaders →
        o.built.map Built.label = o.parts ∧ o.accepted = logBytes o.built) := by
  have hsuited := loop_suited h hreports
  have hlogged : Logged (fun now es c => handleAll es (newClient now) = some c ∧
      ((∀ e ∈ es, ∀ x ∈ e.send.script, SendOutcome.Ordinary x) → c.state ≠ .disconnected →
        Supplied (outputAll es (newClient now)) c)) past s.tables := by
    refine logged_run h (fun now => ⟨rfl, fun _ _ => .receiving rfl rfl rfl⟩)
      (fun x hx => ?_) hphase.1
    intro q flags events recv send ctl conn' _ hhandling hq now es c i ⟨hes, hsupplied⟩ hevent
    refine ⟨by simp only [handleAll_concat, hes, Option.bind_some, hevent, Option.map_some], ?_⟩
    intro hscripts hlive
    obtain ⟨hpast, hlast⟩ := List.forall_mem_append.mp hscripts
    have hs := (hsuited.1 x hx).2 (by rw [hhandling]; exact nofun)
    obtain ⟨hreach, j, hj, hsuits⟩ := hs.tables q conn' hq
    rw [outputAll_concat _ hes]
    refine (hsupplied hpast hsuits.alive).handle hreach hsuits ?_
      (hlast _ (List.mem_singleton_self _)) hevent hlive
    exact hs.awaited _ hhandling q flags List.mem_cons_self conn' j hq hj
  obtain ⟨now, hborn, -, hsupplied⟩ := hlogged.client p conn hp
  obtain ⟨-, j, -, hsuits⟩ := loop_reach h hreports hphase.2 hp
  exact ⟨now, _, hborn, rfl, (hsupplied hord hsuits.alive).in_order⟩

theorem loop_sends_in_order_second : ∃ past s conn now o, eventLoop.Run past s ∧
    s.tables.heap 96 = some conn ∧ o = outputAll (eventsOf conn.serial past) (newClient now) ∧
    o.accepted <+: logBytes o.built := by
  obtain ⟨past, s, conn, hrun, hreports, hphase, hp, hserial, hord⟩ := secondAsks_run
  have hphases : s.phase ≠ .stuck ∧ s.phase ≠ .failed := by rw [hphase]; exact ⟨nofun, nofun⟩
  obtain ⟨now, o, -, ho, -, haccepted, -⟩ := loop_sends_in_order hrun hreports hphases hp hord
  exact ⟨past, s, conn, now, o, hrun, hp, ho, haccepted⟩

end InternetLabs.EventServer
