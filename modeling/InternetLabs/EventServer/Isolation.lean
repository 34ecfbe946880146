/-
# `InternetLabs.EventServer.Isolation` — what a client is made by

Clients share the loop, its batches, and the addresses and descriptors that are given out
again.  `eventsOf` are the events of one connection in a run of the loop; a client is what
they make of a new one (`client_alone`), whatever happens to the others in between.

The handlers are meant for a client that receives, or for one that sends; what a socket is
registered for says which (`Interest.Suits`).  Where `epoll_wait` reports only what a socket
is registered for, no handler is called in the wrong state, and every client is one of those
`Reach` describes (`loop_reach`).
-/
import InternetLabs.EventServer.Tracking
import InternetLabs.EventServer.Lifecycle

namespace InternetLabs.EventServer

open InternetLabs Function

/-! ## The events of a connection

Connections are numbered as they are accepted, since addresses and descriptors are used
again. -/

/-- The event of a client, with what the system answers to its calls. -/
structure ClientEvent where
  flags : Flags
  recv : RecvEnv
  send : SendEnv

/-- The event of connection `k` that a step handles. -/
def eventOf (k : Nat) (x : Loop × Action) : Option ClientEvent :=
  match x.2, x.1.phase with
  | .client recv send _, .handling (⟨.client p, flags⟩ :: _) =>
      match x.1.tables.heap p with
      | some conn => if conn.serial = k then some ⟨flags, recv, send⟩ else none
      | none => none
  | _, _ => none

/-- The time at which connection `k` is accepted, if the step accepts it. -/
def birthOf (k : Nat) (x : Loop × Action) : Option Int :=
  match x.2 with
  | .accept (.client _ _ now) _ => if x.1.tables.serial = k then some now else none
  | _ => none

/-- The events of connection `k` in a run. -/
def eventsOf (k : Nat) (past : List (Loop × Action)) : List ClientEvent :=
  past.filterMap (eventOf k)

/-- When connection `k` has been accepted. -/
def birthsOf (k : Nat) (past : List (Loop × Action)) : List Int := past.filterMap (birthOf k)

/-- A client handles its events, one after the other. -/
def handleAll : List ClientEvent → Client → Option Client
  | [], c => some c
  | e :: es, c => (handleEvent e.flags e.recv e.send c).bind fun (c, _) => handleAll es c

theorem handleAll_concat (es : List ClientEvent) (e : ClientEvent) (c : Client) :
    handleAll (es ++ [e]) c
      = (handleAll es c).bind fun c => (handleEvent e.flags e.recv e.send c).map Prod.fst := by
  induction es generalizing c with
  | nil =>
      cases h : handleEvent e.flags e.recv e.send c <;> simp [handleAll, h]
  | cons d es ih =>
      cases h : handleEvent d.flags d.recv d.send c <;> simp [handleAll, h, ih]

section Logs
variable {past : List (Loop × Action)} {s : Loop} {a : Action} {k : Nat}

theorem eventsOf_concat (k : Nat) (past : List (Loop × Action)) (x : Loop × Action) :
    eventsOf k (past ++ [x]) = eventsOf k past ++ (eventOf k x).toList := by
  rw [eventsOf, List.filterMap_append]
  cases h : eventOf k x <;> simp [eventsOf, h]

theorem birthsOf_concat (k : Nat) (past : List (Loop × Action)) (x : Loop × Action) :
    birthsOf k (past ++ [x]) = birthsOf k past ++ (birthOf k x).toList := by
  rw [birthsOf, List.filterMap_append]
  cases h : birthOf k x <;> simp [birthsOf, h]

theorem logs_of_target (h : s.target a = none) (k : Nat) :
    eventOf k (s, a) = none ∧ birthOf k (s, a) = none := by
  cases a with
  | accept accepted ctl =>
      cases accepted with
      | client fd p now => cases h
      | failed => exact ⟨rfl, rfl⟩
      | unnamed => exact ⟨rfl, rfl⟩
  | client recv send ctl =>
      refine ⟨?_, rfl⟩
      simp only [Loop.target] at h
      simp only [eventOf]
      split at h
      · cases h
      next hphase =>
        split
        next p flags events hat => exact (hphase _ _ _ hat).elim
        · rfl
  | wait ready => exact ⟨rfl, rfl⟩
  | stop => exact ⟨rfl, rfl⟩
  | fail => exact ⟨rfl, rfl⟩
  | endBatch => exact ⟨rfl, rfl⟩
  | sweep now => exact ⟨rfl, rfl⟩
  | cleanup => exact ⟨rfl, rfl⟩

theorem eventOf_client {recv : RecvEnv} {send : SendEnv} {ctl : Bool} {p : Nat} {flags : Flags}
    {events : List EpollEvent} {conn : Conn}
    (hphase : s.phase = .handling (⟨.client p, flags⟩ :: events))
    (hp : s.tables.heap p = some conn) :
    eventOf k (s, .client recv send ctl)
      = if conn.serial = k then some ⟨flags, recv, send⟩ else none := by
  simp only [eventOf, hphase, hp]

end Logs

/-! ## A client by itself

The client of a connection is what its own events make of a new client. -/

/-- **The logs and the clients**: `J` holds of a client, of its events, and of when it has been
accepted; and nothing has happened to a connection that is still to come. -/
structure Logged (J : Int → List ClientEvent → Client → Prop) (past : List (Loop × Action))
    (t : Tables) : Prop where
  client : ∀ p conn, t.heap p = some conn → ∃ now, birthsOf conn.serial past = [now] ∧
    J now (eventsOf conn.serial past) conn.client
  later : ∀ k, t.serial ≤ k → eventsOf k past = [] ∧ birthsOf k past = []

/-- The event that a step handles keeps `J`. -/
def Keeps (J : Int → List ClientEvent → Client → Prop) (s : Loop) (a : Action) : Prop :=
  ∀ p flags events recv send ctl conn, a = .client recv send ctl →
    s.phase = .handling (⟨.client p, flags⟩ :: events) → s.tables.heap p = some conn →
    ∀ now es c i, J now es conn.client → handleEvent flags recv send conn.client = some (c, i) →
      J now (es ++ [⟨flags, recv, send⟩]) c

section Steps
variable {J : Int → List ClientEvent → Client → Prop} {past : List (Loop × Action)}
variable {s s' : Loop} {a : Action} {t t' : Tables}

theorem Tables.dropped_heap {p q : Nat} {conn other : Conn}
    (hq : (t.dropped p conn).heap q = some other) :
    q ≠ p ∧ t.heap q = some other :=
  @Tables.released_heap (t.unregister conn.fd) p conn q other hq

theorem Tables.swept_heap {p q i : Nat} {conn other : Conn}
    (hq : (t.swept p conn i).heap q = some other) :
    q ≠ p ∧ t.heap q = some other :=
  @Tables.released_heap t p conn q other hq

theorem Logged.of_heap (h : Logged J past t) (hheap : ∀ p conn, t'.heap p = some conn →
    t.heap p = some conn)
    (hserial : t'.serial = t.serial) : Logged J past t' :=
  ⟨fun p conn hp => h.client p conn (hheap p conn hp), fun k hk => h.later k (hserial ▸ hk)⟩

/-- A step that is in no log. -/
theorem Logged.quiet (h : Logged J past t) (hevent : ∀ k, eventOf k (s, a) = none)
    (hbirth : ∀ k, birthOf k (s, a) = none) : Logged J (past ++ [(s, a)]) t := by
  have hevents : ∀ k, eventsOf k (past ++ [(s, a)]) = eventsOf k past := fun k => by
    rw [eventsOf_concat, hevent k]
    exact List.append_nil _
  have hbirths : ∀ k, birthsOf k (past ++ [(s, a)]) = birthsOf k past := fun k => by
    rw [birthsOf_concat, hbirth k]
    exact List.append_nil _
  refine ⟨fun p conn hp => ?_, fun k hk => ?_⟩
  · rw [hevents, hbirths]
    exact h.client p conn hp
  · rw [hevents, hbirths]
    exact h.later k hk

/-- A client is accepted. -/
theorem Logged.accept {fd p : Nat} {now : Int} {ctl : Bool} (h : Logged J past s.tables)
    (hinv : s.tables.Inv) (hnew : ∀ now, J now [] (newClient now)) :
    Logged J (past ++ [(s, .accept (.client fd p now) ctl)]) (s.tables.getNewClient fd p now) := by
  have hevents : ∀ k, eventsOf k (past ++ [(s, .accept (.client fd p now) ctl)])
      = eventsOf k past :=
    fun k => (eventsOf_concat _ _ _).trans (List.append_nil _)
  have hbirths : ∀ k, birthsOf k (past ++ [(s, .accept (.client fd p now) ctl)])
      = birthsOf k past ++ if s.tables.serial = k then [now] else [] := fun k => by
    rw [birthsOf_concat]
    simp only [birthOf]
    split <;> rfl
  refine ⟨fun q conn hq => ?_, fun k hk => ?_⟩
  · rw [hevents, hbirths]
    simp only [Tables.getNewClient, update_apply] at hq
    split at hq
    · cases hq
      obtain ⟨hnone, hunborn⟩ := h.later _ (Nat.le_refl _)
      refine ⟨now, ?_, ?_⟩
      · rw [hunborn, if_pos rfl]
        rfl
      · rw [hnone]
        exact hnew now
    · rw [if_neg (Nat.ne_of_gt (hinv.serial_lt hq)), List.append_nil]
      exact h.client q conn hq
  · have hlt : s.tables.serial < k := hk
    rw [hevents, hbirths, if_neg hlt.ne, List.append_nil]
    exact h.later k hlt.le

theorem Logged.handle (h : Logged J past s.tables) {recv : RecvEnv} {send : SendEnv} (ctl : Bool)
    {p : Nat} {flags : Flags} {events : List EpollEvent} {conn : Conn} {c : Client}
    {i : Option Interest} (hinv : s.tables.Inv)
    (hphase : s.phase = .handling (⟨.client p, flags⟩ :: events)) (hp : s.tables.heap p = some conn)
    (hevent : handleEvent flags recv send conn.client = some (c, i))
    (hkeeps : Keeps J s (.client recv send ctl)) :
    Logged J (past ++ [(s, .client recv send ctl)])
    (s.tables.setClient p { conn with client := c }) := by
  have hevents : ∀ k, eventsOf k (past ++ [(s, .client recv send ctl)])
      = eventsOf k past ++ if conn.serial = k then [⟨flags, recv, send⟩] else [] := fun k => by
    rw [eventsOf_concat, eventOf_client hphase hp]
    split <;> rfl
  have hbirths : ∀ k, birthsOf k (past ++ [(s, .client recv send ctl)]) = birthsOf k past :=
    fun k => (birthsOf_concat _ _ _).trans (List.append_nil _)
  refine ⟨fun q other hq => ?_, fun k hk => ?_⟩
  · rw [hevents, hbirths]
    simp only [Tables.setClient, update_apply] at hq
    split at hq
    · cases hq
      obtain ⟨now, hborn, hrun⟩ := h.client p conn hp
      refine ⟨now, hborn, ?_⟩
      rw [if_pos rfl]
      exact hkeeps p flags events recv send ctl conn rfl hphase hp now _ c i hrun hevent
    next hne =>
      rw [if_neg fun hserial => hne (hinv.serial_inj hq hp hserial.symm), List.append_nil]
      exact h.client q other hq
  · have hlt : conn.serial ≠ k := Nat.ne_of_lt (Nat.lt_of_lt_of_le (hinv.serial_lt hp) hk)
    rw [hevents, hbirths, if_neg hlt, List.append_nil]
    exact h.later k hk

/-- **A step keeps clients apart.** -/
theorem Logged.step (h : Logged J past s.tables) (hs : s.Inv) (hstep : step a s = some s')
    (hstuck : s'.phase ≠ .stuck) (hnew : ∀ now, J now [] (newClient now)) (hkeeps : Keeps J s a) :
    Logged J (past ++ [(s, a)]) s'.tables := by
  cases hs.change hstep with
  | unchanged htables htarget =>
      rw [htables]
      exact h.quiet (fun k => (logs_of_target htarget k).1) fun k => (logs_of_target htarget k).2
  | stuck => exact (hstuck rfl).elim
  | refused => exact h.accept hs.tables hnew
  | admitted => exact (h.accept hs.tables hnew).of_heap (fun _ _ => id) rfl
  | @handled recv send ctl _ _ p conn c _ t' _ hphase hp hevent ht' _ hend =>
      have ht : Logged J (past ++ [(s, .client recv send ctl)]) t' := by
        have hset := h.handle ctl hs.tables hphase hp hevent hkeeps
        rcases ht' with rfl | ⟨j, rfl⟩
        · exact hset
        · exact hset.of_heap (fun _ _ => id) rfl
      rcases hend with rfl | ⟨-, rfl⟩ | ⟨-, rfl⟩
      · exact ht
      · exact ht
      · exact ht.of_heap (fun q other hq => (Tables.dropped_heap hq).2) rfl
  | released _ hp htables htarget =>
      rw [htables]
      refine (h.quiet (fun k => (logs_of_target htarget k).1)
        fun k => (logs_of_target htarget k).2).of_heap (fun q other hq => ?_) rfl
      exact (Tables.swept_heap hq).2

theorem step_of_stuck {a : Action} {s s' : Loop} (hstuck : s.phase = .stuck) :
    EventServer.step a s ≠ some s' := by
  obtain ⟨phase, t⟩ := s
  cases hstuck
  cases a <;> exact nofun

/-- **Along a run** whose events keep `J`. -/
theorem logged_run (h : eventLoop.Run past s) (hnew : ∀ now, J now [] (newClient now))
    (hkeeps : ∀ x ∈ past, Keeps J x.1 x.2) (hstuck : s.phase ≠ .stuck) :
    Logged J past s.tables := by
  induction h with
  | start hs =>
      obtain rfl := hs
      exact ⟨nofun, fun _ _ => ⟨rfl, rfl⟩⟩
  | step hrun hs ih =>
      obtain ⟨hpast, hlast⟩ := List.forall_mem_append.mp hkeeps
      have hbefore := ih hpast fun heq => step_of_stuck heq hs
      exact hbefore.step (eventLoop_inv hrun) hs hstuck hnew (hlast _ (List.mem_singleton_self _))

end Steps

/-- **A client is made by its own events**, in any run of the loop: it is accepted once, and is
what the handlers make of a new client when they are called for its events alone, whatever the
other clients do, and whoever had its address and its descriptor before. -/
theorem client_alone {past : List (Loop × Action)} {s : Loop} (h : eventLoop.Run past s)
    (hstuck : s.phase ≠ .stuck) {p : Nat} {conn : Conn} (hp : s.tables.heap p = some conn) :
    ∃ now, birthsOf conn.serial past = [now] ∧
      handleAll (eventsOf conn.serial past) (newClient now) = some conn.client := by
  have hlogged : Logged (fun now es c => handleAll es (newClient now) = some c) past s.tables := by
    refine logged_run h (fun _ => rfl) (fun x _ => ?_) hstuck
    intro p flags events recv send ctl conn _ _ _ now es c i hes hevent
    simp only [handleAll_concat, hes, Option.bind_some, hevent, Option.map_some]
  exact hlogged.client p conn hp

/-! ## What the handlers are called for

A client is registered for reading or writing as its state asks for, and each handler
leaves it so. -/

/-- A client that is registered for something is in the state for it. -/
def Interest.Suits : Interest → Client → Prop
  | .epollin, c => c.state = .receivingHeaders
  | .epollout, c => c.state = .sendingHeaders ∨ c.state = .sendingBody

theorem Interest.Suits.alive {i : Interest} {c : Client} (h : i.Suits c) :
    c.state ≠ .disconnected := by
  cases i with
  | epollin =>
      rw [show c.state = _ from h]
      exact nofun
  | epollout => rcases h with h | h <;> rw [h] <;> exact nofun

/-- The flags of an event are among those the socket is registered for. -/
def Flags.Of (flags : Flags) (i : Interest) : Prop :=
  (flags.epollin = true → i = .epollin) ∧ (flags.epollout = true → i = .epollout)

instance (flags : Flags) (i : Interest) : Decidable (flags.Of i) :=
  inferInstanceAs (Decidable (_ ∧ _))

section Handlers
variable {c c' : Client} {recv : RecvEnv} {send : SendEnv} {ret : Nat}

/-- `receive_requests` returns 0 for a client that sends from now on. -/
theorem receiveRequests_state {p : Bytes} (hp : Receiving p c)
    (h : receiveRequests recv c = some (ret, c')) :
    c'.state = .disconnected ∨ (if ret = 0 then Interest.epollout else .epollin).Suits c' := by
  obtain ⟨r, c₁, hrecv, hcases⟩ := receiveRequests_cases h
  obtain ⟨q, hq⟩ := recvData_receiving hp hrecv
  rcases hcases with ⟨-, -, rfl⟩ | ⟨-, -, ⟨-, rfl, rfl⟩ | ⟨-, rfl, htake⟩⟩
  · exact .inl rfl
  · exact .inr hq.state
  · obtain ⟨status, c₂, c₃, -, -, rfl⟩ := takeRequests_spec htake
    exact .inr (.inl rfl)

theorem sendData_leaves (script : List SendOutcome) (c : Client) :
    (sendData script c).client.state = c.state ∨ (sendData script c).client.state
    = .disconnected := by
  obtain ⟨n, -, hclient | ⟨hclient, -⟩⟩ := sendData_client script c <;> rw [hclient]
  · exact .inl rfl
  · exact .inr rfl

theorem sendBody_state {script : List SendOutcome}
    (hstate : c.state = .sendingBody ∨ c.state = .sendingHeaders ∨ c.state = .disconnected)
    (h : (sendBody send script c).ending = .returned ret c') :
    c'.state = .disconnected ∨ (if ret = 0 then Interest.epollin else .epollout).Suits c' := by
  by_cases hbody : c.state = .sendingBody
  · have hsend := sendData_leaves script c
    rw [sendBody, if_pos hbody] at h
    dsimp only at h
    split at h
    · cases h
    next hret =>
      cases h
      rw [hbody] at hsend
      exact hsend.elim (fun hs => .inr (.inr hs)) .inl
    · split at h
      · split at h
        · cases h
        next c₂ hheader =>
          cases h
          exact .inr (.inl (buildHeader_frame hheader).state)
      · cases h
        exact .inr rfl
  · rw [sendBody, if_neg hbody] at h
    cases h
    rcases hstate with hs | hs | hs
    · exact (hbody hs).elim
    · exact .inr (.inl hs)
    · exact .inl hs

/-- `send_responses` returns 0 for a client that receives from now on. -/
theorem sendResponses_state (hstate : c.state = .sendingHeaders ∨ c.state = .sendingBody)
    (h : (sendResponses send c).ending = .returned ret c') :
    c'.state = .disconnected ∨ (if ret = 0 then Interest.epollin else .epollout).Suits c' := by
  rw [sendResponses] at h
  split at h
  next hheaders =>
    have hsend := sendData_leaves send.script c
    rw [hheaders] at hsend
    dsimp only at h
    split at h
    · cases h
    · exact sendBody_state (.inr hsend) h
    · split at h
      · cases h
      next c₂ hbody => exact sendBody_state (.inl rfl) h
  next hheaders => exact sendBody_state (.inl (hstate.resolve_left hheaders)) h

/-- **An event that suits its client** leaves a client that suits what it is registered for then. -/
theorem handleEvent_suits {flags : Flags} {i : Interest} {interest : Option Interest} (hc : Reach c)
    (hi : i.Suits c) (hflags : flags.Of i)
    (h : handleEvent flags recv send c = some (c', interest)) :
    c'.state = .disconnected ∨ Reach c' ∧ (interest.getD i).Suits c' := by
  -- the test for `EPOLLRDHUP` at the end
  have hlast : ∀ c₂ i₂, (c₂.state = .disconnected ∨ Reach c₂ ∧ (i₂.getD i).Suits c₂) →
      (if flags.epollrdhup ∧ (c₂.state = .receivingHeaders ∨ c₂.state = .receivingBody)
        then some ({ c₂ with state := State.disconnected }, i₂) else some (c₂, i₂))
        = some (c', interest) →
      c'.state = .disconnected ∨ Reach c' ∧ (interest.getD i).Suits c' := by
    intro c₂ i₂ h₂ hlast
    split at hlast
    · cases hlast
      exact .inl rfl
    · cases hlast
      exact h₂
  cases i with
  | epollin =>
      have hout : ¬ flags.epollout = true := fun hflag => by cases hflags.2 hflag
      simp only [handleEvent, if_neg hout] at h
      split at h
      · obtain ⟨received, hreceived, h⟩ := Option.bind_eq_some_iff.mp h
        obtain ⟨⟨ret, c₁⟩, hcall, rfl⟩ := Option.map_eq_some_iff.mp hreceived
        refine hlast c₁ _ ?_ h
        obtain ⟨p, hp⟩ := hc.receiving hi
        refine (receiveRequests_state hp hcall).imp id fun hs => ⟨.receive hc hi hcall, ?_⟩
        dsimp only
        split <;> simpa [*] using hs
      · exact hlast c none (.inr ⟨hc, hi⟩) h
  | epollout =>
      have hin : ¬ flags.epollin = true := fun hflag => by cases hflags.1 hflag
      simp only [handleEvent, if_neg hin] at h
      by_cases hout : flags.epollout = true
      · simp only [if_pos hout, Option.bind_eq_bind, Option.bind_some] at h
        cases hcall : (sendResponses send c).ending with
        | returned ret c₂ =>
            simp only [hcall] at h
            refine hlast c₂ _ ?_ h
            refine (sendResponses_state hi hcall).imp id fun hs => ⟨.send hc hi hcall, ?_⟩
            split <;> simpa [*] using hs
        | sending =>
            simp only [hcall] at h
            cases h
        | undefined =>
            simp only [hcall] at h
            cases h
      · simp only [if_neg hout] at h
        exact hlast c none (.inr ⟨hc, hi⟩) h

end Handlers

/-! ## The loop calls the right handlers -/

/-- `epoll_wait` reports of a client's socket only what it is registered for. -/
def Reports (x : Loop × Action) : Prop :=
  match x.2 with
  | .wait ready => ∀ r ∈ ready, ∀ y ∈ r.1.bind x.1.tables.epoll, r.2.Of y.2
  | _ => True

instance (x : Loop × Action) : Decidable (Reports x) :=
  match x with
  | (s, .wait ready) =>
      inferInstanceAs (Decidable (∀ r ∈ ready, ∀ y ∈ r.1.bind s.tables.epoll, r.2.Of y.2))
  | (_, .stop) => isTrue trivial
  | (_, .fail) => isTrue trivial
  | (_, .accept _ _) => isTrue trivial
  | (_, .client _ _ _) => isTrue trivial
  | (_, .endBatch) => isTrue trivial
  | (_, .sweep _) => isTrue trivial
  | (_, .cleanup) => isTrue trivial

/-- Every client is as it is registered. -/
def Tables.Suited (t : Tables) : Prop :=
  ∀ p conn, t.heap p = some conn → Reach conn.client ∧
    ∃ i, t.epoll conn.fd = some (p, i) ∧ i.Suits conn.client

/-- The events of a batch are what their clients are registered for. -/
def Awaited (t : Tables) (events : List EpollEvent) : Prop :=
  ∀ p flags, ⟨.client p, flags⟩ ∈ events → ∀ conn i, t.heap p = some conn →
    t.epoll conn.fd = some (p, i) → flags.Of i

section Suited
variable {t t' : Tables} {p : Nat} {conn : Conn} {flags : Flags} {events : List EpollEvent}

theorem exists_mem_of_mapM {α β : Type*} {f : α → Option β} {xs : List α} {ys : List β}
    (h : xs.mapM f = some ys) {y : β} (hy : y ∈ ys) : ∃ x ∈ xs, f x = some y := by
  induction xs generalizing ys with
  | nil =>
      cases h
      cases hy
  | cons x xs ih =>
      rw [List.mapM_cons] at h
      obtain ⟨z, hz, h⟩ := Option.bind_eq_some_iff.mp h
      obtain ⟨zs, hzs, h⟩ := Option.bind_eq_some_iff.mp h
      cases h
      obtain rfl | hy := List.mem_cons.mp hy
      · exact ⟨x, List.mem_cons_self, hz⟩
      · obtain ⟨w, hw, hfw⟩ := ih hzs hy
        exact ⟨w, List.mem_cons_of_mem _ hw, hfw⟩

theorem awaited_of_reports {ready : List (Option Nat × Flags)} (hinv : t.Inv)
    (h : ∀ r ∈ ready, ∀ y ∈ r.1.bind t.epoll, r.2.Of y.2)
    (hevents : ready.mapM t.event = some events) : Awaited t events := by
  intro p flags hmem conn i hp hi
  obtain ⟨⟨fd, flags'⟩, hready, hevent⟩ := exists_mem_of_mapM hevents hmem
  cases fd with
  | none => cases hevent
  | some fd =>
      obtain ⟨⟨q, j⟩, hq, heq⟩ := Option.map_eq_some_iff.mp hevent
      cases heq
      obtain ⟨other, hother, rfl⟩ := hinv.epoll hq
      obtain rfl := Option.some.inj (hp.symm.trans hother)
      exact h _ hready (p, i) hi

/-- Tables that agree about a client. -/
def Tables.Agree (t t' : Tables) (p : Nat) : Prop :=
  ∀ conn, t'.heap p = some conn → t.heap p = some conn ∧ t'.epoll conn.fd = t.epoll conn.fd

theorem Awaited.of_agree (h : Awaited t events)
    (hagree : ∀ p ∈ clientsOf events, t.Agree t' p) : Awaited t' events := by
  intro p flags hmem conn i hp hi
  have hclient : p ∈ clientsOf events := List.mem_filterMap.mpr ⟨_, hmem, rfl⟩
  obtain ⟨hheap, hepoll⟩ := hagree p hclient conn hp
  exact h p flags hmem conn i hheap (hepoll ▸ hi)

theorem Tables.Suited.of_agree (h : t.Suited) (hagree : ∀ p, t.Agree t' p) : t'.Suited := by
  intro p conn hp
  obtain ⟨hheap, hepoll⟩ := hagree p conn hp
  rw [hepoll]
  exact h p conn hheap

theorem Tables.Inv.agree_admitted (hinv : t.Inv) {fd : Nat} (hfd : t.opened fd = none) (now : Int)
    {q : Nat} (hq : q ≠ p) : t.Agree (t.admitted fd p now) q := by
  intro conn hconn
  have hheap : t.heap q = some conn := (update_of_ne hq _ _).symm.trans hconn
  refine ⟨hheap, update_of_ne ?_ _ _⟩
  rintro rfl
  rw [hinv.opened hheap] at hfd
  cases hfd

theorem Tables.Inv.agree_set (hinv : t.Inv) (hp : t.heap p = some conn) {c : Client}
    (ht' : t' = t.setClient p { conn with client := c } ∨
      ∃ i, t' = (t.setClient p { conn with client := c }).register conn.fd p i) {q : Nat}
    (hq : q ≠ p) : t.Agree t' q := by
  intro other hother
  have hheap : t.heap q = some other := by
    rcases ht' with rfl | ⟨i, rfl⟩ <;> exact (update_of_ne hq _ _).symm.trans hother
  refine ⟨hheap, ?_⟩
  rcases ht' with rfl | ⟨i, rfl⟩
  · rfl
  · exact update_of_ne (fun hfd => hq (hinv.fd_inj hheap hp hfd)) _ _

theorem Tables.Inv.agree_released (hinv : t.Inv) (hp : t.heap p = some conn)
    (hheap : ∀ q other, t'.heap q = some other → q ≠ p ∧ t.heap q = some other)
    (hepoll : ∀ fd, fd ≠ conn.fd → t'.epoll fd = t.epoll fd) (q : Nat) : t.Agree t' q := by
  intro other hother
  obtain ⟨hne, hold⟩ := hheap q other hother
  exact ⟨hold, hepoll _ fun hfd => hne (hinv.fd_inj hold hp hfd)⟩

theorem Tables.Inv.agree_dropped (hinv : t.Inv) (hp : t.heap p = some conn) (q : Nat) :
    t.Agree (t.dropped p conn) q :=
  hinv.agree_released hp (fun _ _ => Tables.dropped_heap)
    (fun _ hfd => (update_of_ne hfd _ _).trans (update_of_ne hfd _ _)) q

theorem Tables.Inv.agree_swept (hinv : t.Inv) (hp : t.heap p = some conn) (i q : Nat) :
    t.Agree (t.swept p conn i) q :=
  hinv.agree_released hp (fun _ _ => Tables.swept_heap) (fun _ hfd => update_of_ne hfd _ _) q

theorem handleClient_registers {recv : RecvEnv} {send : SendEnv} {ctl : Bool} {c : Client}
    {interest : Option Interest} (hp : t.heap p = some conn)
    (hevent : handleEvent flags recv send conn.client = some (c, interest))
    (hstate : c.state ≠ .disconnected) :
    (handleClient p flags recv send ctl events t).phase = .failed ∨
      handleClient p flags recv send ctl events t = ⟨.handling events, match interest with
        | none => t.setClient p { conn with client := c }
        | some i => (t.setClient p { conn with client := c }).register conn.fd p i⟩ := by
  simp only [handleClient, hp, hevent]
  cases interest with
  | none =>
      simp only [if_neg hstate]
      exact .inr rfl
  | some i =>
      cases ctl with
      | false => exact .inl rfl
      | true =>
          simp only [if_true, if_neg hstate]
          exact .inr rfl

/-- A client that is dropped leaves the others as they were before its event. -/
theorem Tables.Inv.agree_left (hinv : t.Inv) (hp : t.heap p = some conn)
    {c : Client} (hinv' : t'.Inv) (ht' : t' = t.setClient p { conn with client := c } ∨
      ∃ i, t' = (t.setClient p { conn with client := c }).register conn.fd p i) (q : Nat) :
    t.Agree (t'.dropped p { conn with client := c }) q := by
  intro other hother
  have hat : t'.heap p = some { conn with client := c } := by
    rcases ht' with rfl | ⟨i, rfl⟩ <;> exact t.setClient_heap p _
  obtain ⟨hheap, hepoll⟩ := hinv'.agree_dropped hat q other hother
  obtain ⟨hheap', hepoll'⟩ := hinv.agree_set hp ht' (Tables.dropped_heap hother).1 other hheap
  exact ⟨hheap', hepoll.trans hepoll'⟩

/-- A client that stays is as it is registered then. -/
theorem Tables.Suited.handled (h : t.Suited) (hinv : t.Inv) (hp : t.heap p = some conn)
    {recv : RecvEnv} {send : SendEnv} {c : Client} {interest : Option Interest}
    (hevent : handleEvent flags recv send conn.client = some (c, interest))
    (hflags : ∀ i, t.epoll conn.fd = some (p, i) → flags.Of i) (hstate : c.state ≠ .disconnected)
    (ht' : t' = match interest with
      | none => t.setClient p { conn with client := c }
      | some i => (t.setClient p { conn with client := c }).register conn.fd p i) : t'.Suited := by
  obtain ⟨hreach, i, hi, hsuits⟩ := h p conn hp
  obtain ⟨hreach', hsuits'⟩ :=
    (handleEvent_suits hreach hsuits (hflags i hi) hevent).resolve_left hstate
  intro q other hq
  by_cases hqp : q = p
  · subst hqp
    have hat : t'.heap q = some { conn with client := c } := by
      subst ht'
      cases interest <;> exact t.setClient_heap q _
    obtain rfl := Option.some.inj (hat.symm.trans hq)
    refine ⟨hreach', interest.getD i, ?_, hsuits'⟩
    subst ht'
    cases interest with
    | none => exact hi
    | some j => exact update_self _ _ _
  · have hagree : t.Agree t' q := by
      refine hinv.agree_set (c := c) hp ?_ hqp
      subst ht'
      cases interest with
      | none => exact .inl rfl
      | some j => exact .inr ⟨j, rfl⟩
    obtain ⟨hheap, hepoll⟩ := hagree other hq
    rw [hepoll]
    exact h q other hheap

end Suited

/-- **The loop calls each handler in its state.** -/
structure Loop.Suited (s : Loop) : Prop where
  tables : s.tables.Suited
  awaited : ∀ events, s.phase = .handling events → Awaited s.tables events

section Run
variable {s s' : Loop} {a : Action} {t : Tables} {p : Nat} {flags : Flags}
    {events : List EpollEvent}

theorem Awaited.tail {e : EpollEvent} (h : Awaited t (e :: events)) : Awaited t events :=
  fun p flags hmem => h p flags (List.mem_cons_of_mem _ hmem)

theorem handleClient_suited {recv : RecvEnv} {send : SendEnv} {ctl : Bool} (hinv : t.Inv)
    (hpending : Pending t (⟨.client p, flags⟩ :: events)) (h : t.Suited)
    (hawaited : Awaited t (⟨.client p, flags⟩ :: events))
    (hfailed : (handleClient p flags recv send ctl events t).phase ≠ .failed) :
    (handleClient p flags recv send ctl events t).Suited := by
  obtain ⟨⟨conn, hp⟩, hnew, -⟩ := hpending.client
  obtain hstuck | ⟨c, interest, hevent, t', ht', hinv', hend⟩ :=
    @handleClient_cases t p flags events recv send ctl conn hinv hp
  · rw [hstuck]
    exact ⟨h, nofun⟩
  obtain hend | ⟨hstate, hend⟩ | ⟨-, hend⟩ := hend
  · rw [hend] at hfailed
    exact (hfailed rfl).elim
  · have hregisters :=
      (@handleClient_registers t p conn flags events recv send ctl c interest hp hevent
        hstate).resolve_left hfailed
    rw [hend] at hregisters ⊢
    obtain ⟨-, htables⟩ := Loop.mk.inj hregisters
    have hflags : ∀ i, t.epoll conn.fd = some (p, i) → flags.Of i := fun i hi =>
      hawaited p flags List.mem_cons_self conn i hp hi
    refine ⟨h.handled hinv hp hevent hflags hstate htables, fun events' heq => ?_⟩
    cases heq
    refine hawaited.tail.of_agree fun q hq => hinv.agree_set hp ht' ?_
    rintro rfl
    exact hnew hq
  · rw [hend]
    refine ⟨h.of_agree (hinv.agree_left hp hinv' ht'), fun events' heq => ?_⟩
    cases heq
    exact hawaited.tail.of_agree fun q _ => hinv.agree_left hp hinv' ht' q

theorem Tables.Suited.admitted (h : t.Suited) (hinv : t.Inv) {fd : Nat} (hfd : t.opened fd = none)
    (now : Int) : (t.admitted fd p now).Suited := by
  intro q other hq
  by_cases hqp : q = p
  · subst hqp
    obtain rfl := Option.some.inj ((t.getNewClient_heap fd q now).symm.trans hq)
    exact ⟨.new now, .epollin, update_self _ _ _, rfl⟩
  · obtain ⟨hheap, hepoll⟩ := hinv.agree_admitted hfd now hqp other hq
    rw [hepoll]
    exact h q other hheap

theorem Loop.Suited.step (h : s.Suited) (hs : s.Inv) (hstep : step a s = some s')
    (hreports : Reports (s, a)) (hfailed : s'.phase ≠ .failed) : s'.Suited := by
  obtain ⟨ready, events, t, rfl, rfl, -, hevents, rfl⟩ | ⟨t, rfl, rfl, rfl⟩ | ⟨t, rfl, rfl, rfl⟩ |
    ⟨accepted, ctl, flags, events, t, rfl, rfl, haccept⟩ |
    ⟨recv, send, ctl, p, flags, events, t, rfl, rfl, rfl⟩ | ⟨t, rfl, rfl, rfl⟩ |
    ⟨now, i, t, rfl, rfl, rfl⟩ | ⟨n, t, rfl, rfl, rfl⟩ := step_cases hstep
  · refine ⟨h.tables, fun events' heq => ?_⟩
    cases heq
    exact awaited_of_reports hs.tables hreports hevents
  · exact ⟨h.tables, nofun⟩
  · exact (hfailed rfl).elim
  · have hawaited := (h.awaited _ rfl).tail
    obtain ⟨-, rfl⟩ | ⟨fd, p, now, -, hp, hfd, ⟨-, rfl⟩ | ⟨-, rfl⟩⟩ := acceptClient_cases haccept
    · refine ⟨h.tables, fun events' heq => ?_⟩
      cases heq
      exact hawaited
    · exact (hfailed rfl).elim
    · refine ⟨h.tables.admitted hs.tables hfd now, fun events' heq => ?_⟩
      cases heq
      refine hawaited.of_agree fun q hq => hs.tables.agree_admitted hfd now ?_
      rintro rfl
      obtain ⟨conn, hconn⟩ := (hs.pending rfl).server.live q hq
      exact Option.noConfusion rfl (heq_of_eq (hp.symm.trans hconn))
  · exact handleClient_suited hs.tables (hs.pending rfl) h.tables (h.awaited _ rfl) hfailed
  · exact ⟨h.tables, nofun⟩
  · obtain hsweep | hsweep | ⟨p, conn, hi, hp, -, hsweep⟩ :=
      @sweepClient_cases t now i hs.tables <;>
      rw [hsweep]
    · exact ⟨h.tables, nofun⟩
    · exact ⟨h.tables, nofun⟩
    · exact ⟨h.tables.of_agree (hs.tables.agree_swept hp i), nofun⟩
  · obtain ⟨-, hclean⟩ | ⟨-, hclean⟩ | ⟨p, conn, hn, hp, hclean⟩ :=
      @cleanupClient_cases t n hs.tables <;>
      rw [hclean]
    · exact ⟨h.tables, nofun⟩
    · exact ⟨h.tables, nofun⟩
    · exact ⟨h.tables.of_agree (hs.tables.agree_swept hp n), nofun⟩

end Run

theorem loop_suited {past : List (Loop × Action)} {s : Loop} (h : eventLoop.Run past s)
    (hreports : ∀ x ∈ past, Reports x) :
    System.Always (fun s => s.Inv ∧ (s.phase ≠ .failed → s.Suited)) past s := by
  refine System.Run.always_of (P := fun s a => Reports (s, a)) (fun s hs => ?_)
    (fun a s s' hI hP hs => ?_) h hreports
  · obtain rfl : s = _ := hs
    exact ⟨.init, fun _ => ⟨nofun, nofun⟩⟩
  · exact ⟨step_inv hI.1 hs, (hI.2 (step_not_failed hs)).step hI.1 hs hP⟩

/-- **Every client is one that `Reach` describes**, and is registered for what its state is for, in
any run of the loop in which `epoll_wait` reports what sockets are registered for: no handler is
called for a client in another state. -/
theorem loop_reach {past : List (Loop × Action)} {s : Loop} (h : eventLoop.Run past s)
    (hreports : ∀ x ∈ past, Reports x) (hfailed : s.phase ≠ .failed) {p : Nat} {conn : Conn}
    (hp : s.tables.heap p = some conn) :
    Reach conn.client ∧ ∃ i, s.tables.epoll conn.fd = some (p, i) ∧ i.Suits conn.client :=
  ((loop_suited h hreports).2.2 hfailed).tables p conn hp

/-- Two clients connect; the second sends its request, and is sent the page in two pieces. -/
def secondAsks : List Action :=
  [.wait [(none, ⟨true, false, false⟩)], .accept (.client 4 64 0) true, .endBatch]
    ++ List.replicate (maxClients + 1) (.sweep 0)
    ++ [.wait [(none, ⟨true, false, false⟩)], .accept (.client 5 96 0) true, .endBatch]
    ++ List.replicate (maxClients + 1) (.sweep 0)
    ++ [.wait [(some 5, ⟨true, false, false⟩)],
      .client (pageRecv (ascii "GET / HTTP/1.1" ++ crlfcrlf)) ⟨[], pageWorld, pageWorld⟩ true,
        .endBatch]
    ++ List.replicate (maxClients + 1) (.sweep 0)
    ++ [.wait [(some 5, ⟨false, true, false⟩)],
      .client (pageRecv []) ⟨[.accepted 3, .wouldBlock], pageWorld, pageWorld⟩ true,
      .endBatch]

/-- The second client is sent the beginning of its page while the first is silent. -/
theorem secondAsks_run : ∃ past s conn, eventLoop.Run past s ∧ (∀ x ∈ past, Reports x) ∧
    s.phase = .sweeping 0 ∧ s.tables.heap 96 = some conn ∧ conn.serial = 1 ∧
    ∀ e ∈ eventsOf conn.serial past, ∀ x ∈ e.send.script, SendOutcome.Ordinary x := by
  have hrun : ((System.exec step secondAsks ⟨.running, .init⟩).any fun s => s.phase == .sweeping 0
      && (s.tables.heap 96).any fun conn => conn.serial == 1) = true := by
    decide +kernel
  have hreports : ∀ x ∈ System.steps step secondAsks ⟨.running, .init⟩, Reports x := by
    decide +kernel
  have hevents : ((eventsOf 1 (System.steps step secondAsks ⟨.running, .init⟩)).all
      fun e => e.send.script == [] || e.send.script == [.accepted 3, .wouldBlock]) = true := by
    decide +kernel
  obtain ⟨s, hexec, hs⟩ := (Option.any_eq_true _ _).mp hrun
  rw [Bool.and_eq_true, beq_iff_eq] at hs
  obtain ⟨conn, hp, hserial⟩ := (Option.any_eq_true _ _).mp hs.2
  have hstart : (System.ofStep (· = ⟨.running, .init⟩) step).Run [] ⟨.running, .init⟩ := .start rfl
  rw [beq_iff_eq] at hserial
  refine ⟨_, s, conn, hstart.steps hexec, by
    simpa using hreports, hs.1, hp, hserial, fun e he x hx => ?_⟩
  rw [hserial] at he
  have hscript := List.all_eq_true.mp hevents e he
  rw [Bool.or_eq_true, beq_iff_eq, beq_iff_eq] at hscript
  rcases hscript with hscript | hscript <;> rw [hscript] at hx
  · cases hx
  · obtain rfl | hx := List.mem_cons.mp hx
    · trivial
    · obtain rfl := List.mem_singleton.mp hx
      trivial

theorem client_alone_second : ∃ past s conn, eventLoop.Run past s ∧ s.tables.heap 96 = some conn ∧
    ∃ now, birthsOf conn.serial past = [now] ∧
      handleAll (eventsOf conn.serial past) (newClient now) = some conn.client := by
  obtain ⟨past, s, conn, hrun, -, hphase, hp, -, -⟩ := secondAsks_run
  exact ⟨past, s, conn, hrun, hp, client_alone hrun (by rw [hphase]; exact nofun) hp⟩

theorem loop_reach_second : ∃ past s conn, eventLoop.Run past s ∧ s.tables.heap 96 = some conn ∧
    Reach conn.client ∧ ∃ i, s.tables.epoll conn.fd = some (96, i) ∧ i.Suits conn.client := by
  obtain ⟨past, s, conn, hrun, hreports, hphase, hp, -, -⟩ := secondAsks_run
  exact ⟨past, s, conn, hrun, hp, loop_reach hrun hreports (by rw [hphase]; exact nofun) hp⟩

end InternetLabs.EventServer
