/-
# `InternetLabs.EventServer.Ownership` — who holds a client

The `epoll` set, `clients[]` and the events of a batch hold pointers to clients, and
clients hold descriptors.  `Tables.Inv`: what is held is live, and two live clients hold
two descriptors.  A client is given up in two ways, when it is disconnected and when it
is swept, and once more at the end; each clears all that holds it (`Tables.Inv.release`).
`Loop.Inv.change` says what a step of the loop can do to the tables.

`no_freed_client`: no event reaches a client that is freed.
-/
import InternetLabs.EventServer.EventLoop
import InternetLabs.EventServer.Send

namespace InternetLabs.EventServer

open InternetLabs Function

/-! ## The invariant of the tables

A client is live from `calloc` to `free`.  The `epoll` set and `clients[]` hold live
clients only, and each of these has an open descriptor. -/

/-- What is held is live, and freed and closed once. -/
structure Tables.Inv (t : Tables) : Prop where
  opened : ∀ {p conn}, t.heap p = some conn → t.opened conn.fd = some conn.serial
  epoll : ∀ {fd p i}, t.epoll fd = some (p, i) → ∃ conn, t.heap p = some conn ∧ conn.fd = fd
  clients : ∀ {p}, p ∈ Slots.stored t.clients → ∃ conn, t.heap p = some conn
  clients_nodup : (Slots.stored t.clients).Nodup
  serial_inj : ∀ {p q c d}, t.heap p = some c → t.heap q = some d → c.serial = d.serial → p = q
  serial_lt : ∀ {p conn}, t.heap p = some conn → conn.serial < t.serial
  freed : ∀ {k}, k ∈ t.freed → k < t.serial ∧ ∀ p conn, t.heap p = some conn → conn.serial ≠ k
  freed_nodup : t.freed.Nodup
  closed : t.closed = t.freed

theorem Tables.Inv.init : Tables.Inv .init where
  opened := nofun
  epoll := nofun
  clients h := by rw [Tables.init, Slots.stored_replicate] at h; cases h
  clients_nodup := by rw [Tables.init, Slots.stored_replicate]; exact List.nodup_nil
  serial_inj := nofun
  serial_lt := nofun
  freed := nofun
  freed_nodup := List.nodup_nil
  closed := rfl

section Tables
variable {t : Tables} {p fd : Nat} {conn : Conn}

theorem Tables.Inv.fd_inj (h : t.Inv) {q : Nat} {other : Conn} (hp : t.heap p = some conn)
    (hq : t.heap q = some other) (hfd : conn.fd = other.fd) : p = q := by
  refine h.serial_inj hp hq ?_
  have hsame := h.opened hp
  rw [hfd, h.opened hq] at hsame
  exact (Option.some.inj hsame).symm

theorem Tables.Inv.getNewClient (h : t.Inv) (hp : t.heap p = none) (hfd : t.opened fd = none)
    (now : Int) : (t.getNewClient fd p now).Inv where
  opened {q other} hq := by
    simp only [Tables.getNewClient, update_apply] at hq ⊢
    by_cases hqp : q = p
    · rw [if_pos hqp] at hq
      cases hq
      exact if_pos rfl
    · rw [if_neg hqp] at hq
      rw [if_neg fun heq => by rw [← heq, h.opened hq] at hfd; cases hfd]
      exact h.opened hq
  epoll {fd' q i} hq := by
    obtain ⟨other, hother, hfd'⟩ := h.epoll hq
    refine ⟨other, ?_, hfd'⟩
    simp only [Tables.getNewClient, update_apply]
    rwa [if_neg fun heq => by rw [heq, hp] at hother; cases hother]
  clients {q} hq := by
    obtain ⟨other, hother⟩ := h.clients hq
    refine ⟨other, ?_⟩
    simp only [Tables.getNewClient, update_apply]
    rwa [if_neg fun heq => by rw [heq, hp] at hother; cases hother]
  clients_nodup := h.clients_nodup
  serial_inj {q r c d} hq hr hserial := by
    simp only [Tables.getNewClient, update_apply] at hq hr
    split at hq <;> split at hr
    next hqp hrp => rw [hqp, hrp]
    next hqp hrp =>
      cases hq
      exact absurd hserial.symm (Nat.ne_of_lt (h.serial_lt hr))
    next hqp hrp =>
      cases hr
      exact absurd hserial (Nat.ne_of_lt (h.serial_lt hq))
    next hqp hrp => exact h.serial_inj hq hr hserial
  serial_lt {q other} hq := by
    simp only [Tables.getNewClient, update_apply] at hq
    split at hq
    · cases hq
      exact Nat.lt_succ_self _
    · exact (h.serial_lt hq).trans (Nat.lt_succ_self _)
  freed {k} hk := by
    obtain ⟨hlt, hlive⟩ := h.freed hk
    refine ⟨hlt.trans (Nat.lt_succ_self _), fun q other hq => ?_⟩
    simp only [Tables.getNewClient, update_apply] at hq
    split at hq
    · cases hq
      exact Nat.ne_of_gt hlt
    · exact hlive q other hq
  freed_nodup := h.freed_nodup
  closed := h.closed

theorem Tables.Inv.register (h : t.Inv) (hp : t.heap p = some conn) (interest : Interest) :
    (t.register conn.fd p interest).Inv where
  opened := h.opened
  epoll {fd q i} hq := by
    simp only [Tables.register, update_apply] at hq
    split at hq
    next hfd =>
      cases hq
      exact ⟨conn, hp, hfd.symm⟩
    · exact h.epoll hq
  clients := h.clients
  clients_nodup := h.clients_nodup
  serial_inj := h.serial_inj
  serial_lt := h.serial_lt
  freed := h.freed
  freed_nodup := h.freed_nodup
  closed := h.closed

theorem Tables.Inv.unregister (h : t.Inv) (fd : Nat) : (t.unregister fd).Inv where
  opened := h.opened
  epoll {fd' q i} hq := by
    simp only [Tables.unregister, update_apply] at hq
    split at hq
    · cases hq
    · exact h.epoll hq
  clients := h.clients
  clients_nodup := h.clients_nodup
  serial_inj := h.serial_inj
  serial_lt := h.serial_lt
  freed := h.freed
  freed_nodup := h.freed_nodup
  closed := h.closed

theorem Tables.Inv.withClients (h : t.Inv) {clients : List (Option Nat)}
    (hlive : ∀ p ∈ Slots.stored clients, ∃ conn, t.heap p = some conn)
    (hnodup : (Slots.stored clients).Nodup) : ({ t with clients := clients } : Tables).Inv where
  opened := h.opened
  epoll := h.epoll
  clients {q} hq := hlive q hq
  clients_nodup := hnodup
  serial_inj := h.serial_inj
  serial_lt := h.serial_lt
  freed := h.freed
  freed_nodup := h.freed_nodup
  closed := h.closed

/-- A new pointer in the array, if there is room for it. -/
theorem Tables.Inv.insert (h : t.Inv) (hp : t.heap p = some conn)
    (hnew : p ∉ Slots.stored t.clients) :
    ({ t with clients := Slots.insert p t.clients } : Tables).Inv := by
  by_cases hroom : none ∈ t.clients
  · have hperm := Slots.stored_insert p hroom
    refine h.withClients (fun q hq => ?_)
      (hperm.nodup_iff.mpr (List.nodup_cons.mpr ⟨hnew, h.clients_nodup⟩))
    rcases List.mem_cons.mp (hperm.mem_iff.mp hq) with rfl | hq
    · exact ⟨conn, hp⟩
    · exact h.clients hq
  · rw [Slots.insert_of_full p hroom]
    exact h

theorem Tables.Inv.setClient (h : t.Inv) (hp : t.heap p = some conn) (c : Client) :
    ({ t with heap := update t.heap p (some { conn with client := c }) } : Tables).Inv := by
  -- every client has kept its descriptor and its number
  have hback : ∀ {q other}, update t.heap p (some { conn with client := c }) q = some other →
      ∃ old, t.heap q = some old ∧ other.fd = old.fd ∧ other.serial = old.serial := by
    intro q other hq
    rw [update_apply] at hq
    split at hq
    next hqp =>
      cases hq
      exact ⟨conn, hqp ▸ hp, rfl, rfl⟩
    · exact ⟨other, hq, rfl, rfl⟩
  have hforth : ∀ {q other}, t.heap q = some other →
      ∃ new, update t.heap p (some { conn with client := c }) q = some new ∧ new.fd = other.fd := by
    intro q other hq
    rw [update_apply]
    split
    next hqp =>
      subst hqp
      cases hp.symm.trans hq
      exact ⟨_, rfl, rfl⟩
    · exact ⟨other, hq, rfl⟩
  refine ⟨?_, ?_, ?_, h.clients_nodup, ?_, ?_, ?_, h.freed_nodup, h.closed⟩
  · intro q other hq
    obtain ⟨old, hold, hfd, hserial⟩ := hback hq
    rw [hfd, hserial]
    exact h.opened hold
  · intro fd q i hq
    obtain ⟨other, hother, rfl⟩ := h.epoll hq
    exact hforth hother
  · intro q hq
    obtain ⟨other, hother⟩ := h.clients hq
    obtain ⟨new, hnew, -⟩ := hforth hother
    exact ⟨new, hnew⟩
  · intro q r c d hq hr hserial
    obtain ⟨oldq, holdq, -, hserialq⟩ := hback hq
    obtain ⟨oldr, holdr, -, hserialr⟩ := hback hr
    exact h.serial_inj holdq holdr (by rw [← hserialq, ← hserialr, hserial])
  · intro q other hq
    obtain ⟨old, hold, -, hserial⟩ := hback hq
    rw [hserial]
    exact h.serial_lt hold
  · intro k hk
    refine ⟨(h.freed hk).1, fun q other hq => ?_⟩
    obtain ⟨old, hold, -, hserial⟩ := hback hq
    rw [hserial]
    exact (h.freed hk).2 q old hold

/-- The tables without the client at `p`. -/
def Tables.released (p : Nat) (conn : Conn) (t : Tables) : Tables :=
  { t with
    heap := update t.heap p none
    opened := update t.opened conn.fd none
    epoll := update t.epoll conn.fd none
    freed := conn.serial :: t.freed
    closed := conn.serial :: t.closed }

theorem Tables.released_heap {q : Nat} {other : Conn}
    (hq : (t.released p conn).heap q = some other) :
    q ≠ p ∧ t.heap q = some other := by
  simp only [Tables.released, update_apply] at hq
  split at hq
  · cases hq
  next hne => exact ⟨hne, hq⟩

theorem Tables.Inv.closeAndFree (h : t.Inv) (hp : t.heap p = some conn) :
    t.closeAndFree p = some (t.released p conn) := by
  simp only [Tables.closeAndFree, Tables.close, Tables.freeClient, hp, h.opened hp, bind,
    Option.bind, Option.map_some]
  rfl

/-- **A client is released**: nothing that is left holds it. -/
theorem Tables.Inv.release (h : t.Inv) (hp : t.heap p = some conn) {clients : List (Option Nat)}
    (hothers : ∀ q ∈ Slots.stored clients, q ∈ Slots.stored t.clients ∧ q ≠ p)
    (hnodup : (Slots.stored clients).Nodup) :
    ({ t.released p conn with clients := clients } : Tables).Inv where
  opened {q other} hq := by
    simp only [Tables.released, update_apply] at hq ⊢
    split at hq
    · cases hq
    next hqp =>
      rw [if_neg fun hfd => hqp (h.fd_inj hq hp hfd)]
      exact h.opened hq
  epoll {fd q i} hq := by
    simp only [Tables.released, update_apply] at hq ⊢
    split at hq
    · cases hq
    next hfd =>
      obtain ⟨other, hother, rfl⟩ := h.epoll hq
      refine ⟨other, ?_, rfl⟩
      rwa [if_neg fun hqp => hfd (by rw [hqp, hp] at hother; cases hother; rfl)]
  clients {q} hq := by
    obtain ⟨hmem, hne⟩ := hothers q hq
    obtain ⟨other, hother⟩ := h.clients hmem
    refine ⟨other, ?_⟩
    simp only [Tables.released, update_apply]
    rwa [if_neg hne]
  clients_nodup := hnodup
  serial_inj {q r c d} hq hr := by
    simp only [Tables.released, update_apply] at hq hr
    split at hq
    · cases hq
    · split at hr
      · cases hr
      · exact h.serial_inj hq hr
  serial_lt {q other} hq := by
    simp only [Tables.released, update_apply] at hq
    split at hq
    · cases hq
    · exact h.serial_lt hq
  freed {k} hk := by
    refine ⟨?_, fun q other hq => ?_⟩
    · rcases List.mem_cons.mp hk with rfl | hk
      · exact h.serial_lt hp
      · exact (h.freed hk).1
    · simp only [Tables.released, update_apply] at hq
      split at hq
      · cases hq
      next hqp =>
        rcases List.mem_cons.mp hk with rfl | hk
        · exact fun hserial => hqp (h.serial_inj hq hp hserial)
        · exact (h.freed hk).2 q other hq
  freed_nodup := List.nodup_cons.mpr ⟨fun hk => (h.freed hk).2 p conn hp rfl, h.freed_nodup⟩
  closed := congrArg (conn.serial :: ·) h.closed

end Tables

/-! ## The events of a batch

`epoll_wait` returns pointers to clients.  Another event of the batch must not free them
before their turn. -/

def clientsOf (events : List EpollEvent) : List Nat :=
  events.filterMap fun e => match e.data with
    | .server => none
    | .client p => some p

/-- The events are of different clients that are all live. -/
structure Pending (t : Tables) (events : List EpollEvent) : Prop where
  nodup : (clientsOf events).Nodup
  live : ∀ p ∈ clientsOf events, ∃ conn, t.heap p = some conn

section Pending
variable {t : Tables} {p : Nat} {flags : Flags} {events : List EpollEvent}

theorem Pending.server (h : Pending t (⟨.server, flags⟩ :: events)) : Pending t events :=
  ⟨h.nodup, h.live⟩

/-- The other events are of other clients. -/
theorem Pending.client (h : Pending t (⟨.client p, flags⟩ :: events)) :
    (∃ conn, t.heap p = some conn) ∧ p ∉ clientsOf events ∧ Pending t events := by
  have hcons : clientsOf (⟨.client p, flags⟩ :: events) = p :: clientsOf events := rfl
  have hnodup := h.nodup
  have hlive := h.live
  rw [hcons] at hnodup hlive
  obtain ⟨hnew, hnodup⟩ := List.nodup_cons.mp hnodup
  exact ⟨hlive p List.mem_cons_self, hnew, hnodup, fun q hq => hlive q (List.mem_cons_of_mem _ hq)⟩

theorem Pending.of_heap {t' : Tables} (h : Pending t events)
    (hheap : ∀ q ∈ clientsOf events, ∀ conn, t.heap q = some conn → ∃ conn',
    t'.heap q = some conn') :
    Pending t' events :=
  ⟨h.nodup, fun q hq => by
    obtain ⟨conn, hconn⟩ := h.live q hq
    exact hheap q hq conn hconn⟩

/-- **A batch of events**, one for each descriptor at most, is of different clients. -/
theorem Tables.Inv.pending (h : t.Inv) {ready : List (Option Nat × Flags)}
    (hnodup : (ready.map Prod.fst).Nodup) (hevents : ready.mapM t.event = some events) :
    Pending t events := by
  have hall : (clientsOf events).Nodup ∧ ∀ p ∈ clientsOf events,
      ∃ conn, t.heap p = some conn ∧ some conn.fd ∈ ready.map Prod.fst := by
    induction ready generalizing events with
    | nil =>
        rw [List.mapM_nil] at hevents
        cases hevents
        exact ⟨List.nodup_nil, nofun⟩
    | cons r ready ih =>
        obtain ⟨hnew, hnodup⟩ := List.nodup_cons.mp hnodup
        rw [List.mapM_cons] at hevents
        obtain ⟨e, he, hevents⟩ := Option.bind_eq_some_iff.mp hevents
        obtain ⟨more, hmore, hevents⟩ := Option.bind_eq_some_iff.mp hevents
        cases hevents
        obtain ⟨hmoreNodup, hmoreLive⟩ := ih hnodup hmore
        have hwider : ∀ p ∈ clientsOf more, ∃ conn, t.heap p = some conn ∧
            some conn.fd ∈ (r :: ready).map Prod.fst := by
          intro p hp
          obtain ⟨conn, hconn, hfd⟩ := hmoreLive p hp
          exact ⟨conn, hconn, List.mem_cons_of_mem _ hfd⟩
        obtain ⟨fd, flags⟩ := r
        cases fd with
        | none =>
            cases he
            exact ⟨hmoreNodup, hwider⟩
        | some fd =>
            obtain ⟨⟨p, i⟩, hp, rfl⟩ := Option.map_eq_some_iff.mp he
            obtain ⟨conn, hconn, rfl⟩ := h.epoll hp
            refine ⟨List.nodup_cons.mpr ⟨fun hmem => ?_, hmoreNodup⟩, fun q hq => ?_⟩
            · obtain ⟨other, hother, hfd⟩ := hmoreLive p hmem
              cases hconn.symm.trans hother
              exact hnew hfd
            · rcases List.mem_cons.mp hq with rfl | hq
              · exact ⟨conn, hconn, List.mem_cons_self⟩
              · exact hwider q hq
  refine ⟨hall.1, fun p hp => ?_⟩
  obtain ⟨conn, hconn, -⟩ := hall.2 p hp
  exact ⟨conn, hconn⟩

end Pending

/-! ## The invariant of the loop -/

/-- What every reachable state keeps. -/
structure Loop.Inv (s : Loop) : Prop where
  tables : s.tables.Inv
  fault : s.phase ≠ .fault
  pending : ∀ {events}, s.phase = .handling events → Pending s.tables events

theorem Loop.Inv.init : Loop.Inv ⟨.running, .init⟩ := ⟨.init, nofun, nofun⟩

theorem Loop.Inv.handling {t : Tables} {events : List EpollEvent} (h : t.Inv)
    (hp : Pending t events) :
    Loop.Inv ⟨.handling events, t⟩ :=
  ⟨h, nofun, fun heq => by cases heq; exact hp⟩

section Steps
variable {t : Tables} {p : Nat} {flags : Flags} {events : List EpollEvent} {s : Loop}

/-- The tables after a client is accepted, registered, and put in `clients[]` if there is
room. -/
def Tables.admitted (fd p : Nat) (now : Int) (t : Tables) : Tables :=
  { (t.getNewClient fd p now).register fd p .epollin with clients := Slots.insert p t.clients }

theorem Tables.getNewClient_heap (fd p : Nat) (now : Int) (t : Tables) :
    (t.getNewClient fd p now).heap p = some ⟨fd, t.serial, newClient now⟩ := update_self _ _ _

theorem Tables.Inv.admitted {fd : Nat} (h : t.Inv) (hp : t.heap p = none) (hfd : t.opened fd = none)
    (now : Int) : (t.admitted fd p now).Inv := by
  have hat := t.getNewClient_heap fd p now
  refine ((h.getNewClient hp hfd now).register hat .epollin).insert hat fun hmem => ?_
  obtain ⟨conn, hconn⟩ := h.clients hmem
  rw [hp] at hconn
  cases hconn

theorem acceptClient_cases {accepted : Accepted} {ctl : Bool}
    (hs : acceptClient accepted ctl events t = some s) :
    (∀ fd p now, accepted ≠ .client fd p now) ∧ s = ⟨.handling events, t⟩ ∨
      ∃ fd p now, accepted = .client fd p now ∧ t.heap p = none ∧ t.opened fd = none ∧
        (ctl = false ∧ s = ⟨.failed, t.getNewClient fd p now⟩ ∨
          ctl = true ∧ s = ⟨.handling events, t.admitted fd p now⟩) := by
  cases accepted with
  | failed => cases hs; exact .inl ⟨nofun, rfl⟩
  | unnamed => cases hs; exact .inl ⟨nofun, rfl⟩
  | client fd p now =>
      simp only [acceptClient] at hs
      split at hs
      · cases hs
      next hfree =>
        rw [not_or, Option.not_isSome_iff_eq_none, Option.not_isSome_iff_eq_none] at hfree
        refine .inr ⟨fd, p, now, rfl, hfree.2, hfree.1, ?_⟩
        cases ctl with
        | false => cases hs; exact .inl ⟨rfl, rfl⟩
        | true => cases hs; exact .inr ⟨rfl, rfl⟩

theorem acceptClient_inv {accepted : Accepted} {ctl : Bool} (h : t.Inv)
    (hpending : Pending t events)
    (hs : acceptClient accepted ctl events t = some s) : s.Inv := by
  obtain ⟨-, rfl⟩ | ⟨fd, p, now, -, hp, hfd, ⟨-, rfl⟩ | ⟨-, rfl⟩⟩ := acceptClient_cases hs
  · exact .handling h hpending
  · exact ⟨h.getNewClient hp hfd now, nofun, nofun⟩
  · refine .handling (h.admitted hp hfd now) (hpending.of_heap fun q hq conn hconn => ⟨conn, ?_⟩)
    show update t.heap p _ q = _
    rwa [update_of_ne]
    rintro rfl
    rw [hp] at hconn
    cases hconn

/-- The tables after a client at `p` is disconnected. -/
def Tables.dropped (p : Nat) (conn : Conn) (t : Tables) : Tables :=
  { (t.unregister conn.fd).released p conn with clients := Slots.remove p t.clients }

/-- What is left of `clients[]` when a pointer is taken out. -/
theorem Tables.Inv.remove (h : t.Inv) (p : Nat) : (Slots.stored (Slots.remove p t.clients)).Nodup ∧
    ∀ q, q ∈ Slots.stored (Slots.remove p t.clients) ↔ q ∈ Slots.stored t.clients ∧ q ≠ p := by
  rw [Slots.stored_remove]
  exact ⟨h.clients_nodup.erase p, fun q => by rw [h.clients_nodup.mem_erase_iff, and_comm]⟩

theorem Tables.Inv.dropped {conn : Conn} (h : t.Inv) (hp : t.heap p = some conn) :
    (t.dropped p conn).Inv :=
  have hremove := h.remove p
  (h.unregister conn.fd).release hp (fun q hq => (hremove.2 q).mp hq) hremove.1

/-- A client that is disconnected is dropped, or the process ends. -/
theorem dropClient_cases {conn : Conn} {ctl : Bool} (h : t.Inv) (hp : t.heap p = some conn) :
    dropClient p conn.fd ctl events t = ⟨.failed, t⟩ ∨
      dropClient p conn.fd ctl events t = ⟨.handling events, t.dropped p conn⟩ := by
  rw [dropClient]
  split
  swap
  · exact .inl rfl
  have hremove := h.remove p
  have hremoved := @Tables.Inv.withClients _ (h.unregister conn.fd) (Slots.remove p t.clients)
    (fun q hq => h.clients ((hremove.2 q).mp hq).1) hremove.1
  have hclose : Tables.closeAndFree p { t.unregister conn.fd with
      clients := Slots.remove p (t.unregister conn.fd).clients } = _ := hremoved.closeAndFree hp
  simp only [hclose]
  exact .inr rfl

/-- The tables with another client at `p`. -/
def Tables.setClient (p : Nat) (conn : Conn) (t : Tables) : Tables :=
  { t with heap := update t.heap p (some conn) }

theorem Tables.setClient_heap (p : Nat) (conn : Conn) (t : Tables) :
    (t.setClient p conn).heap p = some conn := update_self _ _ _

/-- **What an event of a live client comes to.**  The handlers are undefined; or the
process ends; or the client is registered for something else or as before, and dropped if
it is disconnected. -/
theorem handleClient_cases {recv : RecvEnv} {send : SendEnv} {ctl : Bool} {conn : Conn} (h : t.Inv)
    (hp : t.heap p = some conn) :
    handleClient p flags recv send ctl events t = ⟨.stuck, t⟩ ∨
      ∃ c interest, handleEvent flags recv send conn.client = some (c, interest) ∧
        ∃ t', (t' = t.setClient p { conn with client := c } ∨
            ∃ i, t' = (t.setClient p { conn with client := c }).register conn.fd p i) ∧ t'.Inv ∧
          (handleClient p flags recv send ctl events t = ⟨.failed, t'⟩ ∨
            c.state ≠ .disconnected ∧
              handleClient p flags recv send ctl events t = ⟨.handling events, t'⟩ ∨
            c.state = .disconnected ∧ handleClient p flags recv send ctl events t
              = ⟨.handling events, t'.dropped p { conn with client := c }⟩) := by
  simp only [handleClient, hp]
  match hevent : handleEvent flags recv send conn.client with
  | none => exact .inl rfl
  | some (c, interest) =>
      refine .inr ⟨c, interest, rfl, ?_⟩
      have hat := t.setClient_heap p { conn with client := c }
      have hset : (t.setClient p { conn with client := c }).Inv := h.setClient hp c
      have hrest : ∀ t' : Tables, t'.heap p = some { conn with client := c } → t'.Inv →
          ∀ s, s = (if c.state = .disconnected then dropClient p conn.fd ctl events t'
            else ⟨.handling events, t'⟩ : Loop) →
          s = ⟨.failed, t'⟩ ∨ c.state ≠ .disconnected ∧ s = ⟨.handling events, t'⟩ ∨
            c.state = .disconnected ∧
              s = ⟨.handling events, t'.dropped p { conn with client := c }⟩ := by
        rintro t' hheap ht' s rfl
        split
        next hdisconnected =>
          rcases @dropClient_cases t' p events { conn with client := c } ctl ht' hheap with hd | hd
          · exact .inl hd
          · exact .inr (.inr ⟨hdisconnected, hd⟩)
        next hconnected => exact .inr (.inl ⟨hconnected, rfl⟩)
      match interest with
      | none => exact ⟨_, .inl rfl, hset, hrest _ hat hset _ rfl⟩
      | some i =>
          cases ctl with
          | false => exact ⟨_, .inl rfl, hset, .inl rfl⟩
          | true =>
              have hregistered := hset.register hat i
              exact ⟨_, .inr ⟨i, rfl⟩, hregistered,
                hrest ((t.setClient p { conn with client := c }).register conn.fd p i)
                  hat hregistered _ rfl⟩

theorem handleClient_inv {recv : RecvEnv} {send : SendEnv} {ctl : Bool} (h : t.Inv)
    (hpending : Pending t (⟨.client p, flags⟩ :: events)) :
    (handleClient p flags recv send ctl events t).Inv := by
  obtain ⟨⟨conn, hp⟩, hnew, hothers⟩ := hpending.client
  obtain hs | ⟨c, interest, -, t', ht', hinv, hs⟩ :=
    @handleClient_cases t p flags events recv send ctl conn h hp
  · rw [hs]
    exact ⟨h, nofun, nofun⟩
  have hheap : t'.heap = update t.heap p (some { conn with client := c }) := by
    rcases ht' with rfl | ⟨i, rfl⟩ <;> rfl
  have hother : ∀ q ∈ clientsOf events, t'.heap q = t.heap q := by
    intro q hq
    rw [hheap, update_of_ne]
    rintro rfl
    exact hnew hq
  rcases hs with hs | ⟨-, hs⟩ | ⟨-, hs⟩ <;> rw [hs]
  · exact ⟨hinv, nofun, nofun⟩
  · exact .handling hinv (hothers.of_heap fun q hq other hq' => ⟨other, (hother q hq).trans hq'⟩)
  · refine .handling (hinv.dropped (by rw [hheap]; exact update_self _ _ _))
      (hothers.of_heap fun q hq other hq' => ⟨other, ?_⟩)
    show update t'.heap p none q = _
    rw [update_of_ne (by rintro rfl; exact hnew hq), hother q hq, hq']

/-- The tables after the client at `clients[i]` is released there. -/
def Tables.swept (p : Nat) (conn : Conn) (i : Nat) (t : Tables) : Tables :=
  { t.released p conn with clients := t.clients.set i none }

/-- What is left of `clients[]` when an entry is cleared. -/
theorem Tables.Inv.set {i : Nat} (h : t.Inv) (hi : t.clients[i]? = some (some p)) :
    (Slots.stored (t.clients.set i none)).Nodup ∧
      ∀ q, q ∈ Slots.stored (t.clients.set i none) ↔ q ∈ Slots.stored t.clients ∧ q ≠ p := by
  have hperm := Slots.stored_set hi
  obtain ⟨hnew, hnodup⟩ := List.nodup_cons.mp (hperm.nodup_iff.mp h.clients_nodup)
  refine ⟨hnodup, fun q => ?_⟩
  rw [hperm.mem_iff, List.mem_cons]
  constructor
  · intro hq
    exact ⟨.inr hq, by rintro rfl; exact hnew hq⟩
  · rintro ⟨hq, hne⟩
    exact hq.resolve_left hne

theorem Tables.Inv.swept {i : Nat} {conn : Conn} (h : t.Inv) (hi : t.clients[i]? = some (some p))
    (hp : t.heap p = some conn) : (t.swept p conn i).Inv :=
  have hset := h.set hi
  h.release hp (fun q hq => (hset.2 q).mp hq) hset.1

/-- **A round of the sweep** passes a client over, or releases it if it has expired. -/
theorem sweepClient_cases {now : Int} {i : Nat} (h : t.Inv) :
    sweepClient now i t = ⟨.running, t⟩ ∨ sweepClient now i t = ⟨.sweeping (i + 1), t⟩ ∨
      ∃ p conn, t.clients[i]? = some (some p) ∧ t.heap p = some conn ∧
        expireTime ≤ (now - conn.client.lastActive) * 1000 ∧
        sweepClient now i t = ⟨.sweeping (i + 1), t.swept p conn i⟩ := by
  rw [sweepClient]
  match hi : t.clients[i]? with
  | none => exact .inl rfl
  | some none => exact .inr (.inl rfl)
  | some (some p) =>
      obtain ⟨conn, hp⟩ := h.clients (Slots.mem_stored.mpr (List.mem_of_getElem? hi))
      simp only [hp]
      split
      next hexpired =>
        rw [h.closeAndFree hp]
        exact .inr (.inr ⟨p, conn, rfl, hp, hexpired, rfl⟩)
      · exact .inr (.inl rfl)

/-- A round of the loop at the end of `main` releases a client, or there is none. -/
theorem cleanupClient_cases {n : Nat} (h : t.Inv) :
    t.clients[n]? = none ∧ cleanupClient n t = ⟨.finished, t⟩ ∨
      t.clients[n]? = some none ∧ cleanupClient n t = ⟨.cleanup (n + 1), t⟩ ∨
      ∃ p conn, t.clients[n]? = some (some p) ∧ t.heap p = some conn ∧
        cleanupClient n t = ⟨.cleanup (n + 1), t.swept p conn n⟩ := by
  rw [cleanupClient]
  match hn : t.clients[n]? with
  | none => exact .inl ⟨rfl, rfl⟩
  | some none => exact .inr (.inl ⟨rfl, rfl⟩)
  | some (some p) =>
      obtain ⟨conn, hp⟩ := h.clients (Slots.mem_stored.mpr (List.mem_of_getElem? hn))
      simp only [h.closeAndFree hp]
      exact .inr (.inr ⟨p, conn, rfl, hp, rfl⟩)

theorem sweepClient_inv {now : Int} {i : Nat} (h : t.Inv) : (sweepClient now i t).Inv := by
  obtain hs | hs | ⟨p, conn, hi, hp, -, hs⟩ := @sweepClient_cases t now i h <;> rw [hs]
  · exact ⟨h, nofun, nofun⟩
  · exact ⟨h, nofun, nofun⟩
  · exact ⟨h.swept hi hp, nofun, nofun⟩

theorem cleanupClient_inv {n : Nat} (h : t.Inv) : (cleanupClient n t).Inv := by
  obtain ⟨-, hs⟩ | ⟨-, hs⟩ | ⟨p, conn, hn, hp, hs⟩ := @cleanupClient_cases t n h <;> rw [hs]
  · exact ⟨h, nofun, nofun⟩
  · exact ⟨h, nofun, nofun⟩
  · exact ⟨h.swept hn hp, nofun, nofun⟩

end Steps

/-! ## The steps of the loop

Each step is one of a few changes to the tables, and each of these keeps the invariant. -/

/-- **What a step can be.** -/
theorem step_cases {a : Action} {s s' : Loop} (h : step a s = some s') :
    (∃ ready events t, a = .wait ready ∧ s = ⟨.running, t⟩ ∧ (ready.map Prod.fst).Nodup ∧
      ready.mapM t.event = some events ∧ s' = ⟨.handling events, t⟩) ∨
    (∃ t, a = .stop ∧ s = ⟨.running, t⟩ ∧ s' = ⟨.cleanup 0, t⟩) ∨
    (∃ t, a = .fail ∧ s = ⟨.running, t⟩ ∧ s' = ⟨.failed, t⟩) ∨
    (∃ accepted ctl flags events t, a = .accept accepted ctl ∧
      s = ⟨.handling (⟨.server, flags⟩ :: events), t⟩ ∧ acceptClient accepted ctl events t
      = some s') ∨
    (∃ recv send ctl p flags events t, a = .client recv send ctl ∧
      s = ⟨.handling (⟨.client p, flags⟩ :: events), t⟩ ∧
      s' = handleClient p flags recv send ctl events t) ∨
    (∃ t, a = .endBatch ∧ s = ⟨.handling [], t⟩ ∧ s' = ⟨.sweeping 0, t⟩) ∨
    (∃ now i t, a = .sweep now ∧ s = ⟨.sweeping i, t⟩ ∧ s' = sweepClient now i t) ∨
    (∃ n t, a = .cleanup ∧ s = ⟨.cleanup n, t⟩ ∧ s' = cleanupClient n t) := by
  obtain ⟨phase, t⟩ := s
  unfold step at h
  split at h
  next ready t heq =>
    split at h
    next hready =>
      obtain ⟨events, hevents, rfl⟩ := Option.map_eq_some_iff.mp h
      exact .inl ⟨ready, events, t, rfl, heq, hready.2, hevents, rfl⟩
    · cases h
  next t heq => cases h; exact .inr (.inl ⟨t, rfl, heq, rfl⟩)
  next t heq => cases h; exact .inr (.inr (.inl ⟨t, rfl, heq, rfl⟩))
  next accepted ctl flags events t heq =>
    exact .inr (.inr (.inr (.inl ⟨accepted, ctl, flags, events, t, rfl, heq, h⟩)))
  next recv send ctl p flags events t heq =>
    cases h
    exact .inr (.inr (.inr (.inr (.inl ⟨recv, send, ctl, p, flags, events, t, rfl, heq, rfl⟩))))
  next t heq =>
    cases h
    exact .inr (.inr (.inr (.inr (.inr (.inl ⟨t, rfl, heq, rfl⟩)))))
  next now i t heq =>
    cases h
    exact .inr (.inr (.inr (.inr (.inr (.inr (.inl ⟨now, i, t, rfl, heq, rfl⟩))))))
  next n t heq =>
    cases h
    exact .inr (.inr (.inr (.inr (.inr (.inr (.inr ⟨n, t, rfl, heq, rfl⟩))))))
  · cases h

/-- The client an action is about: the one accepted, or the one whose event is handled. -/
def Loop.target (s : Loop) : Action → Option Nat
  | .accept (.client _ p _) _ => some p
  | .client _ _ _ =>
      match s.phase with
      | .handling (⟨.client p, _⟩ :: _) => some p
      | _ => none
  | _ => none

/-- What a step makes of the tables. -/
inductive Change (s : Loop) : Action → Loop → Prop
  | unchanged {a : Action} {s' : Loop} (tables : s'.tables = s.tables)
      (target : s.target a = none) : Change s a s'
  | stuck {recv : RecvEnv} {send : SendEnv} {ctl : Bool} :
      Change s (.client recv send ctl) ⟨.stuck, s.tables⟩
  | refused {fd p : Nat} {now : Int} (heap : s.tables.heap p = none)
      (opened : s.tables.opened fd = none) :
      Change s (.accept (.client fd p now) false) ⟨.failed, s.tables.getNewClient fd p now⟩
  | admitted {fd p : Nat} {now : Int} {events : List EpollEvent} (heap : s.tables.heap p = none)
      (opened : s.tables.opened fd = none) :
      Change s (.accept (.client fd p now) true) ⟨.handling events, s.tables.admitted fd p now⟩
  | handled {recv : RecvEnv} {send : SendEnv} {ctl : Bool} {flags : Flags}
      {events : List EpollEvent} {p : Nat} {conn : Conn} {c : Client} {i : Option Interest}
      {t' : Tables} {s' : Loop}
      (phase : s.phase = .handling (⟨.client p, flags⟩ :: events))
      (heap : s.tables.heap p = some conn)
      (event : handleEvent flags recv send conn.client = some (c, i))
      (tables : t' = s.tables.setClient p { conn with client := c } ∨
        ∃ i, t' = (s.tables.setClient p { conn with client := c }).register conn.fd p i)
      (inv : t'.Inv)
      (ending : s' = ⟨.failed, t'⟩ ∨ c.state ≠ .disconnected ∧ s' = ⟨.handling events, t'⟩ ∨
        c.state = .disconnected ∧ s' = ⟨.handling events, t'.dropped p { conn with client := c }⟩) :
      Change s (.client recv send ctl) s'
  | released {a : Action} {s' : Loop} {p : Nat} {conn : Conn} {i : Nat}
      (entry : s.tables.clients[i]? = some (some p)) (heap : s.tables.heap p = some conn)
      (tables : s'.tables = s.tables.swept p conn i) (target : s.target a = none) : Change s a s'

/-- **What a step makes of the tables**, one case for each way a client comes, stays or
goes. -/
theorem Loop.Inv.change {a : Action} {s s' : Loop} (hs : s.Inv) (h : step a s = some s') :
    Change s a s' := by
  have hinv := hs.tables
  obtain ⟨ready, events, t, rfl, rfl, -, -, rfl⟩ | ⟨t, rfl, rfl, rfl⟩ | ⟨t, rfl, rfl, rfl⟩ |
    ⟨accepted, ctl, flags, events, t, rfl, rfl, haccept⟩ |
    ⟨recv, send, ctl, p, flags, events, t, rfl, rfl, rfl⟩ | ⟨t, rfl, rfl, rfl⟩ |
    ⟨now, i, t, rfl, rfl, rfl⟩ | ⟨n, t, rfl, rfl, rfl⟩ := step_cases h
  · exact .unchanged rfl rfl
  · exact .unchanged rfl rfl
  · exact .unchanged rfl rfl
  · obtain ⟨hnot, rfl⟩ | ⟨fd, p, now, rfl, hp, hfd, ⟨rfl, rfl⟩ | ⟨rfl, rfl⟩⟩ :=
      acceptClient_cases haccept
    · refine .unchanged rfl ?_
      cases accepted with
      | failed => rfl
      | unnamed => rfl
      | client fd p now => exact absurd rfl (hnot fd p now)
    · exact .refused hp hfd
    · exact .admitted hp hfd
  · obtain ⟨⟨conn, hp⟩, -, -⟩ := (hs.pending rfl).client
    obtain hstuck | ⟨c, i, hevent, t', ht', hinv', hend⟩ :=
      @handleClient_cases t p flags events recv send ctl conn hinv hp
    · rw [hstuck]
      exact .stuck
    · exact .handled rfl hp hevent ht' hinv' hend
  · exact .unchanged rfl rfl
  · obtain hsweep | hsweep | ⟨p, conn, hi, hp, -, hsweep⟩ := @sweepClient_cases t now i hinv <;>
      rw [hsweep]
    · exact .unchanged rfl rfl
    · exact .unchanged rfl rfl
    · exact .released hi hp rfl rfl
  · obtain ⟨-, hclean⟩ | ⟨-, hclean⟩ | ⟨p, conn, hn, hp, hclean⟩ :=
      @cleanupClient_cases t n hinv <;>
      rw [hclean]
    · exact .unchanged rfl rfl
    · exact .unchanged rfl rfl
    · exact .released hn hp rfl rfl

/-- **A step keeps the invariant.** -/
theorem step_inv {a : Action} {s s' : Loop} (hs : s.Inv) (h : step a s = some s') : s'.Inv := by
  obtain ⟨ready, events, t, -, rfl, hnodup, hevents, rfl⟩ | ⟨t, -, rfl, rfl⟩ | ⟨t, -, rfl, rfl⟩ |
    ⟨accepted, ctl, flags, events, t, -, rfl, haccept⟩ |
    ⟨recv, send, ctl, p, flags, events, t, -, rfl, rfl⟩ | ⟨t, -, rfl, rfl⟩ |
    ⟨now, i, t, -, rfl, rfl⟩ | ⟨n, t, -, rfl, rfl⟩ := step_cases h
  · exact .handling hs.tables (hs.tables.pending hnodup hevents)
  · exact ⟨hs.tables, nofun, nofun⟩
  · exact ⟨hs.tables, nofun, nofun⟩
  · exact acceptClient_inv hs.tables (hs.pending rfl).server haccept
  · exact handleClient_inv hs.tables (hs.pending rfl)
  · exact ⟨hs.tables, nofun, nofun⟩
  · exact sweepClient_inv hs.tables
  · exact cleanupClient_inv hs.tables

theorem eventLoop_inv {past : List (Loop × Action)} {s : Loop} (h : eventLoop.Run past s) :
    s.Inv := by
  refine h.invariant (I := fun _ s => s.Inv) (fun s hs => ?_) fun past s a s' hI hs =>
    step_inv hI hs
  obtain rfl : s = _ := hs
  exact .init

/-- **No event reaches a client that is freed**, in any run of the loop and of the end of
`main`: the pointer of the next event is live, no client is freed twice and no descriptor
closed twice, and `clients[]` holds live clients only.  A run ends where a handler is
undefined, so this is about the events before. -/
theorem no_freed_client {past : List (Loop × Action)} {s : Loop} (h : eventLoop.Run past s) :
    s.phase ≠ .fault ∧
      (∀ p flags events, s.phase = .handling (⟨.client p, flags⟩ :: events) →
        ∃ conn, s.tables.heap p = some conn) ∧
      s.tables.freed.Nodup ∧ s.tables.closed.Nodup ∧
      ∀ p, some p ∈ s.tables.clients → ∃ conn, s.tables.heap p = some conn := by
  have hs := eventLoop_inv h
  refine ⟨hs.fault, fun p flags events hphase => ?_, hs.tables.freed_nodup, ?_, fun p hp => ?_⟩
  · exact (hs.pending hphase).client.1
  · rw [hs.tables.closed]
    exact hs.tables.freed_nodup
  · exact hs.tables.clients (Slots.mem_stored.mpr hp)

theorem eventLoop_step {past : List (Loop × Action)} {s s' : Loop} (a : Action)
    (h : eventLoop.Run past s) (hs : step a s = some s') : eventLoop.Run (past ++ [(s, a)]) s' :=
  h.step hs

theorem eventLoop_exec {actions : List Action} {s : Loop}
    (h : System.exec step actions ⟨.running, .init⟩ = some s) :
    ∃ past, past.map Prod.snd = actions ∧ eventLoop.Run past s := by
  have hstart : (System.ofStep (· = ⟨.running, .init⟩) step).Run [] ⟨.running, .init⟩ := .start rfl
  obtain ⟨past, hpast, hrun⟩ := hstart.exec h
  exact ⟨past, hpast, hrun⟩

/-- A client connects, and hangs up before it is swept. -/
def hangUp : List Action :=
  [.wait [(none, ⟨true, false, false⟩)], .accept (.client 4 64 0) true, .endBatch]
    ++ List.replicate (maxClients + 1) (.sweep 0)
    ++ [.wait [(some 4, ⟨false, false, true⟩)],
      .client (pageRecv []) ⟨[], pageWorld, pageWorld⟩ true]

theorem hangUp_freed : ∃ past s, past.map Prod.snd = hangUp ∧ eventLoop.Run past s ∧
    s.tables.freed = [0] ∧ s.tables.closed.Nodup ∧
    ∀ p, some p ∈ s.tables.clients → ∃ conn, s.tables.heap p = some conn := by
  have hrun : ((System.exec step hangUp ⟨.running, .init⟩).any fun s => s.tables.freed == [0])
      = true := by
    decide
  obtain ⟨s, hexec, hfreed⟩ := (Option.any_eq_true _ _).mp hrun
  rw [beq_iff_eq] at hfreed
  obtain ⟨past, hpast, hpastRun⟩ := eventLoop_exec hexec
  have hall := no_freed_client hpastRun
  exact ⟨past, s, hpast, hpastRun, hfreed, hall.2.2.2⟩

end InternetLabs.EventServer
