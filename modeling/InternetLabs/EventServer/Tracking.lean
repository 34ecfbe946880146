/-
# `InternetLabs.EventServer.Tracking` — the clients the sweep sees

The sweep and the end of `main` go through `clients[]`; the events come from the `epoll`
set.  A client is put in both when it is accepted, but `clients[]` has room for
`MAX_CLIENTS` only, and nothing is done when it is full.

`tracked_iff`: both hold the same clients all along a run exactly if `clients[]` has room
whenever a client is accepted.  Then every client is released at the end.
-/
import InternetLabs.EventServer.Ownership

namespace InternetLabs.EventServer

open InternetLabs Function

/-! ## Both collections

The `epoll` set says which clients can have events, `clients[]` which are swept. -/

/-- The client at `p` is registered with `epoll`. -/
def Tables.Registered (t : Tables) (p : Nat) : Prop := ∃ fd i, t.epoll fd = some (p, i)

/-- `clients[]` holds the clients that are registered, each of them once. -/
structure Tables.Tracked (t : Tables) : Prop where
  once : (Slots.stored t.clients).Nodup
  registered : ∀ p, some p ∈ t.clients ↔ t.Registered p

/-- If the step accepts a client, there is room for it in `clients[]`. -/
def HasRoom (s : Loop) : Action → Prop
  | .accept (.client _ _ _) true => none ∈ s.tables.clients
  | _ => True

section Registered
variable {t : Tables} {p q : Nat} {conn : Conn}

theorem Tables.tracked_iff_stored : t.Tracked ↔
    (Slots.stored t.clients).Nodup ∧ ∀ p, p ∈ Slots.stored t.clients ↔ t.Registered p := by
  simp only [Slots.mem_stored]
  exact ⟨fun h => ⟨h.once, h.registered⟩, fun h => ⟨h.1, h.2⟩⟩

theorem Tables.Inv.registered_register (h : t.Inv) (hp : t.heap p = some conn)
    (hreg : t.Registered p) (i : Interest) : (t.register conn.fd p i).Registered q ↔
    t.Registered q := by
  constructor
  · rintro ⟨fd, j, hfd⟩
    simp only [Tables.register, update_apply] at hfd
    split at hfd
    · cases hfd
      exact hreg
    · exact ⟨fd, j, hfd⟩
  · rintro ⟨fd, j, hfd⟩
    obtain ⟨other, hother, rfl⟩ := h.epoll hfd
    by_cases hsame : other.fd = conn.fd
    · obtain rfl := h.fd_inj hother hp hsame
      exact ⟨conn.fd, i, update_self _ _ _⟩
    · exact ⟨other.fd, j, (update_of_ne hsame _ _).trans hfd⟩

theorem Tables.Inv.registered_released (h : t.Inv) (hp : t.heap p = some conn) :
    (t.released p conn).Registered q ↔ t.Registered q ∧ q ≠ p := by
  constructor
  · rintro ⟨fd, i, hfd⟩
    simp only [Tables.released, update_apply] at hfd
    split at hfd
    · cases hfd
    next hne =>
      refine ⟨⟨fd, i, hfd⟩, ?_⟩
      rintro rfl
      obtain ⟨other, hother, rfl⟩ := h.epoll hfd
      cases hp.symm.trans hother
      exact hne rfl
  · rintro ⟨⟨fd, i, hfd⟩, hne⟩
    obtain ⟨other, hother, rfl⟩ := h.epoll hfd
    refine ⟨other.fd, i, ?_⟩
    simp only [Tables.released, update_apply]
    rwa [if_neg fun hsame => hne (h.fd_inj hother hp hsame)]

theorem Tables.Inv.registered_unregister (h : t.Inv) (hp : t.heap p = some conn) :
    (t.unregister conn.fd).Registered q ↔ t.Registered q ∧ q ≠ p :=
  h.registered_released hp

theorem Tables.Inv.registered_dropped (h : t.Inv) (hp : t.heap p = some conn) :
    (t.dropped p conn).Registered q ↔ t.Registered q ∧ q ≠ p := by
  have hrelease := (h.unregister conn.fd).registered_released (q := q) hp
  rw [h.registered_unregister hp, and_assoc, and_self] at hrelease
  exact hrelease

theorem Tables.Inv.registered_admitted {fd : Nat} (h : t.Inv) (hp : t.heap p = none)
    (hfd : t.opened fd = none) (now : Int) :
    (t.admitted fd p now).Registered q ↔ q = p ∨ t.Registered q := by
  have hfree : t.epoll fd = none := by
    cases hfd' : t.epoll fd with
    | none => rfl
    | some entry =>
        obtain ⟨other, hother, rfl⟩ := h.epoll (p := entry.1) (i := entry.2) hfd'
        rw [h.opened hother] at hfd
        cases hfd
  constructor
  · rintro ⟨fd', i, hq⟩
    simp only [Tables.admitted, Tables.register, Tables.getNewClient, update_apply] at hq
    split at hq
    · cases hq
      exact .inl rfl
    · exact .inr ⟨fd', i, hq⟩
  · rintro (rfl | ⟨fd', i, hq⟩)
    · exact ⟨fd, .epollin, update_self _ _ _⟩
    · refine ⟨fd', i, (update_of_ne ?_ _ _).trans hq⟩
      rintro rfl
      rw [hfree] at hq
      cases hq

end Registered

/-! ## What a step does to both

A step adds one client, takes one out, or leaves them as they are. -/

/-- `t'` has the clients of `t`. -/
structure Tables.Same (t t' : Tables) : Prop where
  clients : t'.clients = t.clients
  registered : ∀ q, t'.Registered q ↔ t.Registered q
  live : ∀ q conn, t'.heap q = some conn → ∃ conn, t.heap q = some conn

/-- `t'` has the clients of `t` but for the one at `p`. -/
structure Tables.Without (p : Nat) (t t' : Tables) : Prop where
  once : (Slots.stored t'.clients).Nodup
  stored : ∀ q, q ∈ Slots.stored t'.clients ↔ q ∈ Slots.stored t.clients ∧ q ≠ p
  registered : ∀ q, t'.Registered q ↔ t.Registered q ∧ q ≠ p
  live : ∀ q conn, t'.heap q = some conn → q ≠ p ∧ ∃ conn, t.heap q = some conn

/-- Every live client is registered. -/
def Tables.AllRegistered (t : Tables) : Prop := ∀ p conn, t.heap p = some conn → t.Registered p

section Changes
variable {t t' : Tables} {p : Nat} {conn : Conn}

theorem Tables.Same.refl (t : Tables) : t.Same t :=
  ⟨rfl, fun _ => Iff.rfl, fun _ conn h => ⟨conn, h⟩⟩

theorem Tables.Same.tracked (h : t.Same t') (ht : t.Tracked) : t'.Tracked := by
  refine ⟨?_, fun q => ?_⟩
  · rw [h.clients]
    exact ht.once
  · rw [h.clients, h.registered]
    exact ht.registered q

theorem Tables.Same.allRegistered (h : t.Same t') (ht : t.AllRegistered) : t'.AllRegistered := by
  intro q conn hq
  obtain ⟨other, hother⟩ := h.live q conn hq
  exact (h.registered q).mpr (ht q other hother)

theorem Tables.Without.tracked (h : t.Without p t') (ht : t.Tracked) : t'.Tracked := by
  rw [Tables.tracked_iff_stored] at ht ⊢
  refine ⟨h.once, fun q => ?_⟩
  rw [h.stored, h.registered, ht.2]

theorem Tables.Without.allRegistered (h : t.Without p t') (ht : t.AllRegistered) :
    t'.AllRegistered := by
  intro q conn hq
  obtain ⟨hne, other, hother⟩ := h.live q conn hq
  exact (h.registered q).mpr ⟨ht q other hother, hne⟩

theorem Tables.setClient_live (hp : t.heap p = some conn) (c : Conn) :
    ∀ q d, (t.setClient p c).heap q = some d → ∃ d, t.heap q = some d := by
  intro q d hq
  by_cases hqp : q = p
  · exact ⟨conn, hqp ▸ hp⟩
  · exact ⟨d, (update_of_ne hqp _ _).symm.trans hq⟩

/-- Another client at `p`, registered for something else or as before. -/
theorem Tables.Inv.same (h : t.Inv) (hp : t.heap p = some conn) (hreg : t.Registered p) {c : Client}
    (ht' : t' = t.setClient p { conn with client := c } ∨
      ∃ i, t' = (t.setClient p { conn with client := c }).register conn.fd p i) : t.Same t' := by
  have hlive := Tables.setClient_live hp { conn with client := c }
  rcases ht' with rfl | ⟨i, rfl⟩
  · exact ⟨rfl, fun _ => Iff.rfl, hlive⟩
  · have hset : (t.setClient p { conn with client := c }).Inv := h.setClient hp c
    exact ⟨rfl, fun q => hset.registered_register (t.setClient_heap p _) hreg i, hlive⟩

theorem Tables.Inv.without_dropped (h : t.Inv) (hp : t.heap p = some conn) :
    t.Without p (t.dropped p conn) where
  once := (h.remove p).1
  stored := (h.remove p).2
  registered _ := h.registered_dropped hp
  live _ other hq :=
    have hheap := @Tables.released_heap (t.unregister conn.fd) p conn _ other hq
    ⟨hheap.1, other, hheap.2⟩

theorem Tables.Inv.without_swept {i : Nat} (h : t.Inv) (hi : t.clients[i]? = some (some p))
    (hp : t.heap p = some conn) : t.Without p (t.swept p conn i) where
  once := (h.set hi).1
  stored := (h.set hi).2
  registered _ := h.registered_released hp
  live _ other hq :=
    have hheap := @Tables.released_heap t p conn _ other hq
    ⟨hheap.1, other, hheap.2⟩

/-- **A client is accepted**: it is tracked if there is room. -/
theorem Tables.Inv.tracked_admitted {fd : Nat} (h : t.Inv) (hp : t.heap p = none)
    (hfd : t.opened fd = none) (now : Int) (ht : t.Tracked) :
    (t.admitted fd p now).Tracked ↔ none ∈ t.clients := by
  rw [Tables.tracked_iff_stored] at ht ⊢
  have hnew : p ∉ Slots.stored t.clients := by
    intro hmem
    obtain ⟨conn, hconn⟩ := h.clients hmem
    rw [hp] at hconn
    cases hconn
  by_cases hroom : none ∈ t.clients
  · have hperm := Slots.stored_insert p hroom
    refine ⟨fun _ => hroom, fun _ => ⟨?_, fun q => ?_⟩⟩
    · exact hperm.nodup_iff.mpr (List.nodup_cons.mpr ⟨hnew, ht.1⟩)
    · rw [h.registered_admitted hp hfd now, ← ht.2, ← List.mem_cons]
      exact hperm.mem_iff
  · -- the array is as it was, and the new client is not in it
    refine ⟨fun hadmitted => absurd ?_ hnew, fun hroom' => absurd hroom' hroom⟩
    have hmem := (hadmitted.2 p).mpr ((h.registered_admitted hp hfd now).mpr (.inl rfl))
    change p ∈ Slots.stored (Slots.insert p t.clients) at hmem
    rwa [Slots.insert_of_full p hroom] at hmem

theorem Tables.Inv.allRegistered_admitted {fd : Nat} (h : t.Inv) (hp : t.heap p = none)
    (hfd : t.opened fd = none) (now : Int) (ht : t.AllRegistered) :
    (t.admitted fd p now).AllRegistered := by
  intro q conn hq
  rw [h.registered_admitted hp hfd now]
  by_cases hqp : q = p
  · exact .inl hqp
  · exact .inr (ht q conn ((update_of_ne hqp _ _).symm.trans hq))

end Changes

/-! ## The steps of the loop -/

/-- What holds besides `Loop.Inv`: as long as the process has not failed every live
client is registered, and the entries the end of `main` has been at are `NULL`. -/
structure Loop.Kept (s : Loop) : Prop where
  inv : s.Inv
  registered : s.phase ≠ .failed → s.tables.AllRegistered
  cleanup : ∀ n, s.phase = .cleanup n → ∀ i, i < n → ∀ p, s.tables.clients[i]? ≠ some (some p)
  finished : s.phase = .finished → ∀ p, some p ∉ s.tables.clients

section Steps
variable {s s' : Loop} {a : Action}

theorem hasRoom_of_target (h : s.target a = none) : HasRoom s a := by
  unfold HasRoom
  split
  · cases h
  · trivial

/-- **What a step does to both collections.**  It accepts a client; or, with the same
clients as before, it gives up one at most. -/
theorem Loop.Kept.changes (hs : s.Kept) (h : step a s = some s') :
    (∃ fd p now ctl, a = .accept (.client fd p now) ctl ∧ s.tables.heap p = none ∧
      s.tables.opened fd = none ∧
      (ctl = false ∧ s' = ⟨.failed, s.tables.getNewClient fd p now⟩ ∨
        ctl = true ∧ s'.tables = s.tables.admitted fd p now)) ∨
    HasRoom s a ∧ ∃ t, s.tables.Same t ∧ (s'.tables = t ∨ ∃ p, t.Without p s'.tables) := by
  cases hs.inv.change h with
  | unchanged htables htarget =>
      exact .inr ⟨hasRoom_of_target htarget, s.tables, .refl _, .inl htables⟩
  | stuck => exact .inr ⟨trivial, s.tables, .refl _, .inl rfl⟩
  | @refused fd p now hp hfd => exact .inl ⟨fd, p, now, false, rfl, hp, hfd, .inl ⟨rfl, rfl⟩⟩
  | @admitted fd p now events hp hfd => exact .inl ⟨fd, p, now, true, rfl, hp, hfd, .inr ⟨rfl, rfl⟩⟩
  | @handled recv send ctl flags events p conn c i t' _ hphase hp hevent ht' hinv hend =>
      have hreg := hs.registered (by rw [hphase]; nofun) p conn hp
      have hsame := hs.inv.tables.same hp hreg ht'
      have hp' : t'.heap p = some { conn with client := c } := by
        rcases ht' with rfl | ⟨i, rfl⟩ <;> exact s.tables.setClient_heap p _
      refine .inr ⟨trivial, t', hsame, ?_⟩
      rcases hend with rfl | ⟨-, rfl⟩ | ⟨-, rfl⟩
      · exact .inl rfl
      · exact .inl rfl
      · exact .inr ⟨p, hinv.without_dropped hp'⟩
  | @released a s' p conn i hi hp htables htarget =>
      refine .inr ⟨hasRoom_of_target htarget, s.tables, .refl _, .inr ⟨p, ?_⟩⟩
      rw [htables]
      exact hs.inv.tables.without_swept hi hp

/-- The end of `main` is come to from the loop, and goes from entry to entry. -/
theorem Loop.Inv.cleanup_cases (hs : s.Inv) (h : step a s = some s') :
    s'.phase = .cleanup 0 ∨ (∃ n t, s = ⟨.cleanup n, t⟩ ∧ s' = cleanupClient n t) ∨
      (∀ n, s'.phase ≠ .cleanup n) ∧ s'.phase ≠ .finished := by
  obtain ⟨ready, events, t, rfl, rfl, -, -, rfl⟩ | ⟨t, rfl, rfl, rfl⟩ | ⟨t, rfl, rfl, rfl⟩ |
    ⟨accepted, ctl, flags, events, t, rfl, rfl, haccept⟩ |
    ⟨recv, send, ctl, p, flags, events, t, rfl, rfl, rfl⟩ | ⟨t, rfl, rfl, rfl⟩ |
    ⟨now, i, t, rfl, rfl, rfl⟩ | ⟨n, t, rfl, rfl, rfl⟩ := step_cases h
  · exact .inr (.inr ⟨nofun, nofun⟩)
  · exact .inl rfl
  · exact .inr (.inr ⟨nofun, nofun⟩)
  · obtain ⟨-, rfl⟩ | ⟨fd, p, now, -, -, -, ⟨-, rfl⟩ | ⟨-, rfl⟩⟩ := acceptClient_cases haccept <;>
      exact .inr (.inr ⟨nofun, nofun⟩)
  · obtain ⟨⟨conn, hp⟩, -, -⟩ := (hs.pending rfl).client
    obtain hend | ⟨c, interest, -, t', -, -, hend | ⟨-, hend⟩ | ⟨-, hend⟩⟩ :=
      @handleClient_cases t p flags events recv send ctl conn hs.tables hp <;>
      rw [hend] <;> exact .inr (.inr ⟨nofun, nofun⟩)
  · exact .inr (.inr ⟨nofun, nofun⟩)
  · obtain hsweep | hsweep | ⟨p, conn, -, -, -, hsweep⟩ := @sweepClient_cases t now i hs.tables <;>
      rw [hsweep] <;> exact .inr (.inr ⟨nofun, nofun⟩)
  · exact .inr (.inl ⟨n, t, rfl, rfl⟩)

/-- A round of the end of `main` leaves `NULL` behind. -/
theorem Loop.Kept.cleared {n : Nat} {t : Tables} (hs : Loop.Kept ⟨.cleanup n, t⟩) :
    (∀ m, (cleanupClient n t).phase = .cleanup m →
        ∀ i, i < m → ∀ p, (cleanupClient n t).tables.clients[i]? ≠ some (some p)) ∧
      ((cleanupClient n t).phase = .finished →
      ∀ p, some p ∉ (cleanupClient n t).tables.clients) := by
  have hbefore := hs.cleanup n rfl
  obtain ⟨hn, hclean⟩ | ⟨hn, hclean⟩ | ⟨p, conn, hn, hp, hclean⟩ := @cleanupClient_cases t n
    hs.inv.tables <;> rw [hclean]
  · refine ⟨nofun, fun _ q hq => ?_⟩
    obtain ⟨i, hi, hget⟩ := List.mem_iff_getElem.mp hq
    have hlt : i < n := hi.trans_le (List.getElem?_eq_none_iff.mp hn)
    exact hbefore i hlt q (by rw [List.getElem?_eq_getElem hi, hget])
  · refine ⟨?_, nofun⟩
    rintro m ⟨⟩ i hi q hq
    rcases Nat.lt_succ_iff_lt_or_eq.mp hi with hlt | rfl
    · exact hbefore i hlt q hq
    · rw [hn] at hq
      cases hq
  · refine ⟨?_, nofun⟩
    rintro m ⟨⟩ i hi q hq
    change (t.clients.set n none)[i]? = _ at hq
    rcases Nat.lt_succ_iff_lt_or_eq.mp hi with hlt | rfl
    · rw [List.getElem?_set_ne (Nat.ne_of_gt hlt)] at hq
      exact hbefore i hlt q hq
    · rw [List.getElem?_set_self (List.getElem?_eq_some_iff.mp hn).1] at hq
      cases hq

theorem step_not_failed (h : step a s = some s') : s.phase ≠ .failed := by
  obtain ⟨phase, t⟩ := s
  rintro rfl
  cases a <;> cases h

/-- **A step keeps it.** -/
theorem Loop.Kept.step (hs : s.Kept) (h : step a s = some s') : s'.Kept := by
  have hbefore := hs.registered (step_not_failed h)
  refine ⟨step_inv hs.inv h, fun hphase => ?_, ?_, ?_⟩
  · obtain ⟨fd, p, now, ctl, -, hp, hfd, ⟨-, rfl⟩ | ⟨-, hadmitted⟩⟩ | ⟨-, t, hsame, hend⟩ :=
      hs.changes h
    · exact absurd rfl hphase
    · rw [hadmitted]
      exact hs.inv.tables.allRegistered_admitted hp hfd now hbefore
    · have ht := hsame.allRegistered hbefore
      rcases hend with hend | ⟨p, hwithout⟩
      · rwa [hend]
      · exact hwithout.allRegistered ht
  · intro n hphase i hi
    obtain hzero | ⟨m, t, rfl, rfl⟩ | ⟨hnot, -⟩ := hs.inv.cleanup_cases h
    · rw [hzero] at hphase
      cases hphase
      cases hi
    · exact hs.cleared.1 n hphase i hi
    · exact absurd hphase (hnot n)
  · intro hphase
    obtain hzero | ⟨m, t, rfl, rfl⟩ | ⟨-, hnot⟩ := hs.inv.cleanup_cases h
    · rw [hzero] at hphase
      cases hphase
    · exact hs.cleared.2 hphase
    · exact absurd hphase hnot

/-- **A step keeps both collections together** exactly if there is room for the client it
accepts. -/
theorem Loop.Kept.tracked (hs : s.Kept) (ht : s.tables.Tracked)
    (h : EventServer.step a s = some s') :
    s'.tables.Tracked ↔ HasRoom s a := by
  obtain ⟨fd, p, now, ctl, rfl, hp, hfd, ⟨rfl, rfl⟩ | ⟨rfl, hadmitted⟩⟩ | ⟨hroom, t, hsame, hend⟩ :=
    hs.changes h
  · exact ⟨fun _ => trivial, fun _ => ⟨ht.once, ht.registered⟩⟩
  · rw [hadmitted]
    exact hs.inv.tables.tracked_admitted hp hfd now ht
  · refine ⟨fun _ => hroom, fun _ => ?_⟩
    have htracked := hsame.tracked ht
    rcases hend with hend | ⟨p, hwithout⟩
    · rwa [hend]
    · exact hwithout.tracked htracked

end Steps

/-! ## Runs -/

theorem Loop.Kept.init : Loop.Kept ⟨.running, .init⟩ where
  inv := .init
  registered _ := nofun
  cleanup := nofun
  finished := nofun

theorem Tables.Tracked.init : Tables.Tracked .init := by
  rw [Tables.tracked_iff_stored, Tables.init, Slots.stored_replicate]
  refine ⟨List.nodup_nil, fun p => iff_of_false (List.not_mem_nil) ?_⟩
  rintro ⟨fd, i, hfd⟩
  cases hfd

theorem eventLoop_kept {past : List (Loop × Action)} {s : Loop} (h : eventLoop.Run past s) :
    s.Kept := by
  refine h.invariant (I := fun _ s => s.Kept) (fun s hs => ?_) fun past s a s' hI hs => hI.step hs
  obtain rfl : s = _ := hs
  exact .init

/-- All along the run `clients[]` holds the clients that are registered, and every client
that is connected; and none is left when `main` ends. -/
structure EveryClientTracked (past : List (Loop × Action)) (s : Loop) : Prop where
  tracked : System.Always (fun s => s.tables.Tracked) past s
  swept : s.phase ≠ .failed → ∀ p conn, s.tables.heap p = some conn → some p ∈ s.tables.clients
  released : s.phase = .finished → ∀ p, s.tables.heap p = none

/-- **Every client is tracked**, in any run, exactly if `clients[]` has room whenever a
client is accepted. -/
theorem tracked_iff {past : List (Loop × Action)} {s : Loop} (h : eventLoop.Run past s) :
    EveryClientTracked past s ↔ ∀ x ∈ past, HasRoom x.1 x.2 := by
  have hkept := eventLoop_kept h
  have halways : System.Always (fun s : Loop => s.tables.Tracked) past s ↔ _ :=
    h.always_iff (I := Loop.Kept) (P := HasRoom)
      (fun s hs => by
        obtain rfl : s = _ := hs
        exact ⟨.init, .init⟩)
      (fun a s s' hI hs => hI.step hs) fun a s s' hI hQ hs => hI.tracked hQ hs
  refine ⟨fun hall => halways.mp hall.tracked, fun hroom => ?_⟩
  have htracked := halways.mpr hroom
  have hswept : s.phase ≠ .failed → ∀ p conn, s.tables.heap p = some conn →
      some p ∈ s.tables.clients :=
    fun hphase p conn hp => (htracked.2.registered p).mpr (hkept.registered hphase p conn hp)
  refine ⟨htracked, hswept, fun hphase p => ?_⟩
  cases hp : s.tables.heap p with
  | none => rfl
  | some conn =>
      exact absurd (hswept (by rw [hphase]; nofun) p conn hp) (hkept.finished hphase p)

/-- A client connects, and is tracked. -/
theorem one_tracked : ∃ past s, eventLoop.Run past s ∧ EveryClientTracked past s ∧
    some 64 ∈ s.tables.clients := by
  have hwait : eventLoop.Run _ ⟨.handling [⟨.server, ⟨true, false, false⟩⟩], .init⟩ :=
    eventLoop_step (.wait [(none, ⟨true, false, false⟩)]) (.start rfl) rfl
  have haccept : eventLoop.Run _ ⟨.handling [], Tables.init.admitted 4 64 0⟩ :=
    eventLoop_step (.accept (.client 4 64 0) true) hwait rfl
  refine ⟨_, _, haccept, (tracked_iff haccept).mpr fun x hx => ?_, List.mem_cons_self⟩
  rcases List.mem_cons.mp hx with rfl | hx
  · trivial
  · obtain rfl := List.mem_singleton.mp hx
    exact List.mem_cons_self

/-! ## A client that is not tracked

One client more than `clients[]` has entries is served, and never swept. -/

section Crowd
variable {t : Tables}

theorem sweep_through {past : List (Loop × Action)} (now : Int) (ht : t.Inv)
    (hactive : ∀ p conn, t.heap p = some conn → (now - conn.client.lastActive) * 1000 < expireTime)
    (i : Nat) (h : eventLoop.Run past ⟨.sweeping i, t⟩) :
    ∃ past, eventLoop.Run past ⟨.running, t⟩ := by
  -- on the number of entries that are left
  induction hleft : t.clients.length - i generalizing i past with
  | zero =>
      have hend : t.clients[i]? = none :=
        List.getElem?_eq_none_iff.mpr (Nat.le_of_sub_eq_zero hleft)
      refine ⟨_, eventLoop_step (.sweep now) h ?_⟩
      show some (sweepClient now i t) = _
      rw [sweepClient, hend]
  | succ left ih =>
      have hlt : i < t.clients.length := by omega
      refine ih (i + 1) (eventLoop_step (.sweep now) h ?_) (by omega)
      show some (sweepClient now i t) = _
      obtain hnone | ⟨p, hp⟩ : t.clients[i]? = some none ∨ ∃ p, t.clients[i]? = some (some p) := by
        rw [List.getElem?_eq_getElem hlt]
        cases t.clients[i] with
        | none => exact .inl rfl
        | some p => exact .inr ⟨p, rfl⟩
      · rw [sweepClient, hnone]
      · obtain ⟨conn, hconn⟩ := ht.clients (Slots.mem_stored.mpr (List.mem_of_getElem? hp))
        simp only [sweepClient, hp, hconn, if_neg (Int.not_le.mpr (hactive p conn hconn))]

/-- `n` clients, accepted one after the other. -/
def crowd : Nat → Tables
  | 0 => .init
  | n + 1 => (crowd n).admitted n n 0

theorem crowd_heap {n p : Nat} (h : n ≤ p) : (crowd n).heap p = none ∧
    (crowd n).opened p = none := by
  induction n with
  | zero => exact ⟨rfl, rfl⟩
  | succ n ih =>
      obtain ⟨hheap, hopened⟩ := ih (Nat.le_of_succ_le h)
      have hne : p ≠ n := Nat.ne_of_gt h
      exact ⟨(update_of_ne hne _ _).trans hheap, (update_of_ne hne _ _).trans hopened⟩

theorem crowd_active {n p : Nat} {conn : Conn} (h : (crowd n).heap p = some conn) :
    conn.client.lastActive = 0 := by
  induction n with
  | zero => cases h
  | succ n ih =>
      simp only [crowd, Tables.admitted, Tables.register, Tables.getNewClient, update_apply] at h
      split at h
      · cases h
        rfl
      · exact ih h

theorem crowd_live {n p : Nat} (h : p < n) : ∃ conn, (crowd n).heap p = some conn := by
  induction n with
  | zero => cases h
  | succ n ih =>
      by_cases hpn : p = n
      · rw [hpn]
        exact ⟨_, update_self _ _ _⟩
      · obtain ⟨conn, hconn⟩ := ih (by omega)
        exact ⟨conn, (update_of_ne hpn _ _).trans hconn⟩

theorem length_crowd_clients (n : Nat) : (crowd n).clients.length = maxClients := by
  induction n with
  | zero => exact List.length_replicate
  | succ n ih => exact (Slots.length_insert _ _).trans ih

theorem crowd_run (n : Nat) : ∃ past, eventLoop.Run past ⟨.running, crowd n⟩ := by
  induction n with
  | zero => exact ⟨[], .start rfl⟩
  | succ n ih =>
      obtain ⟨past, hrun⟩ := ih
      have hwait : eventLoop.Run _ ⟨.handling [⟨.server, ⟨true, false, false⟩⟩], crowd n⟩ :=
        eventLoop_step (.wait [(none, ⟨true, false, false⟩)]) hrun rfl
      obtain ⟨hheap, hopened⟩ := crowd_heap (Nat.le_refl n)
      have hfree : acceptClient (.client n n 0) true [] (crowd n)
          = some ⟨.handling [], crowd (n + 1)⟩ := by
        simp only [acceptClient, hheap, hopened]
        rfl
      have haccept : eventLoop.Run _ ⟨.handling [], crowd (n + 1)⟩ :=
        eventLoop_step (.accept (.client n n 0) true) hwait hfree
      have hswept : eventLoop.Run _ ⟨.sweeping 0, crowd (n + 1)⟩ :=
        eventLoop_step .endBatch haccept rfl
      refine sweep_through 0 (eventLoop_inv hswept).tables (fun p conn hp => ?_) 0 hswept
      rw [crowd_active hp]
      decide

theorem crowd_not_tracked {n : Nat} (hn : maxClients < n) : ¬ (crowd n).Tracked := by
  intro ht
  obtain ⟨past, hrun⟩ := crowd_run n
  have hsub : List.range n ⊆ Slots.stored (crowd n).clients := by
    intro p hp
    obtain ⟨conn, hconn⟩ := crowd_live (List.mem_range.mp hp)
    have hreg : (crowd n).Registered p := (eventLoop_kept hrun).registered nofun p conn hconn
    exact Slots.mem_stored.mpr ((ht.registered p).mpr hreg)
  have hle : n ≤ maxClients := by
    calc n = (List.range n).length := List.length_range.symm
      _ ≤ (Slots.stored (crowd n).clients).length :=
          (List.subperm_of_subset List.nodup_range hsub).length_le
      _ ≤ (crowd n).clients.length := Slots.length_stored_le _
      _ = maxClients := length_crowd_clients n
  exact absurd hle (Nat.not_le.mpr hn)

end Crowd

/-- With one client more than `MAX_CLIENTS`, one is registered and not in `clients[]`. -/
theorem crowd_untracked : ¬ ∀ past s, eventLoop.Run past s →
    (Slots.stored s.tables.clients).Nodup ∧
      ∀ p, some p ∈ s.tables.clients ↔ ∃ fd i, s.tables.epoll fd = some (p, i) := by
  intro hall
  obtain ⟨past, hrun⟩ := crowd_run (maxClients + 1)
  have hboth := hall past _ hrun
  exact crowd_not_tracked (Nat.lt_succ_self _) ⟨hboth.1, hboth.2⟩

end InternetLabs.EventServer
