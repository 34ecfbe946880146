/-
# `InternetLabs.Csapp.SelectRuns` — rounds and runs of the echo server on `select`

**The invariant** (`Server.Inv`) says that the slots, the descriptor set and the open connections
are the same.  The loop over the clients counts those that are ready and not yet served
(`Checking`). `select_pool` draws from it that the server never finds its pool full,
`select_round` that a round that returns has served all that are ready, and `select_echoes` what
each client gets back.
-/
import InternetLabs.Csapp.Select

namespace InternetLabs.Csapp.Select

open InternetLabs

/-! ## The loop over the clients

The loop stops when `nready` clients have been served; by then it has come to all that
are ready. -/

/-- The open connections are those of the pool, and accounted for. -/
structure Server.Inv (listenfd : Nat) (s : Server) : Prop where
  pool : s.pool.Inv listenfd
  net : ∀ fd, fd ∈ Slots.stored s.pool.clientfd ↔ ∃ conn, s.net fd = some conn
  conns : ∀ fd conn, s.net fd = some conn → conn.Accounted

/-- What has been closed had come to its end, and what has been printed is what has been counted. -/
structure Server.Past (s : Server) : Prop where
  closed : ∀ x ∈ s.closed, x.2.Accounted ∧ x.2.fd.incoming = []
  byteCnt : s.byteCnt = total s.printed
  totals : RunningTotals s.printed

/-- One client has been served: it has got one line back, or it had nothing more to send and is
closed. -/
def ServedOnce (fd : Nat) (s s' : Server) : Prop := ∃ conn conn', s.net fd = some conn ∧
  (s'.net fd = some conn' ∧ conn.Echoes conn' ∨
    s'.net fd = none ∧ (fd, conn') ∈ s'.closed ∧ conn.Ends conn')

/-- These clients have been served, and no others. -/
structure ServedAll (fds : List Nat) (s s' : Server) : Prop where
  served : ∀ fd ∈ fds, ServedOnce fd s s'
  others : ∀ fd, fd ∉ fds → s'.net fd = s.net fd
  closed : s.closed <+: s'.closed

/-- Why the program has stopped: the calls for a connection fail, or there is no room for one line
more in the counter. -/
inductive Halts (s s' : Server) : Prop
  | exited (h : s'.phase = .exited) (fd : Nat) (conn : Conn) (hconn : s.net fd = some conn)
      (hbad : ¬ (conn.start.ReadsQuiet ∧ conn.start.WritesQuiet))
  | overflow (h : s'.phase = .overflow) (hcnt : 2 ^ 31 ≤ s'.byteCnt + maxline)

theorem ServedAll.refl (s : Server) : ServedAll [] s s :=
  ⟨fun _ h => (List.not_mem_nil h).elim, fun _ _ => rfl, List.prefix_refl _⟩

theorem ServedAll.append {l l' : List Nat} {s s₁ s' : Server} (h : ServedAll l s s₁)
    (h' : ServedAll l' s₁ s') (hnodup : (l ++ l').Nodup) : ServedAll (l ++ l') s s' := by
  have hdisj := (List.nodup_append'.mp hnodup).2.2
  refine ⟨fun fd hfd => ?_, fun fd hfd => ?_, h.closed.trans h'.closed⟩
  · obtain hfd | hfd := List.mem_append.mp hfd
    · obtain ⟨conn, conn', hconn, hend⟩ := h.served fd hfd
      have hkept := h'.others fd (hdisj hfd)
      refine ⟨conn, conn', hconn,
        hend.imp (fun hecho => ⟨hkept.trans hecho.1, hecho.2⟩) fun hclose => ?_⟩
      exact ⟨hkept.trans hclose.1, h'.closed.subset hclose.2.1, hclose.2.2⟩
    · obtain ⟨conn, conn', hconn, hend⟩ := h'.served fd hfd
      exact ⟨conn, conn', (h.others fd fun hmem => hdisj hmem hfd).symm.trans hconn, hend⟩
  · obtain ⟨hl, hl'⟩ := not_or.mp fun hor => hfd (List.mem_append.mpr hor)
    exact (h'.others fd hl').trans (h.others fd hl)

/-- A connection that is open was so before, from the same start. -/
theorem ServedAll.start {l : List Nat} {s s' : Server} (h : ServedAll l s s') {fd : Nat}
    {conn' : Conn} (hconn : s'.net fd = some conn') :
    ∃ conn, s.net fd = some conn ∧ conn'.start = conn.start := by
  by_cases hfd : fd ∈ l
  · obtain ⟨conn, conn₁, hbefore, ⟨hafter, hecho⟩ | ⟨hafter, -⟩⟩ := h.served fd hfd
    · obtain rfl := Option.some.inj (hafter.symm.trans hconn)
      exact ⟨conn, hbefore, hecho.start⟩
    · rw [hafter] at hconn
      cases hconn
  · exact ⟨conn', (h.others fd hfd).symm.trans hconn, rfl⟩

theorem Halts.before {l : List Nat} {s s₁ s' : Server} (h : ServedAll l s s₁) (hh : Halts s₁ s') :
    Halts s s' := by
  cases hh with
  | exited hphase fd conn hconn hbad =>
      obtain ⟨conn₀, hconn₀, hstart⟩ := h.start hconn
      exact .exited hphase fd conn₀ hconn₀ (hstart ▸ hbad)
  | overflow hphase hcnt => exact .overflow hphase hcnt

section Loop
variable {listenfd i connfd : Nat} {conn : Conn} {s s' : Server}

/-- A line more has been counted. -/
theorem Server.Past.count (h : s.Past) (n : Nat) :
    s.byteCnt + n = total (s.printed ++ [(n, s.byteCnt + n)]) ∧
      RunningTotals (s.printed ++ [(n, s.byteCnt + n)]) := by
  have hcnt : s.byteCnt + n = (total s.printed + n : Nat) := by
    rw [h.byteCnt, Nat.cast_add]
  refine ⟨?_, h.totals.concat ?_⟩
  · rw [total_concat, hcnt]
  · rw [hcnt, Nat.cast_add]

theorem Serves.past (h : Serves i connfd conn s s') (hconn : conn.Accounted) (hpast : s.Past) :
    s'.Past := by
  obtain ⟨hcnt, htotals⟩ := hpast.count conn.nextLine.length
  cases h with
  | closes conn' hends =>
      refine ⟨fun x hx => ?_, hpast.byteCnt, hpast.totals⟩
      obtain hx | hx := List.mem_append.mp hx
      · exact hpast.closed x hx
      · obtain rfl := List.mem_singleton.mp hx
        exact ⟨hconn.ends hends, hends.atEnd.2⟩
  | echoes | breaks => exact ⟨hpast.closed, hcnt, htotals⟩
  | exits | overflows => exact ⟨hpast.closed, hpast.byteCnt, hpast.totals⟩

theorem Serves.halts (h : Serves i connfd conn s s') (hnet : s.net connfd = some conn)
    (hconn : conn.Accounted) (hstop : s'.phase ≠ s.phase) : Halts s s' := by
  have hbad : ¬ conn.Quiet → ¬ (conn.start.ReadsQuiet ∧ conn.start.WritesQuiet) :=
    fun hnot hquiet => hnot (hconn.quiet hquiet.1 hquiet.2)
  cases h with
  | closes | echoes => exact (hstop rfl).elim
  | exits _ hnot => exact .exited rfl connfd conn hnet (hbad hnot)
  | breaks _ hnot => exact .exited rfl connfd conn hnet (hbad hnot)
  | overflows _ hcnt =>
      have hlen : conn.nextLine.length ≤ maxline - 1 := length_lineOf_le _ _
      refine .overflow rfl ?_
      dsimp only
      have : (conn.nextLine.length : Int) ≤ maxline := by omega
      exact hcnt.trans (Int.add_le_add_left this _)

/-- Where the program goes on, the client has been served, and the others wait as before. -/
structure Served (listenfd i connfd : Nat) (s s' : Server) : Prop where
  inv : s'.Inv listenfd
  once : ServedAll [connfd] s s'
  waiting : s'.pool.waiting (i + 1) = s.pool.waiting (i + 1)
  maxi : s'.pool.maxi = s.pool.maxi
  nready : s'.pool.nready = s.pool.nready - 1

theorem Serves.served (h : Serves i connfd conn s s') (hinv : s.Inv listenfd)
    (hslot : s.pool.clientfd[i]? = some (some connfd)) (hnet : s.net connfd = some conn)
    (hgo : s'.phase = .running) : Served listenfd i connfd s s' := by
  have hconn := hinv.conns connfd conn hnet
  cases h with
  | closes conn' hends =>
      have hperm := Slots.stored_set hslot
      have hnot := (List.nodup_cons.mp (hperm.nodup_iff.mp hinv.pool.nodup)).1
      refine ⟨⟨(hinv.pool.counts _ _).remove hslot, fun fd => ?_, fun fd c hfd => ?_⟩,
        ⟨fun fd hfd => ?_, fun fd hfd => ?_, List.prefix_append _ _⟩, ?_, rfl, rfl⟩
      · dsimp only [removeClient, Server.countDown]
        by_cases heq : fd = connfd
        · subst heq
          rw [Function.update_self]
          exact ⟨fun hmem => (hnot hmem).elim, fun ⟨_, hnone⟩ => by cases hnone⟩
        · rw [Function.update_of_ne heq, ← hinv.net fd, hperm.mem_iff, List.mem_cons,
            or_iff_right heq]
      · dsimp only [removeClient, Server.countDown] at hfd
        by_cases heq : fd = connfd
        · rw [heq, Function.update_self] at hfd
          cases hfd
        · rw [Function.update_of_ne heq] at hfd
          exact hinv.conns fd c hfd
      · obtain rfl := List.mem_singleton.mp hfd
        exact ⟨conn, conn', hnet, .inr ⟨Function.update_self ..,
          List.mem_append_right _ (List.mem_singleton_self _), hends⟩⟩
      · exact Function.update_of_ne (fun heq => hfd (List.mem_singleton.mpr heq)) _ _
      · dsimp only [Pool.waiting, removeClient, Server.countDown]
        rw [List.drop_set_of_lt (Nat.lt_succ_self i)]
  | echoes conn' hecho hcnt =>
      refine ⟨⟨hinv.pool.counts _ _, fun fd => ?_, fun fd c hfd => ?_⟩, ⟨fun fd hfd => ?_,
        fun fd hfd => ?_, List.prefix_refl _⟩, rfl, rfl, rfl⟩
      · dsimp only [Server.countDown]
        by_cases heq : fd = connfd
        · subst heq
          rw [Function.update_self]
          exact ⟨fun _ => ⟨conn', rfl⟩, fun _ => Pool.mem_of_slot hslot⟩
        · rw [Function.update_of_ne heq]
          exact hinv.net fd
      · dsimp only at hfd
        by_cases heq : fd = connfd
        · rw [heq, Function.update_self] at hfd
          obtain rfl := Option.some.inj hfd
          exact hconn.echoes hecho
        · rw [Function.update_of_ne heq] at hfd
          exact hinv.conns fd c hfd
      · obtain rfl := List.mem_singleton.mp hfd
        exact ⟨conn, conn', hnet, .inl ⟨Function.update_self .., hecho⟩⟩
      · exact Function.update_of_ne (fun heq => hfd (List.mem_singleton.mpr heq)) _ _
  | exits | breaks | overflows => cases hgo

/-- The clients that are still to be served are those that are counted. -/
structure Checking (listenfd i : Nat) (s : Server) : Prop where
  phase : s.phase = .running
  inv : s.Inv listenfd
  past : s.Past
  nready : s.pool.nready = (s.pool.waiting i).length

theorem checkClient_spec (h : Checking listenfd i s) (hi : i < fdSetsize) :
    ∃ s', checkClient i s = some s' ∧ s'.Past ∧ (Halts s s' ∨ ∃ l, Checking listenfd (i + 1) s' ∧
      s'.pool.maxi = s.pool.maxi ∧ ServedAll l s s' ∧
      s.pool.waiting i = l ++ s'.pool.waiting (i + 1)) := by
  obtain ⟨hphase, hinv, hpast, hnready⟩ := h
  obtain ⟨slot, hslot⟩ : ∃ slot, s.pool.clientfd[i]? = some slot :=
    ⟨_, List.getElem?_eq_getElem (hi.trans_eq hinv.pool.size.symm)⟩
  cases slot with
  | none =>
      have hwait := Pool.waiting_of_slot hslot
      refine ⟨s, by simp only [checkClient, hslot], hpast, .inr ⟨[], ⟨hphase, hinv, hpast, ?_⟩, rfl,
        .refl s, hwait⟩⟩
      rw [hnready, hwait]
      rfl
  | some connfd =>
      have hwait := Pool.waiting_of_slot hslot
      have hmem := Pool.mem_of_slot hslot
      have hpos := (hinv.pool.range connfd hmem).1
      rw [Option.toList_some, List.filter_singleton] at hwait
      by_cases hready : connfd ∈ s.pool.readySet
      swap
      · rw [decide_eq_false hready] at hwait
        refine ⟨s, by simp only [checkClient, hslot, hready, and_false, if_false], hpast,
          .inr ⟨[], ⟨hphase, hinv, hpast, ?_⟩, rfl, .refl s, hwait⟩⟩
        rw [hnready, hwait]
        rfl
      rw [decide_eq_true hready] at hwait
      obtain ⟨conn, hnet⟩ := (hinv.net connfd).mp hmem
      obtain ⟨s', hserve, hs⟩ := serveClient_cases hnet (hinv.pool.rio i connfd hslot)
      have hrun : checkClient i s = some s' := by
        simp only [checkClient, hslot, hpos, hready, and_self, if_true, hserve]
      have hconn := hinv.conns connfd conn hnet
      have hpast' := hs.past hconn hpast
      refine ⟨s', hrun, hpast', ?_⟩
      by_cases hgo : s'.phase = .running
      · have hone := hs.served hinv hslot hnet hgo
        refine .inr ⟨[connfd], ⟨hgo, hone.inv, hpast', ?_⟩, hone.maxi, hone.once, ?_⟩
        · rw [hone.nready, hnready, hone.waiting, hwait]
          simp
        · rw [hone.waiting]
          exact hwait
      · exact .inl (hs.halts hnet hconn fun heq => hgo (heq.trans hphase))

theorem checkFrom_spec {k : Nat} (h : Checking listenfd i s) (hk : (k : Int) = s.pool.maxi + 1 - i ∨
    k = 0 ∧ s.pool.maxi < i) :
    ∃ s', checkFrom k i s = some s' ∧ s'.Past ∧
    (Halts s s' ∨ s'.phase = .running ∧ s'.Inv listenfd ∧
      s'.pool.nready = 0 ∧ ServedAll (s.pool.waiting i) s s') := by
  induction k generalizing i s with
  | zero =>
      have hnil := h.inv.pool.waiting_eq_nil (i := i) (by omega)
      refine ⟨s, rfl, h.past, .inr ⟨h.phase, h.inv, ?_, ?_⟩⟩
      · rw [h.nready, hnil]
        rfl
      · rw [hnil]
        exact .refl s
  | succ k ih =>
      by_cases hready : 0 < s.pool.nready
      swap
      · have hnil : s.pool.waiting i = [] := by
          rw [← List.length_eq_zero_iff]
          have := h.nready
          omega
        refine ⟨s, by rw [checkFrom, if_neg fun hand => hready hand.2], h.past,
          .inr ⟨h.phase, h.inv, ?_, ?_⟩⟩
        · rw [h.nready, hnil]
          rfl
        · rw [hnil]
          exact .refl s
      have hbound := h.inv.pool.bound
      obtain ⟨s₁, hone, hpast, hends⟩ := checkClient_spec h (by omega)
      have hrun : checkFrom (k + 1) i s = checkFrom k (i + 1) s₁ := by
        rw [checkFrom, if_pos ⟨h.phase, hready⟩, hone, Option.bind_some]
      obtain hhalts | ⟨l, hnext, hmaxi, hserved, hsplit⟩ := hends
      · have hstop : s₁.phase ≠ .running := by
          cases hhalts with
          | exited hphase => rw [hphase]; decide
          | overflow hphase => rw [hphase]; decide
        refine ⟨s₁, ?_, hpast, .inl hhalts⟩
        rw [hrun]
        cases k with
        | zero => rfl
        | succ k => rw [checkFrom, if_neg fun hand => hstop hand.1]
      · obtain ⟨s', hrest, hpast', hends⟩ := ih hnext (by omega)
        refine ⟨s', hrun.trans hrest, hpast', ?_⟩
        obtain hhalts | ⟨hgo, hinv', hzero, hserved'⟩ := hends
        · exact .inl (hhalts.before hserved)
        · refine .inr ⟨hgo, hinv', hzero, ?_⟩
          rw [hsplit]
          refine hserved.append hserved' ?_
          rw [← hsplit]
          have hsub : (Slots.stored (s.pool.clientfd.drop i)).Sublist
              (Slots.stored s.pool.clientfd) := (List.drop_sublist i s.pool.clientfd).filterMap id
          exact (hsub.nodup h.inv.pool.nodup).filter _

end Loop

/-! ## One round -/

section Round
variable {listenfd : Nat} {e : Event} {s s' : Server}

theorem Pool.Inv.mem_waiting {p : Pool} (h : p.Inv listenfd) (hready : p.readySet ⊆ p.readSet)
    {fd : Nat} : fd ∈ p.waiting 0 ↔ fd ∈ p.readySet ∧ fd ≠ listenfd := by
  rw [Pool.waiting, List.drop_zero, List.mem_filter, decide_eq_true_iff]
  constructor
  · rintro ⟨hmem, hfd⟩
    exact ⟨hfd, (h.range fd hmem).2.2⟩
  · rintro ⟨hfd, hne⟩
    exact ⟨((h.readSet fd).mp (hready hfd)).resolve_left hne, hfd⟩

theorem Pool.Inv.length_waiting {p : Pool} (h : p.Inv listenfd) (hready : p.readySet ⊆ p.readSet) :
    (p.waiting 0).length = (p.readySet.erase listenfd).card := by
  have hnodup : (p.waiting 0).Nodup := by
    rw [Pool.waiting, List.drop_zero]
    exact h.nodup.filter _
  rw [← List.toFinset_card_of_nodup hnodup]
  congr 1
  ext fd
  rw [List.mem_toFinset, h.mem_waiting hready, Finset.mem_erase, and_comm]

theorem addClient_cases (h : s.pool.Inv listenfd) (connfd : Nat) :
    ∃ i, s.pool.clientfd[i]? = some none ∧ addClient connfd s =
      if connfd < fdSetsize then
        { s.countDown with pool := (s.countDown.pool.put i connfd).mark i connfd }
      else { s.countDown with pool := s.countDown.pool.put i connfd, phase := .outside } := by
  obtain ⟨i, hfind, hslot⟩ := h.exists_free
  exact ⟨i, hslot, by simp only [addClient, Server.countDown, hfind]⟩

theorem ServedAll.congr {l : List Nat} {t : Server} (h : ServedAll l t s') (hnet : t.net = s.net)
    (hclosed : t.closed = s.closed) : ServedAll l s s' := by
  refine ⟨fun fd hfd => ?_, fun fd hfd => ?_, hclosed ▸ h.closed⟩
  · obtain ⟨conn, conn', hconn, hend⟩ := h.served fd hfd
    exact ⟨conn, conn', hnet ▸ hconn, hend⟩
  · rw [← hnet]
    exact h.others fd hfd

/-- The connections once `Accept` has returned. -/
def Server.opened (listenfd : Nat) (e : Event) (s : Server) : Server :=
  if listenfd ∈ e.ready then s.accept e.connfd e.fd else s

/-- `Accept` returns a descriptor that is too large for the set. -/
def Event.Beyond (listenfd : Nat) (e : Event) : Prop := listenfd ∈ e.ready ∧ fdSetsize ≤ e.connfd

theorem Event.Legit.subset (h : e.Legit listenfd s) : e.ready ⊆ s.pool.readSet :=
  fun fd hfd => (h.ready fd hfd).1

/-- What a round comes to that has not gone beyond the set. -/
structure RoundEnds (listenfd : Nat) (e : Event) (s s' : Server) : Prop where
  past : s'.Past
  ends : Halts (s.opened listenfd e) s' ∨ s'.phase = .running ∧ s'.Inv listenfd ∧
    s'.pool.nready = 0 ∧ ∃ l, (∀ fd, fd ∈ l ↔ fd ∈ e.ready ∧ fd ≠ listenfd) ∧
      ServedAll l (s.opened listenfd e) s'

theorem checkClients_spec {t : Server} (ht : Checking listenfd 0 t)
    (hready : t.pool.readySet = e.ready) (hmem : t.pool.readySet ⊆ t.pool.readSet)
    (hnet : t.net = (s.opened listenfd e).net) (hclosed : t.closed = (s.opened listenfd e).closed) :
    ∃ s', checkClients t = some s' ∧ RoundEnds listenfd e s s' := by
  obtain ⟨s', hrun, hpast', hends⟩ := checkFrom_spec ht (k := (t.pool.maxi + 1).toNat) (by omega)
  refine ⟨s', hrun, hpast', ?_⟩
  obtain hhalts | ⟨hgo, hinv', hzero, hserved⟩ := hends
  · exact .inl (hhalts.before ((ServedAll.refl t).congr hnet hclosed))
  · refine .inr ⟨hgo, hinv', hzero, t.pool.waiting 0, fun fd => ?_, hserved.congr hnet hclosed⟩
    rw [ht.inv.pool.mem_waiting hmem, hready]

theorem Server.Inv.checking (hphase : s.phase = .running) (hinv : s.Inv listenfd) (hpast : s.Past)
    {ready : Finset Nat} (hsub : ready ⊆ s.pool.readSet) (hlisten : listenfd ∉ ready) :
    Checking listenfd 0 (s.select ready) := by
  have hpool : (s.select ready).pool.Inv listenfd := hinv.pool.counts ready ready.card
  refine ⟨hphase, ⟨hpool, hinv.net, hinv.conns⟩, ⟨hpast.closed, hpast.byteCnt, hpast.totals⟩, ?_⟩
  rw [hpool.length_waiting hsub]
  dsimp only [Server.select]
  rw [Finset.erase_eq_of_notMem hlisten]

/-- A new connection is not counted any more once it is in the pool. -/
theorem Event.Legit.checking (hlegit : e.Legit listenfd s) (hphase : s.phase = .running)
    (hinv : s.Inv listenfd) (hpast : s.Past) (hlisten : listenfd ∈ e.ready)
    (hlt : e.connfd < fdSetsize) {i : Nat} (hslot : s.pool.clientfd[i]? = some none) {t : Server}
    (ht : t = (s.select e.ready).accept e.connfd e.fd) :
    Checking listenfd 0
      { t.countDown with pool := (t.countDown.pool.put i e.connfd).mark i e.connfd } := by
  subst ht
  obtain ⟨hpos, hne, hnew⟩ := hlegit.accepted hlisten
  have hout : e.connfd ∉ Slots.stored s.pool.clientfd := by
    intro hmem
    obtain ⟨conn, hconn⟩ := (hinv.net e.connfd).mp hmem
    rw [hnew] at hconn
    cases hconn
  have hput := (hinv.pool.counts e.ready (e.ready.card - 1)).put hslot hpos hlt hne hout
  have hperm := Slots.stored_set_some e.connfd hslot
  refine ⟨hphase, ⟨hput, fun fd => ?_, fun fd conn hfd => ?_⟩,
    ⟨hpast.closed, hpast.byteCnt, hpast.totals⟩, ?_⟩
  · refine (hperm.mem_iff.trans List.mem_cons).trans ?_
    dsimp only [Server.countDown, Server.accept, Server.select]
    by_cases heq : fd = e.connfd
    · rw [heq, Function.update_self]
      exact ⟨fun _ => ⟨_, rfl⟩, fun _ => .inl rfl⟩
    · rw [Function.update_of_ne heq, or_iff_right heq]
      exact hinv.net fd
  · dsimp only [Server.countDown, Server.accept, Server.select] at hfd
    by_cases heq : fd = e.connfd
    · rw [heq, Function.update_self] at hfd
      obtain rfl := Option.some.inj hfd
      exact .of_start e.fd
    · rw [Function.update_of_ne heq] at hfd
      exact hinv.conns fd conn hfd
  · refine Eq.trans ?_ (congrArg Nat.cast (hput.length_waiting
      (hlegit.subset.trans (Finset.subset_insert _ _))).symm)
    change ((e.ready.card : Int) - 1) = ((e.ready.erase listenfd).card : Int)
    rw [Finset.card_erase_of_mem hlisten]
    have := Finset.card_pos.mpr ⟨listenfd, hlisten⟩
    omega

/-- **One round**, once what it reads has come in: it has served all the clients that are ready, or
the program stops. -/
theorem round_spec (hphase : s.phase = .running) (hinv : s.Inv listenfd) (hpast : s.Past)
    (hlegit : e.Legit listenfd s) :
    ∃ s', round listenfd e s = some s' ∧
      (e.Beyond listenfd ∧ s'.phase = .outside ∧ s'.Past ∨
        ¬ e.Beyond listenfd ∧ RoundEnds listenfd e s s') := by
  by_cases hlisten : listenfd ∈ e.ready
  swap
  · have hopened : s.opened listenfd e = s := if_neg hlisten
    obtain ⟨s', hrun, hends⟩ := checkClients_spec (s := s) (e := e)
      (Server.Inv.checking hphase hinv hpast hlegit.subset hlisten) rfl hlegit.subset
      (by rw [hopened]; rfl) (by rw [hopened]; rfl)
    exact ⟨s', by rw [round, if_neg hlisten]; exact hrun, .inr ⟨fun hand => hlisten hand.1, hends⟩⟩
  have hopened : s.opened listenfd e = s.accept e.connfd e.fd := if_pos hlisten
  obtain ⟨i, hslot, hadd⟩ := addClient_cases (s := (s.select e.ready).accept e.connfd e.fd)
    (hinv.pool.counts e.ready e.ready.card) e.connfd
  have hround : round listenfd e s
      = checkClients (addClient e.connfd ((s.select e.ready).accept e.connfd e.fd)) := by
    rw [round, if_pos hlisten]
  rw [hadd] at hround
  by_cases hlt : e.connfd < fdSetsize
  · rw [if_pos hlt] at hround
    obtain ⟨s', hrun, hends⟩ := checkClients_spec (s := s) (e := e)
      (hlegit.checking hphase hinv hpast hlisten hlt hslot rfl) rfl
      (hlegit.subset.trans (Finset.subset_insert _ _)) (by rw [hopened]; rfl) (by rw [hopened]; rfl)
    exact ⟨s', hround.trans hrun, .inr ⟨fun hand => Nat.not_le_of_lt hlt hand.2, hends⟩⟩
  · rw [if_neg hlt] at hround
    have hstop : ∀ (k i : Nat) (t : Server), t.phase = .outside → checkFrom k i t = some t := by
      intro k i t ht
      cases k with
      | zero => rfl
      | succ k => rw [checkFrom, if_neg fun hand => by rw [ht] at hand; cases hand.1]
    exact ⟨_, hround.trans (hstop _ _ _ rfl), .inl ⟨⟨hlisten, Nat.le_of_not_lt hlt⟩, rfl,
      ⟨hpast.closed, hpast.byteCnt, hpast.totals⟩⟩⟩

end Round

/-! ## Runs

What each connection has come to, in runs of any number of rounds. -/

/-- `Accept` has returned this socket. -/
def Accepted (listenfd : Nat) (past : List (Server × Action)) (fd : Socket) : Prop :=
  ∃ x ∈ past, ∃ e, x.2 = .round e ∧ listenfd ∈ e.ready ∧ e.fd = fd

/-- In some round `Accept` has returned a descriptor that is too large. -/
def WentBeyond (listenfd : Nat) (past : List (Server × Action)) : Prop :=
  ∃ x ∈ past, ∃ e, x.2 = .round e ∧ e.Beyond listenfd

/-- A call has failed: `Select` or `Accept`, or one for a connection. -/
def CallFailed (listenfd : Nat) (past : List (Server × Action)) : Prop :=
  (∃ x ∈ past, x.2 = .fail) ∨
    ∃ fd, Accepted listenfd past fd ∧ ¬ (fd.ReadsQuiet ∧ fd.WritesQuiet)

/-- The server has come here by `past`. -/
structure Reached (listenfd : Nat) (past : List (Server × Action)) (s : Server) : Prop where
  counted : s.Past
  room : s.phase ≠ .tooMany
  outside : s.phase = .outside ↔ WentBeyond listenfd past
  running : s.phase = .running → s.Inv listenfd ∧
    ∀ fd conn, s.net fd = some conn → Accepted listenfd past conn.start
  exited : s.phase = .exited → CallFailed listenfd past
  overflow : s.phase = .overflow → 2 ^ 31 ≤ s.byteCnt + maxline

section Runs
variable {listenfd : Nat} {past : List (Server × Action)} {s s' : Server} {e : Event}

theorem Reached.of_start (h : Start listenfd s) : Reached listenfd [] s := by
  obtain ⟨p, hp⟩ := h.pool
  have hstored : Slots.stored s.pool.clientfd = [] := by
    rw [hp]
    exact Slots.stored_replicate fdSetsize
  have hnone : ∀ fd conn, s.net fd ≠ some conn := by
    intro fd conn hconn
    rw [h.net] at hconn
    cases hconn
  refine ⟨⟨?_, ?_, ?_⟩, ?_, ?_, fun _ => ⟨⟨?_, fun fd => ?_, fun fd conn hconn => ?_⟩,
    fun fd conn hconn => ?_⟩, ?_, ?_⟩
  · rw [h.closed]
    exact fun x hx => (List.not_mem_nil hx).elim
  · rw [h.byteCnt, h.printed]
    rfl
  · rw [h.printed]
    intro before n cnt after heq
    exact (List.append_ne_nil_of_right_ne_nil before (List.cons_ne_nil _ after) heq.symm).elim
  · rw [h.phase]
    decide
  · rw [h.phase]
    exact ⟨fun hphase => (by cases hphase), fun ⟨x, hx, _⟩ => (List.not_mem_nil hx).elim⟩
  · rw [hp]
    exact Pool.inv_initPool listenfd p
  · rw [hstored]
    exact ⟨fun hmem => (List.not_mem_nil hmem).elim,
      fun ⟨conn, hconn⟩ => (hnone fd conn hconn).elim⟩
  · exact (hnone fd conn hconn).elim
  · exact (hnone fd conn hconn).elim
  · rw [h.phase]
    exact fun hphase => by cases hphase
  · rw [h.phase]
    exact fun hphase => by cases hphase

theorem Accepted.append {fd : Socket} (h : Accepted listenfd past fd) (x : Server × Action) :
    Accepted listenfd (past ++ [x]) fd := by
  obtain ⟨y, hy, hrest⟩ := h
  exact ⟨y, List.mem_append_left _ hy, hrest⟩

theorem wentBeyond_append {x : Server × Action} : WentBeyond listenfd (past ++ [x]) ↔
    WentBeyond listenfd past ∨ ∃ e, x.2 = .round e ∧ e.Beyond listenfd := by
  simp only [WentBeyond, List.mem_append, List.mem_singleton, or_and_right,
    exists_or, exists_eq_left]

/-- A connection that is open in a round has been accepted by then. -/
theorem Reached.opened (h : Reached listenfd past s) (hphase : s.phase = .running) {fd : Nat}
    {conn : Conn} (hconn : (s.opened listenfd e).net fd = some conn) :
    Accepted listenfd (past ++ [(s, .round e)]) conn.start := by
  obtain ⟨-, hknown⟩ := h.running hphase
  rw [Server.opened] at hconn
  split at hconn
  next hlisten =>
    dsimp only [Server.accept] at hconn
    by_cases heq : fd = e.connfd
    · rw [heq, Function.update_self] at hconn
      obtain rfl := Option.some.inj hconn
      exact ⟨_, List.mem_append_right _ (List.mem_singleton_self _), e, rfl, hlisten, rfl⟩
    · rw [Function.update_of_ne heq] at hconn
      exact (hknown fd conn hconn).append _
  next => exact (hknown fd conn hconn).append _

theorem Reached.step (h : Reached listenfd past s) {a : Action} (hs : StepTo listenfd a s s') :
    Reached listenfd (past ++ [(s, a)]) s' := by
  cases hs with
  | fail hphase =>
      have hnot : ¬ WentBeyond listenfd past := by
        rw [← h.outside, hphase]
        decide
      refine ⟨⟨h.counted.closed, h.counted.byteCnt, h.counted.totals⟩,
        (fun hroom => by cases hroom), ?_, (fun hrun => by cases hrun),
        fun _ => .inl ⟨_, List.mem_append_right _ (List.mem_singleton_self _), rfl⟩,
        (fun hover => by cases hover)⟩
      rw [wentBeyond_append]
      exact ⟨fun hout => (by cases hout), fun hor => hor.elim (fun hand => (hnot hand).elim)
        fun ⟨_, he, _⟩ => (by cases he)⟩
  | @round e _ _ hphase hlegit hround =>
      have hnot : ¬ WentBeyond listenfd past := by
        rw [← h.outside, hphase]
        decide
      obtain ⟨hinv, -⟩ := h.running hphase
      obtain ⟨s₁, hrun, hends⟩ := round_spec hphase hinv h.counted hlegit
      obtain rfl := Option.some.inj (hrun.symm.trans hround)
      have hbeyond : WentBeyond listenfd (past ++ [(s, .round e)]) ↔ e.Beyond listenfd := by
        rw [wentBeyond_append]
        constructor
        · rintro (hand | ⟨e', he, hand⟩)
          · exact (hnot hand).elim
          · cases he
            exact hand
        · exact fun hand => .inr ⟨e, rfl, hand⟩
      obtain ⟨hout, hphase', hpast⟩ | ⟨hin, hpast, hends⟩ := hends
      · refine ⟨hpast, ?_, ?_, ?_, ?_, ?_⟩ <;> rw [hphase']
        · decide
        · exact ⟨fun _ => hbeyond.mpr hout, fun _ => rfl⟩
        all_goals exact fun hcase => by cases hcase
      have hnone : ¬ WentBeyond listenfd (past ++ [(s, .round e)]) :=
        fun hand => hin (hbeyond.mp hand)
      obtain hhalts | ⟨hgo, hinv', -, l, -, hserved⟩ := hends
      · cases hhalts with
        | exited hphase' fd conn hconn hbad =>
            refine ⟨hpast, ?_, ?_, ?_, fun _ => .inr ⟨conn.start, h.opened hphase hconn, hbad⟩,
              ?_⟩ <;> rw [hphase']
            · decide
            · exact ⟨fun hcase => (by cases hcase), fun hand => (hnone hand).elim⟩
            all_goals exact fun hcase => by cases hcase
        | overflow hphase' hcnt =>
            refine ⟨hpast, ?_, ?_, ?_, ?_, fun _ => hcnt⟩ <;> rw [hphase']
            · decide
            · exact ⟨fun hcase => (by cases hcase), fun hand => (hnone hand).elim⟩
            all_goals exact fun hcase => by cases hcase
      · refine ⟨hpast, ?_, ?_, fun _ => ⟨hinv', fun fd conn hconn => ?_⟩, ?_, ?_⟩
        · rw [hgo]
          decide
        · rw [hgo]
          exact ⟨fun hcase => (by cases hcase), fun hand => (hnone hand).elim⟩
        · obtain ⟨conn₀, hconn₀, hstart⟩ := hserved.start hconn
          rw [hstart]
          exact h.opened hphase hconn₀
        all_goals
          rw [hgo]
          exact fun hcase => by cases hcase

theorem reached (h : (system listenfd).Run past s) : Reached listenfd past s :=
  h.invariant (fun _ hstart => .of_start hstart) fun _ _ _ _ hreached hs => hreached.step hs

/-- The program has started, in memory that is zero, and listens on descriptor 3. -/
def fresh : Server where
  phase := .running
  pool := initPool 3 ⟨0, ∅, ∅, 0, 0, [], fun _ => .blank⟩
  byteCnt := 0
  net := fun _ => none
  printed := []
  closed := []

theorem start_fresh : Start 3 fresh where
  inSet := by decide
  phase := rfl
  pool := ⟨_, rfl⟩
  byteCnt := rfl
  net _ := rfl
  printed := rfl
  closed := rfl

def twoAtOnce : Socket where
  incoming := ascii "a" ++ [newline] ++ (ascii "b" ++ [newline])
  reads := []
  writes := []
  accepted := []
  eintr := false

/-- `Accept` returns the connection of `twoAtOnce`. -/
def comes : Event := ⟨{3}, 4, twoAtOnce⟩

/-- The client on descriptor 4 is ready. -/
def speaks : Event := ⟨{4}, 0, twoAtOnce⟩

theorem legit_comes : comes.Legit 3 fresh where
  nonempty := ⟨3, by decide⟩
  ready := by decide
  accepted := by
    intro _
    exact ⟨by decide, by decide, rfl⟩

/-- The server runs, with one client, on descriptor 4. -/
def IsOpen (s : Server) : Prop := s.phase = .running ∧ s.pool.readSet = {3, 4} ∧ s.pool.maxfd = 4

instance : DecidablePred IsOpen := fun _ => inferInstanceAs (Decidable (_ ∧ _ ∧ _))

theorem IsOpen.legit (h : IsOpen s) : speaks.Legit 3 s where
  nonempty := ⟨4, by decide⟩
  ready := by
    rw [h.2.1, h.2.2]
    decide
  accepted hlisten := absurd hlisten (by decide)

theorem run_comes : ∃ s, (system 3).Run [(fresh, .round comes)] s ∧ round 3 comes fresh = some s ∧
    IsOpen s := by
  obtain ⟨s, hround, hopen⟩ := (Option.any_eq_true _ _).mp
    (show (round 3 comes fresh).any (fun s => decide (IsOpen s)) = true by decide +kernel)
  exact ⟨s, .step (.start start_fresh) (.round rfl legit_comes hround), hround,
    of_decide_eq_true hopen⟩

/-- The server has accepted the connection of `twoAtOnce` and has served it once. -/
theorem run_speaks : ∃ s s', (system 3).Run [(fresh, .round comes)] s ∧ IsOpen s ∧
    round 3 comes fresh = some s ∧ round 3 speaks s = some s' ∧ IsOpen s' := by
  obtain ⟨s, hrun, hcome, hopen⟩ := run_comes
  have hany : ((round 3 comes fresh).bind (round 3 speaks)).any (fun s => decide (IsOpen s))
      = true := by decide +kernel
  rw [hcome, Option.bind_some] at hany
  obtain ⟨s', hround, hopen'⟩ := (Option.any_eq_true _ _).mp hany
  exact ⟨s, s', hrun, hopen, hcome, hround, of_decide_eq_true hopen'⟩

/-- **The pool is never full.**  There are slots for all descriptors that an `fd_set` can hold, so
the test for too many clients never fails, and what does is `FD_SET`, for a descriptor that is too
large.  While the server runs, its slots and its set are the open connections. -/
theorem select_pool (h : (system listenfd).Run past s) : s.phase ≠ .tooMany ∧
    (s.phase = .outside ↔ WentBeyond listenfd past) ∧
    (s.phase = .running → s.Inv listenfd) := by
  have hr := reached h
  exact ⟨hr.room, hr.outside, fun hphase => (hr.running hphase).1⟩

theorem select_pool_comes : ∃ s, (system 3).Run [(fresh, .round comes)] s ∧
    s.pool.readSet = {3, 4} ∧ s.Inv 3 := by
  obtain ⟨s, hrun, -, hopen⟩ := run_comes
  exact ⟨s, hrun, hopen.2.1, (select_pool hrun).2.2 hopen.1⟩

/-- **A round is fair.**  It serves every client that is ready once, a line or its end, and leaves
the others and the new one alone; nobody is left to be counted. -/
theorem select_round (h : (system listenfd).Run past s) (hlegit : e.Legit listenfd s)
    (hphase : s.phase = .running) (hround : round listenfd e s = some s')
    (hgo : s'.phase = .running) : s'.pool.nready = 0 ∧
      (∀ fd ∈ e.ready, fd ≠ listenfd → ServedOnce fd s s') ∧
      ∀ fd, fd ∉ e.ready → s'.net fd = (s.opened listenfd e).net fd := by
  have hr := reached h
  obtain ⟨hinv, -⟩ := hr.running hphase
  obtain ⟨s₁, hrun, hends⟩ := round_spec hphase hinv hr.counted hlegit
  obtain rfl := Option.some.inj (hrun.symm.trans hround)
  obtain ⟨-, hout, -⟩ | ⟨-, -, hhalts | ⟨-, -, hzero, l, hl, hserved⟩⟩ := hends
  · rw [hout] at hgo
    cases hgo
  · cases hhalts with
    | exited hstop | overflow hstop =>
        rw [hstop] at hgo
        cases hgo
  refine ⟨hzero, fun fd hfd hne => ?_,
    fun fd hfd => hserved.others fd fun hmem => hfd ((hl fd).mp hmem).1⟩
  obtain ⟨conn, conn', hconn, hend⟩ := hserved.served fd ((hl fd).mpr ⟨hfd, hne⟩)
  -- a client that is ready is not the new one
  refine ⟨conn, conn', ?_, hend⟩
  have hmem := ((hinv.pool.readSet fd).mp (hlegit.subset hfd)).resolve_left hne
  obtain ⟨conn₀, hconn₀⟩ := (hinv.net fd).mp hmem
  rw [Server.opened] at hconn
  split at hconn
  next hlisten =>
    have hnew : fd ≠ e.connfd := by
      intro heq
      rw [heq, (hlegit.accepted hlisten).2.2] at hconn₀
      cases hconn₀
    dsimp only [Server.accept] at hconn
    rwa [Function.update_of_ne hnew] at hconn
  next => exact hconn

theorem select_round_speaks : ∃ s s', round 3 comes fresh = some s ∧ round 3 speaks s = some s' ∧
    ServedOnce 4 s s' := by
  obtain ⟨s, s', hrun, hopen, hcome, hround, hopen'⟩ := run_speaks
  have hall := select_round hrun hopen.legit hopen.1 hround hopen'.1
  exact ⟨s, s', hcome, hround, hall.2.1 4 (by decide) (by decide)⟩

theorem Conn.lines_eq_taken_iff (conn : Conn) :
    conn.lines = conn.taken ↔ ∀ x ∈ conn.echoed, x.2 = [] := by
  constructor
  · intro heq
    have hlen : (conn.echoed.map fun x => x.2.length).sum = 0 := by
      have hsum : conn.taken.length
          = conn.lines.length + (conn.echoed.map fun x => x.2.length).sum := by
        rw [taken, lines, List.length_flatMap, List.length_flatMap, ← List.sum_map_add]
        simp only [List.length_append]
      rw [heq] at hsum
      omega
    intro x hx
    have hzero := List.sum_eq_zero_iff_forall_eq_nat.mp hlen x.2.length (List.mem_map_of_mem hx)
    exact List.length_eq_zero_iff.mp hzero
  · intro hall
    have hcut : ∀ echoed : List (Bytes × Bytes), (∀ x ∈ echoed, x.2 = []) →
        echoed.flatMap Prod.fst = echoed.flatMap fun x => x.1 ++ x.2 := by
      intro echoed
      induction echoed with
      | nil => exact fun _ => rfl
      | cons x echoed ih =>
          intro hnil
          obtain ⟨hx, hrest⟩ := List.forall_mem_cons.mp hnil
          rw [List.flatMap_cons, List.flatMap_cons, ih hrest, hx, List.append_nil]
    exact hcut conn.echoed hall

/-- **What a client gets back** are lines of what it has sent, in order: each is the line that was
next when it was read, up to its newline (or `MAXLINE - 1` bytes, or the end).  A connection is
closed when all has been read, and it has got back everything exactly if nothing was behind a line
in the buffer. The lines that are printed count the bytes; the program exits when a call has
failed. -/
theorem select_echoes (h : (system listenfd).Run past s) :
    (∀ x ∈ s.closed, x.2.Accounted ∧ x.2.fd.incoming = [] ∧
      (x.2.fd.accepted = x.2.start.accepted ++ x.2.start.incoming ↔ ∀ y ∈ x.2.echoed, y.2 = [])) ∧
    (s.phase = .running → ∀ fd conn, s.net fd = some conn → conn.Accounted) ∧
    s.byteCnt = total s.printed ∧ RunningTotals s.printed ∧
    (s.phase = .exited → CallFailed listenfd past) ∧
    (s.phase = .overflow → 2 ^ 31 ≤ s.byteCnt + maxline) := by
  have hr := reached h
  refine ⟨fun x hx => ?_, fun hphase => (hr.running hphase).1.conns, hr.counted.byteCnt,
    hr.counted.totals, hr.exited, hr.overflow⟩
  obtain ⟨hacc, hover⟩ := hr.counted.closed x hx
  refine ⟨hacc, hover, ?_⟩
  have htaken : x.2.start.incoming = x.2.taken := by
    rw [hacc.incoming.taken, hover, List.append_nil]
    rfl
  rw [hacc.accepted, htaken, List.append_right_inj, Conn.lines_eq_taken_iff]

/-- The second line is lost, and the client never gets it back. -/
theorem select_echoes_lost : ∃ past s conn, (system 3).Run past s ∧ s.closed = [(4, conn)] ∧
    conn.start = twoAtOnce ∧ conn.Accounted ∧
    conn.fd.accepted ≠ conn.start.accepted ++ conn.start.incoming := by
  obtain ⟨s, s', hrun, hopen, hcome, hround, hopen'⟩ := run_speaks
  have hany : ((((round 3 comes fresh).bind (round 3 speaks)).bind (round 3 speaks)).any fun s =>
      decide (s.closed.map (fun x => (x.1, x.2.start, x.2.echoed))
        = [(4, twoAtOnce, [(ascii "a" ++ [newline], ascii "b" ++ [newline])])])) = true := by
    decide +kernel
  rw [hcome, Option.bind_some, hround, Option.bind_some] at hany
  obtain ⟨s'', hround', hclosed⟩ := (Option.any_eq_true _ _).mp hany
  obtain ⟨⟨fd, conn⟩, hone, hconn⟩ := List.map_eq_singleton_iff.mp (of_decide_eq_true hclosed)
  obtain ⟨rfl, hconn⟩ := Prod.mk.inj hconn
  obtain ⟨hstart, hechoed⟩ := Prod.mk.inj hconn
  have hlast := System.Run.step (System.Run.step hrun (.round hopen.1 hopen.legit hround))
    (.round hopen'.1 hopen'.legit hround')
  obtain ⟨hacc, -, hall⟩ := (select_echoes hlast).1 (4, conn) (hone ▸ List.mem_singleton_self _)
  refine ⟨_, s'', conn, hlast, hone, hstart, hacc, fun heq => ?_⟩
  have hlost := hall.mp heq _ (hechoed ▸ List.mem_singleton_self _)
  exact absurd hlost (by decide)

end Runs

end InternetLabs.Csapp.Select
