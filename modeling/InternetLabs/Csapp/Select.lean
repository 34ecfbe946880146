/-
# `InternetLabs.Csapp.Select` — the echo server on `select`

`echoservers.c`: one thread waits for its sockets with `select`, accepts a connection when the
listening one is ready, and echoes one line to each client that is ready.  The clients' descriptors
lie in the slots of `pool.clientfd` and in `pool.read_set`.

The kernel holds the open connections (`Server.net`), each with the socket it was when it was
accepted.  `check_clients` reads from a copy of the client's `rio_t`, so what comes in behind a line
and is in the buffer of the copy is lost; `Conn.echoed` has every line that has been written back,
and what has been lost with it.

A client that is ready may have sent a part of a line only: reading the rest of it blocks, and the
others wait.  A step of the model is a round that has come to its end.  `close` of an open
descriptor does not fail.

What serving one client comes to is `Serves`; `Pool.Inv` is what `add_client` and the closing of a
client keep.  What follows for a round and for a run is in `InternetLabs.Csapp.SelectRuns`.
-/
import InternetLabs.Lib.Slots
import InternetLabs.Lib.System
import InternetLabs.Csapp.Echo

namespace InternetLabs.Csapp.Select

open InternetLabs

/-! ## The server

The functions of `echoservers.c` on the pool, with the results of the calls of the
kernel as part of the input. -/

/-- `FD_SETSIZE`. -/
def fdSetsize : Nat := 1024

/-- `pool`; an entry of `clientfd` is `none` where it is -1. -/
structure Pool where
  maxfd : Nat
  readSet : Finset Nat
  readySet : Finset Nat
  nready : Int
  maxi : Int
  clientfd : List (Option Nat)
  clientrio : Nat → Rio

/-- An open connection: the socket it was at the start, the one it is now, and the lines that have
been echoed, each with what has been lost behind it. -/
structure Conn where
  start : Socket
  fd : Socket
  echoed : List (Bytes × Bytes)
deriving DecidableEq

/-- The program goes on; a call has failed (`unix_error`); the pool is full (`app_error`); `FD_SET`
is called for a descriptor that is not in an `fd_set`; `byte_cnt` has come to its end. -/
inductive Phase where
  | running
  | exited
  | tooMany
  | outside
  | overflow
deriving DecidableEq

/-- The state of the server.  `printed` and `closed` are what has happened. -/
structure Server where
  phase : Phase
  pool : Pool
  byteCnt : Int
  net : Nat → Option Conn
  printed : List (Nat × Int)
  closed : List (Nat × Conn)

/-- `init_pool`, on a pool of any content. -/
def initPool (listenfd : Nat) (p : Pool) : Pool :=
  { p with
    maxi := -1
    clientfd := List.replicate fdSetsize none
    maxfd := listenfd
    readSet := {listenfd} }

/-- `p->nready--`. -/
def Server.countDown (s : Server) : Server :=
  { s with pool := { s.pool with nready := s.pool.nready - 1 } }

/-- `p->clientfd[i] = connfd; Rio_readinitb(&p->clientrio[i], connfd)`. -/
def Pool.put (i connfd : Nat) (p : Pool) : Pool :=
  { p with
    clientfd := p.clientfd.set i (some connfd)
    clientrio := Function.update p.clientrio i
      (.readinitb (p.clientrio i).rioBuf (p.clientrio i).size) }

/-- `FD_SET(connfd, &p->read_set)`, and the two marks. -/
def Pool.mark (i connfd : Nat) (p : Pool) : Pool :=
  { p with
    readSet := insert connfd p.readSet
    maxfd := if p.maxfd < connfd then connfd else p.maxfd
    maxi := if p.maxi < i then i else p.maxi }

/-- `add_client`. -/
def addClient (connfd : Nat) (s : Server) : Server :=
  let s := s.countDown
  match s.pool.clientfd.findIdx? Option.isNone with
  | none => { s with phase := .tooMany }
  | some i =>
      let p := s.pool.put i connfd
      if connfd < fdSetsize then { s with pool := p.mark i connfd }
      else { s with pool := p, phase := .outside }

/-- `Close(connfd)`, and what follows it. -/
def removeClient (i connfd : Nat) (conn : Conn) (s : Server) : Server :=
  { s with
    net := Function.update s.net connfd none
    closed := s.closed ++ [(connfd, conn)]
    pool := { s.pool with
      readSet := s.pool.readSet.erase connfd
      clientfd := s.pool.clientfd.set i none } }

/-- `byte_cnt += n`, the line about it, and `Rio_writen(connfd, buf, n)`; `lost` are the bytes that
are in the copy of the `rio_t`. -/
def echoLine (connfd : Nat) (conn : Conn) (n : Int) (buf lost : Bytes) (s : Server) :
    Option Server :=
  if s.byteCnt + n < 2 ^ 31 then
    (rioWriten buf n.toNat conn.fd).map fun (ret, fd) =>
      let s := { s with
        byteCnt := s.byteCnt + n
        printed := s.printed ++ [(n.toNat, s.byteCnt + n)] }
      if ret = n then
        let conn := { conn with fd := fd, echoed := conn.echoed ++ [(buf.take n.toNat, lost)] }
        { s with net := Function.update s.net connfd (some conn) }
      else
        { s with
          net := Function.update s.net connfd (some { conn with fd := fd }), phase := .exited }
  else some { s with net := Function.update s.net connfd (some conn), phase := .overflow }

/-- What `check_clients` does for a client that is ready. -/
def serveClient (i connfd : Nat) (s : Server) : Option Server :=
  let s := s.countDown
  match s.net connfd with
  | none => some { s with phase := .exited }
  | some conn =>
      (rioReadlineb maxline ⟨s.pool.clientrio i, conn.fd⟩).bind fun (n, stored, r) =>
        let conn := { conn with fd := r.fd }
        if n < 0 then
          some { s with net := Function.update s.net connfd (some conn), phase := .exited }
        else if n = 0 then some (removeClient i connfd conn s)
        else echoLine connfd conn n stored r.rp.buffered s

/-- The body of the loop of `check_clients`. -/
def checkClient (i : Nat) (s : Server) : Option Server :=
  match s.pool.clientfd[i]? with
  | none => none
  | some none => some s
  | some (some connfd) =>
      if 0 < connfd ∧ connfd ∈ s.pool.readySet then serveClient i connfd s else some s

/-- The loop of `check_clients` from `i` on, with `k` slots before the high-water mark. -/
def checkFrom : (k i : Nat) → Server → Option Server
  | 0, _, s => some s
  | k + 1, i, s =>
      if s.phase = .running ∧ 0 < s.pool.nready then (checkClient i s).bind (checkFrom k (i + 1))
      else some s

/-- `check_clients`. -/
def checkClients (s : Server) : Option Server := checkFrom (s.pool.maxi + 1).toNat 0 s

/-- What comes of the calls of one round of `main`: which descriptors are ready, and the connection
that `Accept` returns. -/
structure Event where
  ready : Finset Nat
  connfd : Nat
  fd : Socket

/-- The kernel has given out `connfd`. -/
def Server.accept (connfd : Nat) (fd : Socket) (s : Server) : Server :=
  { s with net := Function.update s.net connfd (some ⟨fd, fd, []⟩) }

/-- `Select` has said which descriptors are ready. -/
def Server.select (ready : Finset Nat) (s : Server) : Server :=
  { s with pool := { s.pool with readySet := ready, nready := ready.card } }

/-- One round of `main`. -/
def round (listenfd : Nat) (e : Event) (s : Server) : Option Server :=
  let s := s.select e.ready
  checkClients (if listenfd ∈ e.ready then addClient e.connfd (s.accept e.connfd e.fd) else s)

/-- What the kernel may do: `select` says that some descriptors of the set below `maxfd + 1` are
ready, and `Accept` returns one that is not in use (0 is the standard input). -/
structure Event.Legit (listenfd : Nat) (e : Event) (s : Server) : Prop where
  nonempty : e.ready.Nonempty
  ready : ∀ fd ∈ e.ready, fd ∈ s.pool.readSet ∧ fd < s.pool.maxfd + 1
  accepted : listenfd ∈ e.ready → 0 < e.connfd ∧ e.connfd ≠ listenfd ∧ s.net e.connfd = none

/-- What can happen next: a round, or `Select` or `Accept` fails. -/
inductive Action where
  | round (e : Event)
  | fail

/-- One step. -/
inductive StepTo (listenfd : Nat) : Action → Server → Server → Prop
  | round {e : Event} {s s' : Server} (h : s.phase = .running) (hlegit : e.Legit listenfd s)
      (hround : round listenfd e s = some s') : StepTo listenfd (.round e) s s'
  | fail {s : Server} (h : s.phase = .running) : StepTo listenfd .fail s { s with phase := .exited }

/-- `main` has called `init_pool`. -/
structure Start (listenfd : Nat) (s : Server) : Prop where
  inSet : listenfd < fdSetsize
  phase : s.phase = .running
  pool : ∃ p, s.pool = initPool listenfd p
  byteCnt : s.byteCnt = 0
  net : ∀ fd, s.net fd = none
  printed : s.printed = []
  closed : s.closed = []

/-- The server behind a listening socket. -/
def system (listenfd : Nat) : System Server Action where
  init := Start listenfd
  step := StepTo listenfd

/-! ## One client

A round reads one line of a client and echoes it, or finds that there is nothing more to
come. -/

namespace Conn

def nextLine (conn : Conn) : Bytes := lineOf (maxline - 1) conn.fd.incoming

/-- The lines that have been echoed. -/
def lines (conn : Conn) : Bytes := conn.echoed.flatMap Prod.fst

/-- What has been read from the connection. -/
def taken (conn : Conn) : Bytes := conn.echoed.flatMap fun x => x.1 ++ x.2

/-- Neither its reads nor its writes fail. -/
def Quiet (conn : Conn) : Prop := conn.fd.ReadsQuiet ∧ conn.fd.WritesQuiet

/-- **Line by line**: of `incoming`, each of these is the line that was next, and what was lost
behind it; `rest` is still to come. -/
inductive LineByLine (incoming : Bytes) : List (Bytes × Bytes) → Bytes → Prop
  | start : LineByLine incoming [] incoming
  | line {echoed : List (Bytes × Bytes)} {line lost rest : Bytes}
      (h : LineByLine incoming echoed (line ++ lost ++ rest)) (hmore : line ≠ [])
      (hline : line = lineOf (maxline - 1) (line ++ lost ++ rest)) :
      LineByLine incoming (echoed ++ [(line, lost)]) rest

/-- What a client has sent is what has been echoed and what has been lost, line by line, and what is
still to come; it has got back the lines. -/
structure Accounted (conn : Conn) : Prop where
  incoming : LineByLine conn.start.incoming conn.echoed conn.fd.incoming
  accepted : conn.fd.accepted = conn.start.accepted ++ conn.lines
  quiet : conn.start.ReadsQuiet → conn.start.WritesQuiet → conn.Quiet

/-- One line more has been echoed. -/
structure Echoes (conn conn' : Conn) : Prop where
  start : conn'.start = conn.start
  more : conn.fd.incoming ≠ []
  line : ∃ lost, conn'.echoed = conn.echoed ++ [(conn.nextLine, lost)] ∧
    conn.fd.incoming = conn.nextLine ++ lost ++ conn'.fd.incoming
  accepted : conn'.fd.accepted = conn.fd.accepted ++ conn.nextLine
  quiet : conn.Quiet → conn'.Quiet

/-- There was nothing more to come. -/
structure Ends (conn conn' : Conn) : Prop where
  start : conn'.start = conn.start
  atEnd : conn.fd.incoming = [] ∧ conn'.fd.incoming = []
  echoed : conn'.echoed = conn.echoed
  accepted : conn'.fd.accepted = conn.fd.accepted
  quiet : conn.Quiet → conn'.Quiet

variable {conn conn' : Conn}

theorem LineByLine.taken {incoming rest : Bytes} {echoed : List (Bytes × Bytes)}
    (h : LineByLine incoming echoed rest) :
    incoming = (echoed.flatMap fun x => x.1 ++ x.2) ++ rest := by
  induction h with
  | start => rfl
  | line _ _ _ ih =>
      rw [ih, List.flatMap_append, List.flatMap_singleton]
      simp only [List.append_assoc]

theorem Accounted.of_start (fd : Socket) : Accounted ⟨fd, fd, []⟩ :=
  ⟨.start, (List.append_nil _).symm, And.intro⟩

theorem Accounted.echoes (h : conn.Accounted) (he : conn.Echoes conn') : conn'.Accounted := by
  obtain ⟨lost, hechoed, hincoming⟩ := he.line
  refine ⟨?_, ?_, fun hr hw => ?_⟩
  · have hlines := h.incoming
    rw [hincoming] at hlines
    rw [he.start, hechoed]
    refine hlines.line (lineOf_ne_nil (show 0 < maxline - 1 by decide) he.more) ?_
    rw [← hincoming]
    rfl
  · rw [he.accepted, he.start, h.accepted, lines, lines, hechoed, List.flatMap_append,
      List.flatMap_singleton, List.append_assoc]
  · rw [he.start] at hr hw
    exact he.quiet (h.quiet hr hw)

theorem Accounted.ends (h : conn.Accounted) (he : conn.Ends conn') : conn'.Accounted := by
  refine ⟨?_, ?_, fun hr hw => ?_⟩
  · rw [he.start, he.echoed, he.atEnd.2, ← he.atEnd.1]
    exact h.incoming
  · rw [he.accepted, he.start, h.accepted, lines, lines, he.echoed]
  · rw [he.start] at hr hw
    exact he.quiet (h.quiet hr hw)

end Conn

/-- What serving a client that is ready comes to: it is closed, or one line is echoed, or the
program stops. -/
inductive Serves (i connfd : Nat) (conn : Conn) (s : Server) : Server → Prop
  | closes (conn' : Conn) (h : conn.Ends conn') :
      Serves i connfd conn s (removeClient i connfd conn' s.countDown)
  | echoes (conn' : Conn) (h : conn.Echoes conn')
      (hcnt : s.byteCnt + conn.nextLine.length < 2 ^ 31) :
      Serves i connfd conn s { s.countDown with
        net := Function.update s.net connfd (some conn')
        byteCnt := s.byteCnt + conn.nextLine.length
        printed := s.printed ++ [(conn.nextLine.length, s.byteCnt + conn.nextLine.length)] }
  | exits (conn' : Conn) (hbad : ¬ conn.Quiet) :
      Serves i connfd conn s { s.countDown with
        net := Function.update s.net connfd (some conn'), phase := .exited }
  | breaks (conn' : Conn) (hbad : ¬ conn.Quiet) :
      Serves i connfd conn s { s.countDown with
        net := Function.update s.net connfd (some conn')
        byteCnt := s.byteCnt + conn.nextLine.length
        printed := s.printed ++ [(conn.nextLine.length, s.byteCnt + conn.nextLine.length)]
        phase := .exited }
  | overflows (conn' : Conn) (hcnt : 2 ^ 31 ≤ s.byteCnt + conn.nextLine.length) :
      Serves i connfd conn s { s.countDown with
        net := Function.update s.net connfd (some conn'), phase := .overflow }

theorem echoLine_cases {i connfd : Nat} {conn : Conn} {s : Server} {r : Reader} {stored : Bytes}
    (hne : conn.fd.incoming ≠ []) (hstored : stored.take conn.nextLine.length = conn.nextLine)
    (hrest : conn.fd.incoming = conn.nextLine ++ r.unread) (hsame : r.fd.SameWrites conn.fd)
    (hquiet : conn.fd.ReadsQuiet → r.fd.ReadsQuiet) :
    ∃ s', echoLine connfd { conn with fd := r.fd } conn.nextLine.length stored r.rp.buffered
      s.countDown = some s' ∧ Serves i connfd conn s s' := by
  by_cases hcnt : s.byteCnt + conn.nextLine.length < 2 ^ 31
  swap
  · exact ⟨_, if_neg hcnt, .overflows _ (Int.not_lt.mp hcnt)⟩
  obtain ⟨ret, fd, hwrite, hkept, hgood, sent, -, hmoved, hall⟩ :=
    writeline_cases (n := conn.nextLine.length) rfl hstored r.fd
  have hwrites : conn.fd.WritesQuiet → r.fd.WritesQuiet := by
    intro hq
    rwa [Socket.WritesQuiet, hsame.1]
  rw [Int.toNat_natCast] at hwrite
  by_cases hret : ret = conn.nextLine.length
  · obtain rfl := hall hret
    refine ⟨_, ?_, .echoes
      { conn with fd := fd, echoed := conn.echoed ++ [(conn.nextLine, r.rp.buffered)] }
      ⟨rfl, hne, ⟨r.rp.buffered, rfl, ?_⟩, ?_, fun hq => ?_⟩ hcnt⟩
    · simp only [echoLine, Server.countDown, if_pos hcnt, Int.toNat_natCast,
        hwrite, Option.map_some, if_pos hret, hstored]
    · rw [hrest, List.append_assoc, Reader.unread, hkept.1]
    · rw [hmoved, hsame.2]
    · refine ⟨?_, (hgood (hwrites hq.2)).2⟩
      rw [Socket.ReadsQuiet, hkept.2]
      exact hquiet hq.1
  · refine ⟨_, ?_, .breaks { conn with fd := fd } fun hq => hret (hgood (hwrites hq.2)).1⟩
    simp only [echoLine, Server.countDown, if_pos hcnt, Int.toNat_natCast, hwrite, Option.map_some,
      if_neg hret]

theorem serveClient_cases {i connfd : Nat} {conn : Conn} {s : Server}
    (hconn : s.net connfd = some conn) (hrio : (s.pool.clientrio i).rioCnt ≤ 0) :
    ∃ s', serveClient i connfd s = some s' ∧ Serves i connfd conn s s' := by
  have hunread : (⟨s.pool.clientrio i, conn.fd⟩ : Reader).unread = conn.fd.incoming :=
    Reader.unread_of_le hrio
  obtain ⟨⟨n, stored, r⟩, hread, h⟩ :=
    rioReadlineb_spec (show maxline < 2 ^ 31 by decide) ⟨s.pool.clientrio i, conn.fd⟩
  obtain ⟨hsame, hgoes, hret, hrest, hstored, -⟩ := h
  dsimp only at hsame hgoes hret hrest hstored
  rw [hunread] at hret hrest hstored
  have hserve : serveClient i connfd s = (if n < 0 then
      some { s.countDown with
        net := Function.update s.net connfd (some { conn with fd := r.fd }), phase := .exited }
    else if n = 0 then some (removeClient i connfd { conn with fd := r.fd } s.countDown)
    else echoLine connfd { conn with fd := r.fd } n stored r.rp.buffered s.countDown) := by
    simp only [serveClient, Server.countDown, hconn, hread, Option.bind_some]
  by_cases hneg : n < 0
  · refine ⟨_, by rw [hserve, if_pos hneg], .exits _ fun hq => ?_⟩
    exact absurd (hgoes hq.1).1 (Int.not_le.mpr hneg)
  have hpos : 0 ≤ n := Int.not_lt.mp hneg
  rw [if_neg hneg] at hserve
  have hn : n = conn.nextLine.length := hret hpos
  by_cases hnil : conn.fd.incoming = []
  · have hzero : n = 0 := by
      rw [hn, Conn.nextLine, hnil]
      rfl
    have hdry := hrest hpos
    rw [hnil] at hdry
    have hover : r.fd.incoming = [] :=
      (List.append_eq_nil_iff.mp (List.append_eq_nil_iff.mp hdry.symm).2).2
    refine ⟨_, by rw [hserve, if_pos hzero], .closes { conn with fd := r.fd }
      ⟨rfl, ⟨hnil, hover⟩, rfl, hsame.2, fun hq => ⟨(hgoes hq.1).2, ?_⟩⟩⟩
    rw [Socket.WritesQuiet, hsame.1]
    exact hq.2
  · have hline : conn.nextLine ≠ [] := lineOf_ne_nil (show 0 < maxline - 1 by decide) hnil
    have hlen := List.length_pos_iff.mpr hline
    have hbuf : stored.take conn.nextLine.length = conn.nextLine := by
      rw [hstored hpos, if_neg fun hand => hnil hand.2]
      exact List.take_left
    rw [if_neg (by omega), hn] at hserve
    rw [hserve]
    exact echoLine_cases hnil hbuf (hrest hpos) hsame fun hq => (hgoes hq).2

/-! ## The pool

The arrays of the pool hold each client once, below the marks that the loops go up to. -/

namespace Pool

/-- The clients from slot `i` on that are ready. -/
def waiting (p : Pool) (i : Nat) : List Nat :=
  (Slots.stored (p.clientfd.drop i)).filter (· ∈ p.readySet)

/-- The slots hold descriptors, each once, that lie in the set, and below the two marks. -/
structure Inv (listenfd : Nat) (p : Pool) : Prop where
  size : p.clientfd.length = fdSetsize
  rio : ∀ i fd, p.clientfd[i]? = some (some fd) → (p.clientrio i).rioCnt ≤ 0
  nodup : (Slots.stored p.clientfd).Nodup
  readSet : ∀ fd, fd ∈ p.readSet ↔ fd = listenfd ∨ fd ∈ Slots.stored p.clientfd
  range : ∀ fd ∈ Slots.stored p.clientfd, 0 < fd ∧ fd < fdSetsize ∧ fd ≠ listenfd
  maxfd : ∀ fd ∈ p.readSet, fd ≤ p.maxfd
  maxi : ∀ (i : Nat) (fd : Nat), p.clientfd[i]? = some (some fd) → i ≤ p.maxi
  bound : p.maxi < fdSetsize

variable {listenfd i connfd : Nat} {p : Pool}

theorem inv_initPool (listenfd : Nat) (p : Pool) : (initPool listenfd p).Inv listenfd := by
  have hempty : ∀ (i fd : Nat),
      (List.replicate fdSetsize (none : Option Nat))[i]? ≠ some (some fd) := by
    intro i fd hslot
    cases List.eq_of_mem_replicate (List.mem_of_getElem? hslot)
  have hstored : Slots.stored (initPool listenfd p).clientfd = [] :=
    Slots.stored_replicate fdSetsize
  refine ⟨List.length_replicate, fun i fd h => (hempty i fd h).elim, ?_,
    fun fd => ?_, fun fd hfd => ?_, fun fd hfd => ?_, fun i fd h => (hempty i fd h).elim,
    show (-1 : Int) < fdSetsize by decide⟩
  · rw [hstored]
    exact List.nodup_nil
  · rw [hstored]
    simp [initPool]
  · rw [hstored] at hfd
    cases hfd
  · exact (Finset.mem_singleton.mp hfd).le

/-- What is ready does not matter to it. -/
theorem Inv.counts (h : p.Inv listenfd) (readySet : Finset Nat) (nready : Int) :
    Inv listenfd { p with readySet := readySet, nready := nready } :=
  ⟨h.size, h.rio, h.nodup, h.readSet, h.range, h.maxfd, h.maxi, h.bound⟩

theorem mem_of_slot (h : p.clientfd[i]? = some (some connfd)) : connfd ∈ Slots.stored p.clientfd :=
  Slots.mem_stored.mpr (List.mem_of_getElem? h)

/-- There is a free slot for a descriptor that is not in the pool: there are not that many. -/
theorem Inv.exists_free (h : p.Inv listenfd) : ∃ i, p.clientfd.findIdx? Option.isNone = some i ∧
    p.clientfd[i]? = some none := by
  have hfree : none ∈ p.clientfd := by
    by_contra hfull
    -- without a free slot, the descriptors are `fdSetsize` different ones, and 0 is none of them
    have hlen : (Slots.stored p.clientfd).length = fdSetsize :=
      (Slots.length_stored_of_full hfull).trans h.size
    have hcons : (0 :: Slots.stored p.clientfd).Nodup :=
      List.nodup_cons.mpr ⟨fun hzero => (h.range 0 hzero).1.ne rfl, h.nodup⟩
    have hsub : (0 :: Slots.stored p.clientfd) ⊆ List.range fdSetsize := by
      intro fd hfd
      obtain rfl | hfd := List.mem_cons.mp hfd
      · exact List.mem_range.mpr (by decide)
      · exact List.mem_range.mpr (h.range fd hfd).2.1
    have hle := (hcons.subperm hsub).length_le
    rw [List.length_cons, hlen, List.length_range] at hle
    omega
  cases hfind : p.clientfd.findIdx? Option.isNone with
  | none =>
      have hnot := List.findIdx?_eq_none_iff.mp hfind none hfree
      cases hnot
  | some i =>
      obtain ⟨hi, hslot, -⟩ := List.findIdx?_eq_some_iff_getElem.mp hfind
      refine ⟨i, rfl, ?_⟩
      rw [List.getElem?_eq_getElem hi, Option.isNone_iff_eq_none.mp hslot]

/-- A new client is put into a free slot. -/
theorem Inv.put (h : p.Inv listenfd) (hslot : p.clientfd[i]? = some none) (hpos : 0 < connfd)
    (hlt : connfd < fdSetsize) (hne : connfd ≠ listenfd) (hnew : connfd ∉ Slots.stored p.clientfd) :
    ((p.put i connfd).mark i connfd).Inv listenfd := by
  have hperm := Slots.stored_set_some connfd hslot
  have hi : i < p.clientfd.length := (List.getElem?_eq_some_iff.mp hslot).1
  have hmem : ∀ fd, fd ∈ Slots.stored (p.clientfd.set i (some connfd)) ↔
      fd = connfd ∨ fd ∈ Slots.stored p.clientfd := by
    intro fd
    rw [hperm.mem_iff, List.mem_cons]
  have hslots : ∀ (j fd : Nat), (p.clientfd.set i (some connfd))[j]? = some (some fd) →
      j = i ∨ j ≠ i ∧ p.clientfd[j]? = some (some fd) := by
    intro j fd hj
    by_cases hji : j = i
    · exact .inl hji
    · rw [List.getElem?_set_ne (Ne.symm hji)] at hj
      exact .inr ⟨hji, hj⟩
  refine ⟨?_, fun j fd hj => ?_, ?_, fun fd => ?_, fun fd hfd => ?_, fun fd hfd => ?_,
    fun j fd hj => ?_, ?_⟩
  · exact (List.length_set ..).trans h.size
  · dsimp only [mark, Pool.put] at hj ⊢
    obtain rfl | ⟨hji, hj⟩ := hslots j fd hj
    · rw [Function.update_self]
      exact Int.le_refl 0
    · rw [Function.update_of_ne hji]
      exact h.rio j fd hj
  · exact hperm.nodup_iff.mpr (List.nodup_cons.mpr ⟨hnew, h.nodup⟩)
  · dsimp only [mark, Pool.put]
    rw [Finset.mem_insert, h.readSet, hmem]
    exact or_left_comm
  · obtain rfl | hfd := (hmem fd).mp hfd
    · exact ⟨hpos, hlt, hne⟩
    · exact h.range fd hfd
  · have hmark : ((p.put i connfd).mark i connfd).maxfd = max p.maxfd connfd := by
      dsimp only [mark, Pool.put]
      by_cases hmax : p.maxfd < connfd
      · rw [if_pos hmax, Nat.max_eq_right hmax.le]
      · rw [if_neg hmax, Nat.max_eq_left (Nat.le_of_not_lt hmax)]
    rw [hmark]
    obtain rfl | hfd := Finset.mem_insert.mp hfd
    · exact Nat.le_max_right _ _
    · exact (h.maxfd fd hfd).trans (Nat.le_max_left _ _)
  · dsimp only [mark, Pool.put] at hj ⊢
    obtain rfl | ⟨-, hj⟩ := hslots j fd hj
    · omega
    · have := h.maxi j fd hj
      omega
  · have hbound := h.bound
    have hsize := h.size
    dsimp only [mark, Pool.put]
    omega

/-- A client that is closed leaves its slot. -/
theorem Inv.remove (h : p.Inv listenfd) (hslot : p.clientfd[i]? = some (some connfd)) :
    Inv listenfd
    { p with readSet := p.readSet.erase connfd, clientfd := p.clientfd.set i none } := by
  have hperm := Slots.stored_set hslot
  have hnodup := List.nodup_cons.mp (hperm.nodup_iff.mp h.nodup)
  have hmem : ∀ fd, fd ∈ Slots.stored p.clientfd ↔
      fd = connfd ∨ fd ∈ Slots.stored (p.clientfd.set i none) := by
    intro fd
    rw [hperm.mem_iff, List.mem_cons]
  have hslots : ∀ (j fd : Nat), (p.clientfd.set i none)[j]? = some (some fd) →
      p.clientfd[j]? = some (some fd) := by
    intro j fd hj
    by_cases hji : j = i
    · rw [hji, List.getElem?_set_self (List.getElem?_eq_some_iff.mp hslot).1] at hj
      cases hj
    · rwa [List.getElem?_set_ne (Ne.symm hji)] at hj
  refine ⟨(List.length_set ..).trans h.size, fun j fd hj => h.rio j fd (hslots j fd hj), hnodup.2,
    fun fd => ?_, fun fd hfd => h.range fd ((hmem fd).mpr (.inr hfd)),
    fun fd hfd => h.maxfd fd (Finset.mem_of_mem_erase hfd),
      fun j fd hj => h.maxi j fd (hslots j fd hj),
    h.bound⟩
  have hlisten := (h.range connfd (mem_of_slot hslot)).2.2
  rw [Finset.mem_erase, h.readSet, hmem]
  constructor
  · rintro ⟨hne, hfd | hfd | hfd⟩
    · exact .inl hfd
    · exact (hne hfd).elim
    · exact .inr hfd
  · rintro (hfd | hfd)
    · exact ⟨fun heq => hlisten (heq.symm.trans hfd), .inl hfd⟩
    · exact ⟨fun heq => hnodup.1 (heq ▸ hfd), .inr (.inr hfd)⟩

theorem waiting_of_slot {slot : Option Nat} (h : p.clientfd[i]? = some slot) :
    p.waiting i = slot.toList.filter (· ∈ p.readySet) ++ p.waiting (i + 1) := by
  obtain ⟨hi, hslot⟩ := List.getElem?_eq_some_iff.mp h
  rw [waiting, waiting, List.drop_eq_getElem_cons hi, hslot, Slots.stored_cons, List.filter_append]

theorem Inv.waiting_eq_nil (h : p.Inv listenfd) (hi : p.maxi < i) : p.waiting i = [] := by
  rw [waiting, List.filter_eq_nil_iff]
  intro fd hfd
  obtain ⟨j, hj⟩ := List.mem_iff_getElem?.mp (Slots.mem_stored.mp hfd)
  rw [List.getElem?_drop] at hj
  have := h.maxi _ _ hj
  omega

end Pool

end InternetLabs.Csapp.Select
