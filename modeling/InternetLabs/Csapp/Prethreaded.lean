/-
# `InternetLabs.Csapp.Prethreaded` — the prethreaded echo server

`echoservert_pre.c`: the main thread accepts connections and inserts their descriptors into the
shared buffer; the workers remove them, echo what comes in and count the bytes (`echo_cnt.c`).
The threads take their steps in any order.  An operation on a semaphore is one step, the load of
`byte_cnt` and the store to it are two; what a thread does with its own connection is one step
for each call.

The kernel holds the open connections (`State.net`), each with the socket it was when it was
accepted; a descriptor that has been closed may be given out again.  A failing call leaves
the program (`exited`): `Accept` or `Close` may fail at any time, reading and writing fail as the
socket says.

What the server does with its buffer is a run of `Sbuf.system` (`buffer_run`).  **The invariant**
has four parts: `Uses` says what is put into the buffer, `Held` that every open descriptor is in one
place, and how far its connection is, `Logged` what has become of the connections that were
accepted, and `Counted` is about `once`, the mutex and the counter.
-/
import InternetLabs.Csapp.Echo
import InternetLabs.Csapp.Sbuf

namespace InternetLabs.Csapp.Prethreaded

open InternetLabs

/-! ## The threads

The main thread and the workers, with what each has in its hands; a step is one access
to what they share, or one call of the kernel. -/

/-- An open connection, and the socket it was at the start. -/
structure Conn where
  fd : Socket
  start : Socket
deriving DecidableEq

/-- The argument and the variables of `echo_cnt`. -/
structure Client where
  connfd : Int
  rio : Rio
  buf : Bytes

/-- What a worker does next: in `thread`, or in `echo_cnt`. -/
inductive WorkerAt where
  | remove
  | call (connfd : Int)
  | once (c : Client)
  | init (c : Client)
  | readinitb (c : Client)
  | readlineb (c : Client)
  | lock (c : Client) (n : Nat)
  | load (c : Client) (n : Nat)
  | store (c : Client) (n : Nat) (cnt : Int)
  | print (c : Client) (n : Nat)
  | unlock (c : Client) (n : Nat)
  | writen (c : Client) (n : Nat)
  | close (connfd : Int)

/-- `pthread_once_t`. -/
inductive Once where
  | never
  | running
  | done
deriving DecidableEq

variable {ι : Type} [DecidableEq ι]

/-- The state of the server; the main thread is `none` in the buffer's pool, worker `i` is
`some i`.  `accepted`, `printed` and `closed` are what has happened. -/
structure State (ι : Type) where
  sbuf : Sbuf.State (Option ι)
  workers : ι → WorkerAt
  once : Once
  mutex : Nat
  byteCnt : Int
  net : Int → Option Conn
  exited : Bool
  accepted : List (Int × Socket)
  printed : List (Nat × Int)
  closed : List (Int × Conn)

/-- What can happen next: `accept` returns a connection or fails, the main thread goes on in
`sbuf_insert`, a worker goes on, or it calls `echo_cnt`, whose arrays hold anything, or its `close`
fails. -/
inductive Action (ι : Type) where
  | accept (result : Option (Int × Socket))
  | main
  | worker (i : ι)
  | call (i : ι) (rio : Rio) (buf : Bytes)
  | closeFails (i : ι)

/-- Worker `i` is at `w` now. -/
def State.move (s : State ι) (i : ι) (w : WorkerAt) : State ι :=
  { s with workers := Function.update s.workers i w }

/-- The socket behind a descriptor is another one now. -/
def State.setFd (s : State ι) (connfd : Int) (conn : Conn) (fd : Socket) : State ι :=
  { s with net := Function.update s.net connfd (some { conn with fd := fd }) }

/-- `unix_error`. -/
def State.exit (s : State ι) : State ι := { s with exited := true }

/-- `int connfd = sbuf_remove(&sbuf)`. -/
def removeStep (s : State ι) (i : ι) : Option (State ι) :=
  match s.sbuf.place (some i) with
  | .outside => (Sbuf.step (.remove (some i)) s.sbuf).map fun sbuf => { s with sbuf := sbuf }
  | .removeSlots connfd =>
      (Sbuf.goStep s.sbuf (some i)).map fun sbuf => { s.move i (.call connfd) with sbuf := sbuf }
  | _ => (Sbuf.goStep s.sbuf (some i)).map fun sbuf => { s with sbuf := sbuf }

/-- `n = Rio_readlineb(&rio, buf, MAXLINE)`, and the test of `n`. -/
def readlineStep (s : State ι) (i : ι) (c : Client) : Option (State ι) :=
  match s.net c.connfd with
  | none => some s.exit
  | some conn =>
      (rioReadlineb maxline ⟨c.rio, conn.fd⟩).map fun (n, stored, r) =>
        let s := s.setFd c.connfd conn r.fd
        if n < 0 then s.exit
        else if n = 0 then s.move i (.close c.connfd)
        else s.move i (.lock { c with rio := r.rp, buf := writeAt c.buf 0 stored } n.toNat)

/-- `Rio_writen(connfd, buf, n)`. -/
def writenStep (s : State ι) (i : ι) (c : Client) (n : Nat) : Option (State ι) :=
  match s.net c.connfd with
  | none => some s.exit
  | some conn =>
      (rioWriten c.buf n conn.fd).map fun (ret, fd) =>
        let s := s.setFd c.connfd conn fd
        if ret = n then s.move i (.readlineb c) else s.exit

/-- `Close(connfd)`. -/
def closeStep (s : State ι) (i : ι) (connfd : Int) : Option (State ι) :=
  match s.net connfd with
  | none => some s.exit
  | some conn =>
      some { s.move i .remove with
        net := Function.update s.net connfd none
        closed := s.closed ++ [(connfd, conn)] }

/-- A worker goes on; `none` where it waits, and where `byte_cnt += n` is undefined. -/
def workerStep (s : State ι) (i : ι) : Option (State ι) :=
  match s.workers i with
  | .remove => removeStep s i
  | .call _ => none
  | .once c =>
      match s.once with
      | .never => some { s.move i (.init c) with once := .running }
      | .running => none
      | .done => some (s.move i (.readinitb c))
  | .init c => some { s.move i (.readinitb c) with once := .done, mutex := 1, byteCnt := 0 }
  | .readinitb c =>
      some (s.move i (.readlineb { c with rio := Rio.readinitb c.rio.rioBuf c.rio.size }))
  | .readlineb c => readlineStep s i c
  | .lock c n =>
      if 0 < s.mutex then some { s.move i (.load c n) with mutex := s.mutex - 1 } else none
  | .load c n => some (s.move i (.store c n s.byteCnt))
  | .store c n cnt =>
      if cnt + n < 2 ^ 31 then some { s.move i (.print c n) with byteCnt := cnt + n } else none
  | .print c n => some { s.move i (.unlock c n) with printed := s.printed ++ [(n, s.byteCnt)] }
  | .unlock c n => some { s.move i (.writen c n) with mutex := s.mutex + 1 }
  | .writen c n => writenStep s i c n
  | .close connfd => closeStep s i connfd

/-- The main thread goes on in `sbuf_insert`. -/
def mainStep (s : State ι) : Option (State ι) :=
  (Sbuf.goStep s.sbuf none).map fun sbuf => { s with sbuf := sbuf }

/-- `Accept`: it returns `connfd`, a descriptor that is not in use, and the main thread calls
`sbuf_insert`; or it fails. -/
def acceptStep (s : State ι) (result : Option (Int × Socket)) : Option (State ι) :=
  match result with
  | none => if s.sbuf.place none = .outside then some s.exit else none
  | some (connfd, fd) =>
      if s.net connfd = none then
        (Sbuf.step (.insert none connfd) s.sbuf).map fun sbuf =>
          { s with
            sbuf := sbuf
            net := Function.update s.net connfd (some ⟨fd, fd⟩)
            accepted := s.accepted ++ [(connfd, fd)] }
      else none

/-- A worker calls `echo_cnt`. -/
def callStep (s : State ι) (i : ι) (rio : Rio) (buf : Bytes) : Option (State ι) :=
  match s.workers i with
  | .call connfd => some (s.move i (.once ⟨connfd, rio, buf⟩))
  | _ => none

/-- `Close` fails for a worker. -/
def closeFailsStep (s : State ι) (i : ι) : Option (State ι) :=
  match s.workers i with
  | .close _ => some s.exit
  | _ => none

def step (a : Action ι) (s : State ι) : Option (State ι) :=
  if s.exited then none
  else match a with
    | .accept result => acceptStep s result
    | .main => mainStep s
    | .worker i => workerStep s i
    | .call i rio buf => callStep s i rio buf
    | .closeFails i => closeFailsStep s i

/-- `main` has called `sbuf_init(&sbuf, n)` and created the workers. -/
structure Start (n : Nat) (s : State ι) : Prop where
  sbuf : Sbuf.Start n s.sbuf
  workers : ∀ i, s.workers i = .remove
  once : s.once = .never
  net : ∀ fd, s.net fd = none
  exited : s.exited = false
  accepted : s.accepted = []
  printed : s.printed = []
  closed : s.closed = []

/-- The server with workers `ι` and a buffer of `n` slots. -/
def system (ι : Type) [DecidableEq ι] (n : Nat) : System (State ι) (Action ι) :=
  .ofStep (Start n) step


/-! ## What a step does

Each step as one of a few cases, with the guards that must hold before it. -/

namespace WorkerAt

/-- The connection a worker is with. -/
def carried : WorkerAt → List Int
  | remove => []
  | call connfd | close connfd => [connfd]
  | once c | init c | readinitb c | readlineb c => [c.connfd]
  | lock c _ | load c _ | store c _ _ | print c _ | unlock c _ | writen c _ => [c.connfd]

end WorkerAt

/-- So much of a connection is done: what has come in has been sent back, or is the `line` at hand,
or is still unread. -/
structure Conn.Served (conn : Conn) (rio : Rio) (line : Bytes) : Prop where
  echoed : ∃ sent, conn.fd.accepted = conn.start.accepted ++ sent ∧
    sent ++ line ++ (⟨rio, conn.fd⟩ : Reader).unread = conn.start.incoming
  reads : conn.start.ReadsQuiet → conn.fd.ReadsQuiet
  writes : conn.start.WritesQuiet → conn.fd.WritesQuiet

namespace WorkerAt

/-- How far the connection of a worker is. -/
def Reached : WorkerAt → Conn → Prop
  | remove, _ => True
  | call _, conn | once _, conn | init _, conn | readinitb _, conn => conn.fd = conn.start
  | readlineb c, conn => conn.Served c.rio []
  | lock c n, conn | load c n, conn | store c n _, conn | print c n, conn | unlock c n, conn
  | writen c n, conn => ∃ line, n = line.length ∧ c.buf.take line.length = line ∧
      conn.Served c.rio line
  | close _, conn => conn.fd.accepted = conn.start.accepted ++ conn.start.incoming

/-- From `w` to `w'` a worker does nothing with its connection. -/
structure Passes (w w' : WorkerAt) : Prop where
  from_ne : w ≠ remove
  to_ne : w' ≠ remove
  carried : w'.carried = w.carried
  reached : ∀ conn, w.Reached conn → w'.Reached conn

end WorkerAt

section Cases
variable {s s' : State ι} {i : ι}

/-- A worker at `sbuf_remove` calls it, goes on in it, or comes back with what it returns. -/
theorem removeStep_cases (hs : removeStep s i = some s') :
    (∃ sbuf, Sbuf.step (.remove (some i)) s.sbuf = some sbuf ∧ s' = { s with sbuf := sbuf }) ∨
      (∃ sbuf, Sbuf.goStep s.sbuf (some i) = some sbuf ∧
        (s.sbuf.place (some i)).returned = [] ∧ s' = { s with sbuf := sbuf }) ∨
      ∃ connfd sbuf, Sbuf.goStep s.sbuf (some i) = some sbuf ∧
        s.sbuf.place (some i) = .removeSlots connfd ∧
        s' = { s.move i (.call connfd) with sbuf := sbuf } := by
  unfold removeStep at hs
  split at hs
  · obtain ⟨sbuf, hsbuf, rfl⟩ := Option.map_eq_some_iff.mp hs
    exact .inl ⟨sbuf, hsbuf, rfl⟩
  next connfd hat =>
    obtain ⟨sbuf, hsbuf, rfl⟩ := Option.map_eq_some_iff.mp hs
    exact .inr (.inr ⟨connfd, sbuf, hsbuf, hat, rfl⟩)
  next hat =>
    obtain ⟨sbuf, hsbuf, rfl⟩ := Option.map_eq_some_iff.mp hs
    refine .inr (.inl ⟨sbuf, hsbuf, ?_, rfl⟩)
    cases hplace : s.sbuf.place (some i) <;> first | rfl | exact (hat _ hplace).elim

theorem acceptStep_cases {result : Option (Int × Socket)} (hs : acceptStep s result = some s') :
    (result = none ∧ s.sbuf.place none = .outside ∧ s' = s.exit) ∨
      ∃ connfd fd sbuf, result = some (connfd, fd) ∧ s.net connfd = none ∧
        Sbuf.step (.insert none connfd) s.sbuf = some sbuf ∧
        s' = { s with
          sbuf := sbuf
          net := Function.update s.net connfd (some ⟨fd, fd⟩)
          accepted := s.accepted ++ [(connfd, fd)] } := by
  cases result with
  | none =>
      obtain ⟨hat, hs⟩ := Option.ite_none_right_eq_some.mp hs
      exact .inl ⟨rfl, hat, (Option.some.inj hs).symm⟩
  | some x =>
      obtain ⟨connfd, fd⟩ := x
      obtain ⟨hclosed, hs⟩ := Option.ite_none_right_eq_some.mp hs
      obtain ⟨sbuf, hsbuf, rfl⟩ := Option.map_eq_some_iff.mp hs
      exact .inr ⟨connfd, fd, sbuf, rfl, hclosed, hsbuf, rfl⟩

omit [DecidableEq ι] in
theorem closeFailsStep_cases (hs : closeFailsStep s i = some s') : s' = s.exit := by
  unfold closeFailsStep at hs
  split at hs
  · exact (Option.some.inj hs).symm
  · cases hs

theorem removeStep_stuck (hplace : s.sbuf.place (some i) ≠ .outside) (hs : removeStep s i = none) :
    Sbuf.goStep s.sbuf (some i) = none := by
  unfold removeStep at hs
  split at hs
  next hat => exact (hplace hat).elim
  all_goals exact Option.map_eq_none_iff.mp hs

theorem Conn.served_start (fd : Socket) (buf : Bytes) (size : buf.length = rioBufsize) :
    Conn.Served ⟨fd, fd⟩ (Rio.readinitb buf size) [] where
  echoed := ⟨[], (List.append_nil _).symm, Reader.unread_of_le (Int.le_refl 0)⟩
  reads := id
  writes := id

/-- A worker that goes on leaves its connection alone, or waits for one, or calls the kernel. -/
theorem workerStep_cases (hs : workerStep s i = some s') :
    (∃ w once mutex byteCnt printed, s' = { s.move i w with
      once := once, mutex := mutex, byteCnt := byteCnt, printed := printed } ∧
      (s.workers i).Passes w) ∨
    (s.workers i = .remove ∧ removeStep s i = some s') ∨
    (∃ c, s.workers i = .readlineb c ∧ readlineStep s i c = some s') ∨
    (∃ c n, s.workers i = .writen c n ∧ writenStep s i c n = some s') ∨
    ∃ connfd, s.workers i = .close connfd ∧ closeStep s i connfd = some s' := by
  unfold workerStep at hs
  split at hs
  next hat => exact .inr (.inl ⟨hat, hs⟩)
  next => cases hs
  next c hat =>
    split at hs
    · cases hs
      exact .inl ⟨_, _, _, _, _, rfl, hat ▸ ⟨nofun, nofun, rfl, fun _ => id⟩⟩
    · cases hs
    · cases hs
      exact .inl ⟨_, _, _, _, _, rfl, hat ▸ ⟨nofun, nofun, rfl, fun _ => id⟩⟩
  next c hat =>
    cases hs
    exact .inl ⟨_, _, _, _, _, rfl, hat ▸ ⟨nofun, nofun, rfl, fun _ => id⟩⟩
  next c hat =>
    cases hs
    refine .inl ⟨_, _, _, _, _, rfl, hat ▸ ⟨nofun, nofun, rfl, fun conn h => ?_⟩⟩
    obtain ⟨fd, start⟩ := conn
    obtain rfl : fd = start := h
    exact Conn.served_start fd c.rio.rioBuf c.rio.size
  next c hat => exact .inr (.inr (.inl ⟨c, hat, hs⟩))
  next c n hat =>
    obtain ⟨-, hs⟩ := Option.ite_none_right_eq_some.mp hs
    cases hs
    exact .inl ⟨_, _, _, _, _, rfl, hat ▸ ⟨nofun, nofun, rfl, fun _ => id⟩⟩
  next c n hat =>
    cases hs
    exact .inl ⟨_, _, _, _, _, rfl, hat ▸ ⟨nofun, nofun, rfl, fun _ => id⟩⟩
  next c n cnt hat =>
    obtain ⟨-, hs⟩ := Option.ite_none_right_eq_some.mp hs
    cases hs
    exact .inl ⟨_, _, _, _, _, rfl, hat ▸ ⟨nofun, nofun, rfl, fun _ => id⟩⟩
  next c n hat =>
    cases hs
    exact .inl ⟨_, _, _, _, _, rfl, hat ▸ ⟨nofun, nofun, rfl, fun _ => id⟩⟩
  next c n hat =>
    cases hs
    exact .inl ⟨_, _, _, _, _, rfl, hat ▸ ⟨nofun, nofun, rfl, fun _ => id⟩⟩
  next c n hat => exact .inr (.inr (.inr (.inl ⟨c, n, hat, hs⟩)))
  next connfd hat => exact .inr (.inr (.inr (.inr ⟨connfd, hat, hs⟩)))

end Cases

/-! ## The buffer

The buffer goes its own way; the server only says what is inserted, and by whom. -/

/-- How the server uses its buffer: the main thread inserts what it accepts, in this order, and the
workers remove. -/
structure Uses (sbuf : Sbuf.State (Option ι)) (workers : ι → WorkerAt)
    (accepted : List (Int × Socket)) : Prop where
  main : (sbuf.place none).inside ≠ some false
  worker : ∀ i, (sbuf.place (some i)).inside ≠ some true
  calling : ∀ i, workers i ≠ .remove → sbuf.place (some i) = .outside
  order : accepted.map Prod.fst = sbuf.inserted ++ (sbuf.place none).inserting

section Buffer
variable {sbuf sbuf' : Sbuf.State (Option ι)} {workers : ι → WorkerAt}
variable {accepted : List (Int × Socket)}

omit [DecidableEq ι] in
theorem inside_goOn {w w' : SbufAt} {b : Bool} (h : w.inside ≠ some b)
    (hw : w' = .outside ∨ w'.inside = w.inside) : w'.inside ≠ some b := by
  obtain rfl | hw := hw
  · exact nofun
  · rwa [hw]

theorem Uses.main_goes (h : Uses sbuf workers accepted) (hs : Sbuf.goStep sbuf none = some sbuf') :
    Uses sbuf' workers accepted where
  main := inside_goOn h.main (Sbuf.goStep_inside hs)
  worker i := by rw [Sbuf.goStep_place hs (Option.some_ne_none i)]; exact h.worker i
  calling i hi := by rw [Sbuf.goStep_place hs (Option.some_ne_none i)]; exact h.calling i hi
  order := by rw [h.order, Sbuf.goStep_inserted hs]

/-- What a worker does in the buffer does not touch what is inserted. -/
theorem Uses.worker_goes (h : Uses sbuf workers accepted) {i : ι}
    (hinside : (sbuf'.place (some i)).inside ≠ some true)
    (hplace : ∀ j, j ≠ some i → sbuf'.place j = sbuf.place j)
    (hinserted : sbuf'.inserted = sbuf.inserted) {w : WorkerAt}
    (hw : w ≠ .remove → sbuf'.place (some i) = .outside) :
    Uses sbuf' (Function.update workers i w) accepted where
  main := by rw [hplace _ (Option.some_ne_none i).symm]; exact h.main
  worker j := by
    by_cases hj : j = i
    · rw [hj]
      exact hinside
    · rw [hplace _ fun heq => hj (Option.some.inj heq)]
      exact h.worker j
  calling j hj := by
    by_cases hij : j = i
    · subst hij
      rw [Function.update_self] at hj
      exact hw hj
    · rw [Function.update_of_ne hij] at hj
      rw [hplace _ fun heq => hij (Option.some.inj heq)]
      exact h.calling j hj
  order := by rw [hinserted, hplace _ (Option.some_ne_none i).symm, h.order]

theorem Uses.go (h : Uses sbuf workers accepted) {i : ι} {w : WorkerAt}
    (hs : Sbuf.goStep sbuf (some i) = some sbuf')
    (hw : w ≠ .remove → sbuf'.place (some i) = .outside) :
    Uses sbuf' (Function.update workers i w) accepted := by
  have hinside := inside_goOn (h.worker i) (Sbuf.goStep_inside hs)
  refine h.worker_goes hinside (fun j hj => Sbuf.goStep_place hs hj) ?_ hw
  have hinserted := Sbuf.goStep_inserted hs
  rwa [SbufAt.inserting_of_inside hinside, SbufAt.inserting_of_inside (h.worker i), List.append_nil,
    List.append_nil] at hinserted

theorem Uses.remove (h : Uses sbuf workers accepted) {i : ι} (hat : workers i = .remove)
    (hs : Sbuf.step (.remove (some i)) sbuf = some sbuf') : Uses sbuf' workers accepted := by
  obtain ⟨-, hs⟩ := Option.ite_none_right_eq_some.mp hs
  cases hs
  rw [← Function.update_eq_self i workers]
  refine h.worker_goes ?_ (fun j hj => ?_) ?_ fun hne => (hne hat).elim
  · rw [Sbuf.State.move_place, Function.update_self]
    exact nofun
  · rw [Sbuf.State.move_place, Function.update_of_ne hj]
  · rfl

theorem Uses.pass (h : Uses sbuf workers accepted) {i : ι} {w : WorkerAt}
    (hw : w ≠ .remove → workers i ≠ .remove) : Uses sbuf (Function.update workers i w) accepted :=
  h.worker_goes (h.worker i) (fun _ _ => rfl) rfl fun hne => h.calling i (hw hne)

theorem Uses.accept (h : Uses sbuf workers accepted) {connfd : Int}
    (hs : Sbuf.step (.insert none connfd) sbuf = some sbuf') (fd : Socket) :
    Uses sbuf' workers (accepted ++ [(connfd, fd)]) := by
  obtain ⟨hat, hs⟩ := Option.ite_none_right_eq_some.mp hs
  cases hs
  refine ⟨?_, fun i => ?_, fun i hi => ?_, ?_⟩
  all_goals rw [Sbuf.State.move_place]
  · rw [Function.update_self]
    exact nofun
  · rw [Function.update_of_ne (Option.some_ne_none i)]
    exact h.worker i
  · rw [Function.update_of_ne (Option.some_ne_none i)]
    exact h.calling i hi
  · have horder := h.order
    rw [hat] at horder
    rw [Function.update_self, List.map_append, horder]
    exact congrArg (· ++ [connfd]) (List.append_nil _)

end Buffer

/-! ## The connections

Where each open connection is: in the buffer, on its way there, or with a worker. -/

/-- **Every open descriptor is in one place**: in the buffer, on its way, or with a worker; `held`
counts it outside of `echo_cnt`. -/
structure Held (held : Int → Nat) (workers : ι → WorkerAt) [Fintype ι] (net : Int → Option Conn) :
    Prop where
  count : ∀ fd, held fd + ∑ i, (workers i).carried.count fd = if (net fd).isSome then 1 else 0
  fresh : ∀ fd conn, 0 < held fd → net fd = some conn → conn.fd = conn.start
  reached : ∀ i fd conn, fd ∈ (workers i).carried → net fd = some conn → (workers i).Reached conn

section Connections
variable [Fintype ι] {held held' : Int → Nat} {workers : ι → WorkerAt}
variable {net net' : Int → Option Conn}

/-- A worker with a connection is the only one. -/
theorem Held.alone (h : Held held workers net) {i : ι} {fd : Int} (hi : fd ∈ (workers i).carried) :
    (net fd).isSome ∧ held fd = 0 ∧ ∀ j, j ≠ i → fd ∉ (workers j).carried := by
  have hcount := h.count fd
  have hpos : 0 < (workers i).carried.count fd := List.count_pos_iff.mpr hi
  have hone := le_sum_pool (fun w : WorkerAt => w.carried.count fd) workers i
  have hle : (if (net fd).isSome then 1 else 0) ≤ 1 := by split <;> omega
  refine ⟨?_, by omega, fun j hj hmem => ?_⟩
  · by_contra hnone
    rw [if_neg hnone] at hcount
    omega
  · have htwo := add_le_sum_pool (fun w : WorkerAt => w.carried.count fd) workers hj.symm
    have hpos' : 0 < (workers j).carried.count fd := List.count_pos_iff.mpr hmem
    omega

/-- A worker moves, and what is held outside and the connections change with it. -/
theorem Held.move (h : Held held workers net) {i : ι} {w : WorkerAt}
    (hcount : ∀ fd, held' fd + w.carried.count fd + (if (net fd).isSome then 1 else 0)
      = held fd + (workers i).carried.count fd + if (net' fd).isSome then 1 else 0)
    (hfresh : ∀ fd conn, 0 < held' fd → net' fd = some conn → conn.fd = conn.start)
    (hothers : ∀ j fd, j ≠ i → fd ∈ (workers j).carried → net' fd = net fd)
    (hreached : ∀ fd conn, fd ∈ w.carried → net' fd = some conn → w.Reached conn) :
    Held held' (Function.update workers i w) net' where
  count fd := by
    have hsum := sum_update (fun w : WorkerAt => w.carried.count fd) workers i w
    have hold := h.count fd
    have hnew := hcount fd
    omega
  fresh := hfresh
  reached j fd conn := by
    by_cases hj : j = i
    · rw [hj, Function.update_self]
      exact hreached fd conn
    · rw [Function.update_of_ne hj]
      intro hmem hnet
      rw [hothers j fd hj hmem] at hnet
      exact h.reached j fd conn hmem hnet

/-- A worker goes on with its connection. -/
theorem Held.pass (h : Held held workers net) {i : ι} {w : WorkerAt} (hw : (workers i).Passes w) :
    Held held (Function.update workers i w) net := by
  refine h.move (fun fd => by rw [hw.carried]) h.fresh (fun _ _ _ _ => rfl)
    fun fd conn hmem hnet => ?_
  rw [hw.carried] at hmem
  exact hw.reached conn (h.reached i fd conn hmem hnet)

/-- A worker gets a connection out of the buffer. -/
theorem Held.call (h : Held held workers net) {i : ι} {connfd : Int} (hat : workers i = .remove)
    (hheld : ∀ fd, held' fd + [connfd].count fd = held fd) :
    Held held' (Function.update workers i (.call connfd)) net := by
  refine h.move (fun fd => ?_) (fun fd conn hpos => h.fresh fd conn ?_) (fun _ _ _ _ => rfl)
    fun fd conn hmem hnet => h.fresh fd conn ?_ hnet
  · rw [← hheld fd, hat]
    rfl
  · have := hheld fd
    omega
  · have hpos : 0 < [connfd].count fd := List.count_pos_iff.mpr hmem
    have := hheld fd
    omega

/-- A worker has called the kernel for its connection. -/
theorem Held.called (h : Held held workers net) {i : ι} {w : WorkerAt} {connfd : Int} {conn : Conn}
    (hi : (workers i).carried = [connfd]) (hw : w.carried = [connfd]) (hopen : (net connfd).isSome)
    (hreached : w.Reached conn) :
    Held held (Function.update workers i w) (Function.update net connfd (some conn)) := by
  have hmem : connfd ∈ (workers i).carried := by rw [hi]; exact List.mem_singleton_self _
  obtain ⟨-, hheld, halone⟩ := h.alone hmem
  refine h.move (fun fd => ?_) (fun fd conn hpos hnet => ?_) (fun j fd hj hfd => ?_)
    fun fd conn' hfd hnet => ?_
  · by_cases hfd : fd = connfd
    · rw [hfd, hi, hw, Function.update_self, if_pos hopen]
      rfl
    · rw [hi, hw, Function.update_of_ne hfd]
  · have hne : fd ≠ connfd := fun heq => by rw [heq, hheld] at hpos; exact Nat.lt_irrefl 0 hpos
    rw [Function.update_of_ne hne] at hnet
    exact h.fresh fd conn hpos hnet
  · exact Function.update_of_ne (fun heq : fd = connfd => halone j hj (heq ▸ hfd)) _ _
  · rw [hw] at hfd
    rw [List.mem_singleton.mp hfd, Function.update_self] at hnet
    rwa [← Option.some.inj hnet]

/-- A worker closes its connection. -/
theorem Held.close (h : Held held workers net) {i : ι} {connfd : Int}
    (hi : (workers i).carried = [connfd]) :
    Held held (Function.update workers i .remove) (Function.update net connfd none) := by
  have hmem : connfd ∈ (workers i).carried := by rw [hi]; exact List.mem_singleton_self _
  obtain ⟨hopen, hheld, halone⟩ := h.alone hmem
  refine h.move (fun fd => ?_) (fun fd conn hpos hnet => ?_) (fun j fd hj hfd => ?_) nofun
  · by_cases hfd : fd = connfd
    · rw [hfd, hi, Function.update_self, if_pos hopen, List.count_singleton_self]
      rfl
    · have hnone : [connfd].count fd = 0 := List.count_eq_zero.mpr (by simpa using hfd)
      rw [hi, Function.update_of_ne hfd, hnone]
      rfl
  · have hne : fd ≠ connfd := fun heq => by rw [heq, hheld] at hpos; exact Nat.lt_irrefl 0 hpos
    rw [Function.update_of_ne hne] at hnet
    exact h.fresh fd conn hpos hnet
  · exact Function.update_of_ne (fun heq : fd = connfd => halone j hj (heq ▸ hfd)) _ _

/-- The main thread accepts a connection. -/
theorem Held.accept (h : Held held workers net) {connfd : Int} (hclosed : net connfd = none)
    (hheld : ∀ fd, held' fd = held fd + [connfd].count fd) (fd : Socket) :
    Held held' workers (Function.update net connfd (some ⟨fd, fd⟩)) where
  count x := by
    have hold := h.count x
    rw [hheld x]
    by_cases hx : x = connfd
    · rw [hx, hclosed] at hold
      rw [hx, Function.update_self, List.count_singleton_self]
      simp only [Option.isSome_none, Option.isSome_some, if_true, Bool.false_eq_true,
        if_false] at hold ⊢
      omega
    · have hnone : [connfd].count x = 0 := List.count_eq_zero.mpr (by simpa using hx)
      rw [Function.update_of_ne hx, hnone]
      exact hold
  fresh x conn hpos hnet := by
    by_cases hx : x = connfd
    · rw [hx, Function.update_self] at hnet
      rw [← Option.some.inj hnet]
    · have hnone : [connfd].count x = 0 := List.count_eq_zero.mpr (by simpa using hx)
      rw [Function.update_of_ne hx] at hnet
      rw [hheld x, hnone] at hpos
      exact h.fresh x conn hpos hnet
  reached i x conn hmem hnet := by
    have hopen := (h.alone hmem).1
    have hx : x ≠ connfd := fun heq => by rw [heq, hclosed] at hopen; cases hopen
    rw [Function.update_of_ne hx] at hnet
    exact h.reached i x conn hmem hnet

end Connections

/-! ## The kernel's answers -/

section Kernel
variable {s s' : State ι} {i : ι} {c : Client} {conn : Conn}

/-- What a worker's call for its connection comes to: the program exits since the socket is not
quiet, or the worker goes on, with its connection as far as it should be. -/
def Called (s s' : State ι) (i : ι) (connfd : Int) (conn : Conn) : Prop :=
  ∃ fd, (s' = (s.setFd connfd conn fd).exit ∧
      ¬ (conn.start.ReadsQuiet ∧ conn.start.WritesQuiet)) ∨
    ∃ w, s' = (s.setFd connfd conn fd).move i w ∧ w.carried = [connfd] ∧
      w.Reached { conn with fd := fd }

theorem readlineStep_called (hnet : s.net c.connfd = some conn) (h : conn.Served c.rio [])
    (hs : readlineStep s i c = some s') : Called s s' i c.connfd conn := by
  obtain ⟨n, stored, r, hread, hsame, hquiet, hline⟩ := readline_cases ⟨c.rio, conn.fd⟩
  obtain ⟨sent, haccepted, hsent⟩ := h.echoed
  simp only [readlineStep, hnet, hread, Option.map_some, Option.some.injEq] at hs
  have hwrites : conn.start.WritesQuiet → r.fd.WritesQuiet := by
    intro hq
    rw [Socket.WritesQuiet, hsame.1]
    exact h.writes hq
  rw [List.append_nil] at hsent
  refine ⟨r.fd, ?_⟩
  cases hline with
  | failed hneg hnot =>
      rw [if_pos hneg] at hs
      exact .inl ⟨hs.symm, fun hq => hnot (h.reads hq.1)⟩
  | eof hzero hend =>
      rw [if_neg (by omega), if_pos hzero] at hs
      rw [hend, List.append_nil] at hsent
      refine .inr ⟨.close c.connfd, hs.symm, rfl, ?_⟩
      change r.fd.accepted = _
      rw [hsame.2, haccepted, hsent]
  | line line hn hpos hstored hrest =>
      rw [if_neg (by omega), if_neg (by omega)] at hs
      rw [hrest, ← List.append_assoc] at hsent
      refine .inr ⟨_, hs.symm, rfl, line, by omega, ?_, ⟨sent, hsame.2.trans haccepted, hsent⟩,
        fun hq => hquiet (h.reads hq), hwrites⟩
      rw [hstored]
      exact take_writeAt_line c.buf line

theorem writenStep_called {n : Nat} (hnet : s.net c.connfd = some conn)
    (h : (WorkerAt.writen c n).Reached conn) (hs : writenStep s i c n = some s') :
    Called s s' i c.connfd conn := by
  obtain ⟨line, hn, hbuf, hserved⟩ := h
  obtain ⟨sent, haccepted, hsent⟩ := hserved.echoed
  obtain ⟨ret, fd, hwrite, hkept, hgood, more, -, hmoved, hall⟩ :=
    writeline_cases (congrArg Nat.cast hn) hbuf conn.fd
  rw [Int.toNat_natCast] at hwrite
  simp only [writenStep, hnet, hwrite, Option.map_some, Option.some.injEq] at hs
  refine ⟨fd, ?_⟩
  by_cases hret : ret = n
  · rw [if_pos hret] at hs
    obtain rfl := hall hret
    refine .inr ⟨.readlineb c, hs.symm, rfl, ⟨sent ++ more, ?_, ?_⟩, fun hq => ?_,
      fun hq => (hgood (hserved.writes hq)).2⟩
    · rw [hmoved, haccepted, List.append_assoc]
    · rw [← hsent, Reader.unread, Reader.unread, hkept.1, List.append_nil]
    · rw [Socket.ReadsQuiet, hkept.2]
      exact hserved.reads hq
  · rw [if_neg hret] at hs
    exact .inl ⟨hs.symm, fun hq => hret (hgood (hserved.writes hq.2)).1⟩

end Kernel

/-! ## What has happened -/

/-- **The log**: each connection is open, or has been closed once with everything echoed. -/
structure Logged (accepted : List (Int × Socket)) (closed : List (Int × Conn))
    (net : Int → Option Conn) : Prop where
  accounted : ∀ x, accepted.count x = (closed.map fun y => (y.1, y.2.start)).count x
    + if (net x.1).map Conn.start = some x.2 then 1 else 0
  echoed : ∀ y ∈ closed, y.2.fd.accepted = y.2.start.accepted ++ y.2.start.incoming

section Log
variable {accepted : List (Int × Socket)} {closed : List (Int × Conn)}
variable {net : Int → Option Conn} {connfd : Int} {conn : Conn}

theorem Logged.mem (h : Logged accepted closed net) (hnet : net connfd = some conn) :
    (connfd, conn.start) ∈ accepted := by
  have hcount := h.accounted (connfd, conn.start)
  rw [if_pos (by rw [hnet]; rfl)] at hcount
  exact List.count_pos_iff.mp (by omega)

theorem start_update (hnet : net connfd = some conn) (fd : Socket) (x : Int) :
    (Function.update net connfd (some { conn with fd := fd }) x).map Conn.start
      = (net x).map Conn.start := by
  by_cases hx : x = connfd
  · rw [hx, Function.update_self, hnet]
    rfl
  · rw [Function.update_of_ne hx]

theorem Logged.called (h : Logged accepted closed net) (hnet : net connfd = some conn)
    (fd : Socket) :
    Logged accepted closed (Function.update net connfd (some { conn with fd := fd })) where
  accounted x := by rw [start_update hnet, h.accounted x]
  echoed := h.echoed

theorem Logged.close (h : Logged accepted closed net) (hnet : net connfd = some conn)
    (hall : conn.fd.accepted = conn.start.accepted ++ conn.start.incoming) :
    Logged accepted (closed ++ [(connfd, conn)]) (Function.update net connfd none) where
  accounted x := by
    have hold := h.accounted x
    obtain ⟨x, start⟩ := x
    rw [List.map_append, List.count_append, List.map_singleton, List.count_singleton]
    by_cases hx : x = connfd
    · subst hx
      rw [hnet] at hold
      rw [Function.update_self]
      simp only [Option.map_some, Option.some.injEq, Option.map_none, reduceCtorEq, if_false,
        beq_iff_eq, Prod.mk.injEq, true_and] at hold ⊢
      exact hold
    · rw [Function.update_of_ne hx]
      simp only [beq_iff_eq, Prod.mk.injEq, Ne.symm hx, false_and, if_false]
      exact hold
  echoed := by
    intro y hy
    obtain hy | rfl := List.mem_append.mp hy |>.imp_right List.mem_singleton.mp
    · exact h.echoed y hy
    · exact hall

theorem Logged.accept (h : Logged accepted closed net) (hclosed : net connfd = none)
    (fd : Socket) : Logged (accepted ++ [(connfd, fd)]) closed
      (Function.update net connfd (some ⟨fd, fd⟩)) where
  accounted x := by
    have hold := h.accounted x
    obtain ⟨x, start⟩ := x
    rw [List.count_append, List.count_singleton]
    by_cases hx : x = connfd
    · subst hx
      rw [hclosed] at hold
      rw [Function.update_self]
      simp only [Option.map_some, Option.some.injEq, Option.map_none, reduceCtorEq, if_false,
        beq_iff_eq, Prod.mk.injEq, true_and] at hold ⊢
      rw [hold, Nat.add_zero]
    · rw [Function.update_of_ne hx]
      simp only [beq_iff_eq, Prod.mk.injEq, Ne.symm hx, false_and, if_false]
      exact hold
  echoed := h.echoed

end Log

/-! ## The counter

`byte_cnt` is initialised once, and each worker adds to it while it has the mutex. -/

namespace WorkerAt

/-- The worker is in `init_echo_cnt`. -/
def initing : WorkerAt → Nat
  | init _ => 1
  | _ => 0

/-- The worker has passed `Pthread_once`. -/
def passed : WorkerAt → Nat
  | readinitb _ | readlineb _ | lock _ _ | load _ _ | store _ _ _ | print _ _ | unlock _ _
  | writen _ _ | close _ => 1
  | _ => 0

/-- The worker has the mutex. -/
def critical : WorkerAt → Nat
  | load _ _ | store _ _ _ | print _ _ | unlock _ _ => 1
  | _ => 0

/-- The bytes that the worker has added to the counter, and not printed yet. -/
def counted : WorkerAt → Nat
  | print _ n => n
  | _ => 0

end WorkerAt

/-- **The counter**: what it holds, once it is initialised, is what has been counted. -/
structure Counted (once : Once) (mutex : Nat) (byteCnt : Int) (workers : ι → WorkerAt) [Fintype ι]
    (printed : List (Nat × Int)) : Prop where
  early : once ≠ .done → ∑ i, (workers i).passed = 0 ∧ printed = []
  initing : ∑ i, (workers i).initing = if once = .running then 1 else 0
  mutex : once = .done → mutex + ∑ i, (workers i).critical = 1
  total : once = .done → byteCnt = (total printed + ∑ i, (workers i).counted : Nat)
  loaded : ∀ i c n cnt, workers i = .store c n cnt → cnt = byteCnt
  totals : RunningTotals printed

section Counter
variable [Fintype ι] {once : Once} {mutex mutex' : Nat} {byteCnt : Int} {workers : ι → WorkerAt}
variable {printed : List (Nat × Int)} {i : ι} {v w : WorkerAt}

/-- A worker goes on and leaves the counter as it is. -/
theorem Counted.move (h : Counted once mutex byteCnt workers printed) (hat : workers i = v)
    (hpassed : w.passed ≤ v.passed ∨ once = .done) (hinit : w.initing = v.initing)
    (hmutex : mutex' + w.critical = mutex + v.critical) (hcounted : w.counted = v.counted)
    (hloaded : ∀ c n cnt, w = .store c n cnt → cnt = byteCnt) :
    Counted once mutex' byteCnt (Function.update workers i w) printed := by
  subst hat
  refine ⟨fun hnot => ?_, ?_, fun hdone => ?_, fun hdone => ?_, fun j c n cnt hj => ?_, h.totals⟩
  · have hsum := sum_update WorkerAt.passed workers i w
    obtain ⟨hzero, hprinted⟩ := h.early hnot
    have hle := hpassed.resolve_right hnot
    exact ⟨by omega, hprinted⟩
  · have hsum := sum_update WorkerAt.initing workers i w
    rw [← h.initing]
    omega
  · have hsum := sum_update WorkerAt.critical workers i w
    have hold := h.mutex hdone
    omega
  · have hsum := sum_update WorkerAt.counted workers i w
    rw [h.total hdone]
    omega
  · by_cases hij : j = i
    · rw [hij, Function.update_self] at hj
      exact hloaded c n cnt hj
    · rw [Function.update_of_ne hij] at hj
      exact h.loaded j c n cnt hj

/-- The only one that runs `init_echo_cnt` does so before the others count. -/
theorem Counted.start (h : Counted .never mutex byteCnt workers printed) {c : Client}
    (hat : workers i = .once c) :
    Counted .running mutex byteCnt (Function.update workers i (.init c)) printed where
  early _ := by
    have hsum := sum_update WorkerAt.passed workers i (.init c)
    obtain ⟨hzero, hprinted⟩ := h.early nofun
    rw [hat] at hsum
    exact ⟨hsum.trans hzero, hprinted⟩
  initing := by
    have hsum := sum_update WorkerAt.initing workers i (.init c)
    rw [hat, h.initing] at hsum
    exact hsum
  mutex := nofun
  total := nofun
  loaded j c' n cnt hj := by
    by_cases hij : j = i
    · rw [hij, Function.update_self] at hj
      cases hj
    · rw [Function.update_of_ne hij] at hj
      exact h.loaded j c' n cnt hj
  totals := h.totals

theorem critical_le_passed (w : WorkerAt) : w.critical ≤ w.passed := by
  cases w <;> first | exact Nat.le_refl _ | exact Nat.zero_le _

theorem counted_of_critical (h : w.critical = 0) : w.counted = 0 := by
  cases w <;> first | rfl | cases h

theorem Counted.init (h : Counted once mutex byteCnt workers printed) {c : Client}
    (hat : workers i = .init c) :
    Counted .done 1 0 (Function.update workers i (.readinitb c)) printed := by
  have hone := le_sum_pool WorkerAt.initing workers i
  have hinit := h.initing
  have hrunning : once = .running := by
    by_contra hnot
    rw [if_neg hnot] at hinit
    rw [hat, hinit] at hone
    exact absurd hone (Nat.not_succ_le_zero 0)
  subst hrunning
  obtain ⟨hzero, rfl⟩ := h.early nofun
  have hnobody : ∀ j, (workers j).passed = 0 := fun j =>
    Nat.le_zero.mp (hzero ▸ le_sum_pool WorkerAt.passed workers j)
  have hcritical : ∀ j, (workers j).critical = 0 := fun j =>
    Nat.le_zero.mp (hnobody j ▸ critical_le_passed (workers j))
  refine ⟨fun hnot => (hnot rfl).elim, ?_, fun _ => ?_, fun _ => ?_,
    fun j c' n cnt hj => ?_, h.totals⟩
  · have hsum := sum_update WorkerAt.initing workers i (.readinitb c)
    rw [hat, hinit] at hsum
    exact Nat.succ.inj hsum
  · have hsum := sum_update WorkerAt.critical workers i (.readinitb c)
    rw [Finset.sum_eq_zero fun j _ => hcritical j, hcritical i] at hsum
    rw [← Nat.add_zero (∑ j, _), hsum]
    rfl
  · have hsum := sum_update WorkerAt.counted workers i (.readinitb c)
    rw [Finset.sum_eq_zero fun j _ => counted_of_critical (hcritical j),
      counted_of_critical (hcritical i)] at hsum
    rw [← Nat.add_zero (∑ j, _), hsum]
    rfl
  · by_cases hij : j = i
    · rw [hij, Function.update_self] at hj
      cases hj
    · rw [Function.update_of_ne hij] at hj
      have hpassed := hnobody j
      rw [hj] at hpassed
      cases hpassed

/-- Who has the mutex has it alone. -/
theorem Counted.alone (h : Counted once mutex byteCnt workers printed)
    (hi : (workers i).critical = 1) :
    once = .done ∧ ∀ j, j ≠ i → (workers j).critical = 0 := by
  have hone := le_sum_pool WorkerAt.critical workers i
  have hdone : once = .done := by
    by_contra hnot
    have hzero := (h.early hnot).1
    have hpassed := le_sum_pool WorkerAt.passed workers i
    have hle := critical_le_passed (workers i)
    omega
  refine ⟨hdone, fun j hj => ?_⟩
  have htwo := add_le_sum_pool WorkerAt.critical workers hj
  have hmutex := h.mutex hdone
  omega

/-- **`byte_cnt += n` loses nothing**: nobody has stored since the load. -/
theorem Counted.store (h : Counted once mutex byteCnt workers printed) {c : Client} {n : Nat}
    {cnt : Int} (hat : workers i = .store c n cnt) :
    Counted once mutex (cnt + n) (Function.update workers i (.print c n)) printed := by
  obtain ⟨hdone, halone⟩ := h.alone (by rw [hat]; rfl)
  obtain rfl := h.loaded i c n cnt hat
  have hpassed := sum_update WorkerAt.passed workers i (.print c n)
  have hinit := sum_update WorkerAt.initing workers i (.print c n)
  have hcritical := sum_update WorkerAt.critical workers i (.print c n)
  have hcounted := sum_update WorkerAt.counted workers i (.print c n)
  rw [hat] at hpassed hinit hcritical hcounted
  refine ⟨fun hnot => (hnot hdone).elim, ?_, fun _ => ?_, fun _ => ?_, fun j c' m cnt' hj => ?_,
    h.totals⟩
  · rw [← h.initing]
    exact hinit
  · have hold := h.mutex hdone
    have hsame : (WorkerAt.store c n cnt).critical = (WorkerAt.print c n).critical := rfl
    omega
  · rw [h.total hdone]
    simp only [WorkerAt.counted] at hcounted ⊢
    omega
  · by_cases hij : j = i
    · rw [hij, Function.update_self] at hj
      cases hj
    · rw [Function.update_of_ne hij] at hj
      have hfree := halone j hij
      rw [hj] at hfree
      cases hfree

/-- What is printed is the total. -/
theorem Counted.print (h : Counted once mutex byteCnt workers printed) {c : Client} {n : Nat}
    (hat : workers i = .print c n) :
    Counted once mutex byteCnt (Function.update workers i (.unlock c n))
      (printed ++ [(n, byteCnt)]) := by
  obtain ⟨hdone, halone⟩ := h.alone (by rw [hat]; rfl)
  have hinit := sum_update WorkerAt.initing workers i (.unlock c n)
  have hcritical := sum_update WorkerAt.critical workers i (.unlock c n)
  have hcounted := sum_update WorkerAt.counted workers i (.unlock c n)
  have hsum : ∑ j, (workers j).counted = n := by
    rw [← Finset.add_sum_erase _ _ (Finset.mem_univ i), hat]
    rw [Finset.sum_eq_zero fun j hj => counted_of_critical (halone j (Finset.ne_of_mem_erase hj))]
    rfl
  rw [hat] at hinit hcritical hcounted
  have htotal := h.total hdone
  rw [hsum] at htotal hcounted
  refine ⟨fun hnot => (hnot hdone).elim, ?_, fun _ => ?_, fun _ => ?_, fun j c' m cnt' hj => ?_,
    h.totals.concat htotal⟩
  · rw [← h.initing]
    exact hinit
  · have hold := h.mutex hdone
    have hsame : (WorkerAt.print c n).critical = (WorkerAt.unlock c n).critical := rfl
    omega
  · rw [total_concat, htotal]
    simp only [WorkerAt.counted] at hcounted ⊢
    omega
  · by_cases hij : j = i
    · rw [hij, Function.update_self] at hj
      cases hj
    · rw [Function.update_of_ne hij] at hj
      exact h.loaded j c' m cnt' hj

end Counter

/-! ## Every step keeps the invariants

The four invariants are put together, and each kind of step is gone through once. -/

section Steps
variable [Fintype ι] {s s' : State ι} {i : ι}

/-- The counter of a state. -/
abbrev State.Counts (s : State ι) : Prop :=
  Counted s.once s.mutex s.byteCnt s.workers s.printed

theorem readlineStep_counts (h : s.Counts) {c : Client} (hat : s.workers i = .readlineb c)
    (hs : readlineStep s i c = some s') : s'.Counts := by
  unfold readlineStep at hs
  split at hs
  · cases hs
    exact h
  · obtain ⟨⟨n, stored, r⟩, -, hs⟩ := Option.map_eq_some_iff.mp hs
    dsimp only at hs
    split at hs
    · cases hs
      exact h
    · split at hs
      all_goals
        cases hs
        exact h.move hat (.inl (Nat.le_refl 1)) rfl rfl rfl nofun

theorem writenStep_counts (h : s.Counts) {c : Client} {n : Nat} (hat : s.workers i = .writen c n)
    (hs : writenStep s i c n = some s') : s'.Counts := by
  unfold writenStep at hs
  split at hs
  · cases hs
    exact h
  · obtain ⟨⟨ret, fd⟩, -, hs⟩ := Option.map_eq_some_iff.mp hs
    dsimp only at hs
    split at hs
    · cases hs
      exact h.move hat (.inl (Nat.le_refl 1)) rfl rfl rfl nofun
    · cases hs
      exact h

theorem closeStep_counts (h : s.Counts) {connfd : Int} (hat : s.workers i = .close connfd)
    (hs : closeStep s i connfd = some s') : s'.Counts := by
  unfold closeStep at hs
  split at hs
  · cases hs
    exact h
  · cases hs
    exact h.move hat (.inl (Nat.zero_le _)) rfl rfl rfl nofun

theorem removeStep_counts (h : s.Counts) (hat : s.workers i = .remove)
    (hs : removeStep s i = some s') : s'.Counts := by
  obtain ⟨sbuf, -, rfl⟩ | ⟨sbuf, -, -, rfl⟩ | ⟨connfd, sbuf, -, -, rfl⟩ := removeStep_cases hs
  · exact h
  · exact h
  · exact h.move hat (.inl (Nat.zero_le _)) rfl rfl rfl nofun

theorem workerStep_counts (h : s.Counts) (hs : workerStep s i = some s') : s'.Counts := by
  unfold workerStep at hs
  split at hs
  next hat => exact removeStep_counts h hat hs
  next => cases hs
  next c hat =>
    split at hs
    next honce =>
      cases hs
      unfold State.Counts at h
      rw [honce] at h
      exact h.start hat
    next => cases hs
    next honce =>
      cases hs
      exact h.move hat (.inr honce) rfl rfl rfl nofun
  next c hat =>
    cases hs
    exact h.init hat
  next c hat =>
    cases hs
    exact h.move hat (.inl (Nat.le_refl 1)) rfl rfl rfl nofun
  next c hat => exact readlineStep_counts h hat hs
  next c n hat =>
    obtain ⟨hpos, hs⟩ := Option.ite_none_right_eq_some.mp hs
    cases hs
    exact h.move hat (.inl (Nat.le_refl 1)) rfl (Nat.sub_add_cancel hpos) rfl nofun
  next c n hat =>
    cases hs
    refine h.move hat (.inl (Nat.le_refl 1)) rfl rfl rfl fun c' n' cnt hstore => ?_
    cases hstore
    rfl
  next c n cnt hat =>
    obtain ⟨-, hs⟩ := Option.ite_none_right_eq_some.mp hs
    cases hs
    exact h.store hat
  next c n hat =>
    cases hs
    exact h.print hat
  next c n hat =>
    cases hs
    exact h.move hat (.inl (Nat.le_refl 1)) rfl rfl rfl nofun
  next c n hat => exact writenStep_counts h hat hs
  next connfd hat => exact closeStep_counts h hat hs

/-- **The invariant of the server.** -/
structure Inv (s : State ι) : Prop where
  counts : s.Counts
  logged : Logged s.accepted s.closed s.net
  uses : Uses s.sbuf s.workers s.accepted
  held : s.exited = false → Held s.sbuf.held s.workers s.net

/-- A worker's call for its connection. -/
theorem Inv.called (h : Inv s) (hexited : s.exited = false) {connfd : Int} {conn : Conn}
    (hcarried : (s.workers i).carried = [connfd]) (hnet : s.net connfd = some conn)
    (hs : Called s s' i connfd conn) (hcounts : s'.Counts) : Inv s' := by
  obtain ⟨fd, ⟨rfl, -⟩ | ⟨w, rfl, hw, hreached⟩⟩ := hs
  · exact ⟨hcounts, h.logged.called hnet fd, h.uses, nofun⟩
  · have hne : s.workers i ≠ .remove := by
      intro heq
      rw [heq] at hcarried
      cases hcarried
    refine ⟨hcounts, h.logged.called hnet fd, h.uses.pass fun _ => hne, fun _ => ?_⟩
    exact (h.held hexited).called hcarried hw (by rw [hnet]; rfl) hreached

theorem Held.open (h : Held s.sbuf.held s.workers s.net) {connfd : Int}
    (hcarried : (s.workers i).carried = [connfd]) :
    ∃ conn, s.net connfd = some conn ∧ (s.workers i).Reached conn := by
  have hmem : connfd ∈ (s.workers i).carried := by rw [hcarried]; exact List.mem_singleton_self _
  obtain ⟨conn, hnet⟩ := Option.isSome_iff_exists.mp (h.alone hmem).1
  exact ⟨conn, hnet, h.reached i connfd conn hmem hnet⟩

theorem removeStep_inv {n : Nat} {items : List Int} (h : Inv s) (hexited : s.exited = false)
    (hbuffer : Sbuf.Inv n s.sbuf items) (hat : s.workers i = .remove)
    (hs : removeStep s i = some s') : Inv s' := by
  have hcounts := removeStep_counts h.counts hat hs
  obtain ⟨sbuf, hsbuf, rfl⟩ | ⟨sbuf, hsbuf, hreturned, rfl⟩ | ⟨connfd, sbuf, hsbuf, hplace, rfl⟩ :=
    removeStep_cases hs
  · refine ⟨hcounts, h.logged, h.uses.remove hat hsbuf, fun _ => ?_⟩
    have hheld : sbuf.held = s.sbuf.held := funext fun x => Sbuf.remove_held hsbuf x
    dsimp only
    rw [hheld]
    exact h.held hexited
  · have huses := h.uses.go hsbuf fun hne => (hne hat).elim
    rw [Function.update_eq_self] at huses
    refine ⟨hcounts, h.logged, huses, fun _ => ?_⟩
    have hheld : sbuf.held = s.sbuf.held := funext fun x => by
      have hgo := Sbuf.goStep_held hbuffer hsbuf x
      rwa [hreturned] at hgo
    dsimp only
    rw [hheld]
    exact h.held hexited
  · refine ⟨hcounts, h.logged, h.uses.go hsbuf fun _ => ?_, fun _ => ?_⟩
    · exact Sbuf.goStep_returned hplace hsbuf
    · refine (h.held hexited).call hat fun fd => ?_
      have hgo := Sbuf.goStep_held hbuffer hsbuf fd
      rwa [hplace] at hgo

theorem workerStep_inv {n : Nat} {items : List Int} (h : Inv s) (hexited : s.exited = false)
    (hbuffer : Sbuf.Inv n s.sbuf items) (hs : workerStep s i = some s') : Inv s' := by
  have hcounts := workerStep_counts h.counts hs
  obtain ⟨w, once, mutex, byteCnt, printed, rfl, hw⟩ | ⟨hat, hs⟩ | ⟨c, hat, hs⟩ | ⟨c, n, hat, hs⟩ |
    ⟨connfd, hat, hs⟩ := workerStep_cases hs
  · exact ⟨hcounts, h.logged, h.uses.pass fun _ => hw.from_ne, fun _ => (h.held hexited).pass hw⟩
  · exact removeStep_inv h hexited hbuffer hat hs
  · have hcarried : (s.workers i).carried = [c.connfd] := by rw [hat]; rfl
    obtain ⟨conn, hnet, hreached⟩ := (h.held hexited).open hcarried
    rw [hat] at hreached
    exact h.called hexited hcarried hnet (readlineStep_called hnet hreached hs) hcounts
  · have hcarried : (s.workers i).carried = [c.connfd] := by rw [hat]; rfl
    obtain ⟨conn, hnet, hreached⟩ := (h.held hexited).open hcarried
    rw [hat] at hreached
    exact h.called hexited hcarried hnet (writenStep_called hnet hreached hs) hcounts
  · have hcarried : (s.workers i).carried = [connfd] := by rw [hat]; rfl
    obtain ⟨conn, hnet, hreached⟩ := (h.held hexited).open hcarried
    rw [hat] at hreached
    simp only [closeStep, hnet, Option.some.injEq] at hs
    subst hs
    exact ⟨hcounts, h.logged.close hnet hreached, h.uses.pass fun hne => (hne rfl).elim,
      fun _ => (h.held hexited).close hcarried⟩

theorem mainStep_inv {n : Nat} {items : List Int} (h : Inv s) (hexited : s.exited = false)
    (hbuffer : Sbuf.Inv n s.sbuf items) (hs : mainStep s = some s') : Inv s' := by
  obtain ⟨sbuf, hsbuf, rfl⟩ := Option.map_eq_some_iff.mp hs
  refine ⟨h.counts, h.logged, h.uses.main_goes hsbuf, fun _ => ?_⟩
  have hheld : sbuf.held = s.sbuf.held := funext fun x => by
    have hgo := Sbuf.goStep_held hbuffer hsbuf x
    rwa [SbufAt.returned_of_inside h.uses.main] at hgo
  dsimp only
  rw [hheld]
  exact h.held hexited

omit [DecidableEq ι] in
theorem Inv.exit (h : Inv s) : Inv s.exit := ⟨h.counts, h.logged, h.uses, nofun⟩

theorem acceptStep_inv (h : Inv s) (hexited : s.exited = false) {result : Option (Int × Socket)}
    (hs : acceptStep s result = some s') : Inv s' := by
  obtain ⟨-, -, rfl⟩ | ⟨connfd, fd, sbuf, -, hclosed, hsbuf, rfl⟩ := acceptStep_cases hs
  · exact h.exit
  · exact ⟨h.counts, h.logged.accept hclosed fd, h.uses.accept hsbuf fd,
      fun _ => (h.held hexited).accept hclosed (Sbuf.insert_held hsbuf) fd⟩

theorem callStep_inv (h : Inv s) (hexited : s.exited = false) {rio : Rio} {buf : Bytes}
    (hs : callStep s i rio buf = some s') : Inv s' := by
  unfold callStep at hs
  split at hs
  next connfd hat =>
    cases hs
    have hpass : (s.workers i).Passes (.once ⟨connfd, rio, buf⟩) :=
      hat ▸ ⟨nofun, nofun, rfl, fun _ => id⟩
    exact ⟨h.counts.move hat (.inl (Nat.le_refl 0)) rfl rfl rfl nofun, h.logged,
      h.uses.pass fun _ => hpass.from_ne, fun _ => (h.held hexited).pass hpass⟩
  · cases hs

/-- **Every step keeps the invariant.** -/
theorem step_inv {n : Nat} {items : List Int} (h : Inv s) (hbuffer : Sbuf.Inv n s.sbuf items)
    {a : Action ι} (hs : step a s = some s') : Inv s' := by
  obtain ⟨hexited, hs⟩ := Option.ite_none_left_eq_some.mp hs
  rw [Bool.not_eq_true] at hexited
  cases a with
  | accept result => exact acceptStep_inv h hexited hs
  | main => exact mainStep_inv h hexited hbuffer hs
  | worker i => exact workerStep_inv h hexited hbuffer hs
  | call i rio buf => exact callStep_inv h hexited hs
  | closeFails i =>
      obtain rfl := closeFailsStep_cases hs
      exact h.exit

end Steps

/-! ## The runs of the server -/

section Runs
variable {n : Nat} {past : List (State ι × Action ι)} {s : State ι}

/-- A step of the server is one of its buffer, or leaves the buffer alone. -/
theorem step_buffer {a : Action ι} {s s' : State ι} (hs : step a s = some s') :
    s'.sbuf = s.sbuf ∨ ∃ b, Sbuf.step b s.sbuf = some s'.sbuf := by
  obtain ⟨-, hs⟩ := Option.ite_none_left_eq_some.mp hs
  cases a with
  | accept result =>
      obtain ⟨-, -, rfl⟩ | ⟨connfd, fd, sbuf, -, -, hsbuf, rfl⟩ := acceptStep_cases hs
      · exact .inl rfl
      · exact .inr ⟨_, hsbuf⟩
  | closeFails i =>
      obtain rfl := closeFailsStep_cases hs
      exact .inl rfl
  | main =>
      obtain ⟨sbuf, hsbuf, rfl⟩ := Option.map_eq_some_iff.mp hs
      exact .inr ⟨.go none, hsbuf⟩
  | call i rio buf =>
      simp only [callStep] at hs
      split at hs
      · cases hs
        exact .inl rfl
      · cases hs
  | worker i =>
      obtain ⟨w, once, mutex, byteCnt, printed, rfl, -⟩ | ⟨-, hs⟩ | ⟨c, -, hs⟩ | ⟨c, n, -, hs⟩ |
        ⟨connfd, -, hs⟩ := workerStep_cases hs
      · exact .inl rfl
      · obtain ⟨sbuf, hsbuf, rfl⟩ | ⟨sbuf, hsbuf, -, rfl⟩ | ⟨connfd, sbuf, hsbuf, -, rfl⟩ :=
          removeStep_cases hs
        · exact .inr ⟨_, hsbuf⟩
        · exact .inr ⟨.go (some i), hsbuf⟩
        · exact .inr ⟨.go (some i), hsbuf⟩
      · unfold readlineStep at hs
        split at hs
        · cases hs
          exact .inl rfl
        · obtain ⟨⟨n, stored, r⟩, -, rfl⟩ := Option.map_eq_some_iff.mp hs
          left
          dsimp only
          split_ifs <;> rfl
      · unfold writenStep at hs
        split at hs
        · cases hs
          exact .inl rfl
        · obtain ⟨⟨ret, fd⟩, -, rfl⟩ := Option.map_eq_some_iff.mp hs
          left
          dsimp only
          split_ifs <;> rfl
      · unfold closeStep at hs
        split at hs <;> cases hs <;> exact .inl rfl

/-- **The buffer of the server** is a shared buffer. -/
theorem buffer_run (h : (system ι n).Run past s) :
    ∃ past', (Sbuf.system (Option ι) n).Run past' s.sbuf :=
  h.project State.sbuf (fun _ (hs : Start n _) => hs.sbuf) fun _ _ _ hs => step_buffer hs

variable [Fintype ι]

omit [DecidableEq ι] in
theorem start_inv (hs : Start n s) : Inv s where
  counts := by
    refine ⟨fun _ => ⟨?_, hs.printed⟩, ?_, fun hdone => ?_, fun hdone => ?_,
      fun i c m cnt hi => ?_, ?_⟩
    · exact Finset.sum_eq_zero fun i _ => by rw [hs.workers i]; rfl
    · rw [if_neg (by rw [hs.once]; exact nofun)]
      exact Finset.sum_eq_zero fun i _ => by rw [hs.workers i]; rfl
    · rw [hs.once] at hdone
      cases hdone
    · rw [hs.once] at hdone
      cases hdone
    · rw [hs.workers i] at hi
      cases hi
    · intro before m cnt after heq
      rw [hs.printed] at heq
      exact absurd heq.symm (List.append_ne_nil_of_right_ne_nil _ (List.cons_ne_nil _ _))
  logged := by
    refine ⟨fun x => ?_, fun y hy => ?_⟩
    · rw [hs.accepted, hs.closed, hs.net]
      rfl
    · rw [hs.closed] at hy
      cases hy
  uses := by
    refine ⟨?_, fun i => ?_, fun i _ => hs.sbuf.outside _, ?_⟩
    · rw [hs.sbuf.outside]
      exact nofun
    · rw [hs.sbuf.outside]
      exact nofun
    · rw [hs.accepted, hs.sbuf.inserted, hs.sbuf.outside]
      rfl
  held _ := by
    have hheld : ∀ fd, s.sbuf.held fd = 0 := by
      intro fd
      rw [Sbuf.State.held, Sbuf.State.waiting, hs.sbuf.inserted, hs.sbuf.removed,
        Finset.sum_eq_zero fun t _ => by rw [hs.sbuf.outside t]; rfl]
      rfl
    refine ⟨fun fd => ?_, fun fd conn hpos => ?_, fun i fd conn hmem => ?_⟩
    · rw [hheld, hs.net, Finset.sum_eq_zero fun i _ => by rw [hs.workers i]; rfl]
      rfl
    · rw [hheld] at hpos
      cases hpos
    · rw [hs.workers i] at hmem
      cases hmem

/-- **Every run keeps the invariant.** -/
theorem run_inv (h : (system ι n).Run past s) : Inv s := by
  induction h with
  | start hs => exact start_inv hs
  | step hrun hs ih =>
      obtain ⟨past', hbuffer⟩ := buffer_run hrun
      obtain ⟨items, hitems⟩ := Sbuf.run_inv hbuffer
      exact step_inv ih hitems hs

/-- The counters of the server are not at their end. -/
def State.Fits (s : State ι) : Prop :=
  s.sbuf.inserted.length + 1 < 2 ^ 31 ∧
    ∀ i c n cnt, s.workers i = .store c n cnt → cnt + n < 2 ^ 31

/-- Nothing is to be done: the main thread is in `Accept`, every worker waits for an item, and no
connection is open. -/
structure State.Idle (s : State ι) : Prop where
  main : s.sbuf.place none = .outside
  workers : ∀ i, s.workers i = .remove ∧ s.sbuf.place (some i) = .removeItems
  net : ∀ fd, s.net fd = none

/-- A worker in `echo_cnt` goes on, unless it waits for another one. -/
theorem worker_goes (h : Inv s) (hexited : s.exited = false) (hfits : s.Fits) {i : ι}
    (hstuck : workerStep s i = none) : s.workers i = .remove ∨
    (∃ connfd, s.workers i = .call connfd) ∨
      ((∃ c, s.workers i = .once c) ∧ s.once = .running) ∨
        (∃ c n, s.workers i = .lock c n) ∧ s.mutex = 0 := by
  unfold workerStep at hstuck
  split at hstuck
  next hat => exact .inl hat
  next connfd hat => exact .inr (.inl ⟨connfd, hat⟩)
  next c hat =>
    split at hstuck
    · cases hstuck
    next honce => exact .inr (.inr (.inl ⟨⟨c, hat⟩, honce⟩))
    · cases hstuck
  next => cases hstuck
  next => cases hstuck
  next c hat =>
    unfold readlineStep at hstuck
    split at hstuck
    · cases hstuck
    next conn hnet =>
      obtain ⟨n, stored, r, hread, -⟩ := readline_cases ⟨c.rio, conn.fd⟩
      rw [hread] at hstuck
      cases hstuck
  next c n hat =>
    refine .inr (.inr (.inr ⟨⟨c, n, hat⟩, ?_⟩))
    by_contra hne
    rw [if_pos (Nat.pos_of_ne_zero hne)] at hstuck
    cases hstuck
  next => cases hstuck
  next c n cnt hat =>
    rw [if_pos (hfits.2 i c n cnt hat)] at hstuck
    cases hstuck
  next => cases hstuck
  next => cases hstuck
  next c n hat =>
    obtain ⟨conn, hnet, hreached⟩ := (h.held hexited).open (i := i) (by rw [hat]; rfl)
    rw [hat] at hreached
    obtain ⟨line, hn, hbuf, -⟩ := hreached
    obtain ⟨ret, fd, hwrite, -⟩ := writeline_cases (congrArg Nat.cast hn) hbuf conn.fd
    rw [Int.toNat_natCast] at hwrite
    simp only [writenStep, hnet, hwrite] at hstuck
    cases hstuck
  next connfd hat =>
    unfold closeStep at hstuck
    split at hstuck <;> cases hstuck

theorem mutex_goes (h : Inv s) (hexited : s.exited = false) (hfits : s.Fits)
    (hstuck : ∀ i, workerStep s i = none) : s.once = .done → s.mutex ≠ 0 := by
  intro hdone hzero
  have hsum := h.counts.mutex hdone
  rw [hzero, Nat.zero_add] at hsum
  obtain ⟨j, -, hj⟩ := Finset.exists_ne_zero_of_sum_ne_zero (hsum.trans_ne Nat.one_ne_zero)
  obtain hat | ⟨connfd, hat⟩ | ⟨⟨c, hat⟩, -⟩ | ⟨⟨c, m, hat⟩, -⟩ :=
    worker_goes h hexited hfits (hstuck j)
  all_goals
    rw [hat] at hj
    exact hj rfl

/-- Nobody waits for `init_echo_cnt` to be run, or somebody who runs it goes on. -/
theorem once_goes (h : Inv s) (hexited : s.exited = false) (hfits : s.Fits)
    (hstuck : ∀ i, workerStep s i = none) : s.once ≠ .running := by
  intro hrunning
  have hsum := h.counts.initing
  rw [if_pos hrunning] at hsum
  obtain ⟨j, -, hj⟩ := Finset.exists_ne_zero_of_sum_ne_zero (hsum.trans_ne Nat.one_ne_zero)
  obtain hat | ⟨connfd, hat⟩ | ⟨⟨c, hat⟩, -⟩ | ⟨⟨c, m, hat⟩, -⟩ :=
    worker_goes h hexited hfits (hstuck j)
  all_goals
    rw [hat] at hj
    exact hj rfl

theorem workers_of_stuck (h : Inv s) (hexited : s.exited = false) (hfits : s.Fits)
    (hstuck : ∀ i, workerStep s i = none) (hcall : ∀ i rio buf, callStep s i rio buf = none)
    (i : ι) :
    s.workers i = .remove := by
  obtain hat | ⟨connfd, hat⟩ | ⟨-, hrunning⟩ | ⟨⟨c, m, hat⟩, hzero⟩ :=
    worker_goes h hexited hfits (hstuck i)
  · exact hat
  · have hnone := hcall i Rio.blank []
    simp only [callStep, hat] at hnone
    cases hnone
  · exact (once_goes h hexited hfits hstuck hrunning).elim
  · refine (mutex_goes h hexited hfits hstuck ?_ hzero).elim
    by_contra hnot
    have hpassed := le_sum_pool WorkerAt.passed s.workers i
    rw [hat, (h.counts.early hnot).1] at hpassed
    exact absurd hpassed (Nat.not_succ_le_zero 0)

/-- What is waited for in an idle server is not there. -/
theorem State.Idle.stuck (hidle : s.Idle) (h : Inv s) (hexited : s.exited = false)
    {items : List Int} (hbuffer : Sbuf.Inv n s.sbuf items) :
    mainStep s = none ∧ (∀ i, workerStep s i = none) ∧ ∀ i rio buf,
    callStep s i rio buf = none := by
  have hempty : items = [] := by
    by_contra hne
    obtain ⟨x, hx⟩ := List.exists_mem_of_ne_nil items hne
    have hcount := (h.held hexited).count x
    rw [hidle.net, Sbuf.State.held, hbuffer.waiting_eq] at hcount
    have hpos := List.count_pos_iff.mpr hx
    have hnone : (none : Option Conn).isSome = true ↔ False := by decide
    rw [if_neg hnone.mp] at hcount
    omega
  have hitems := hbuffer.items
  rw [hempty, List.length_nil] at hitems
  refine ⟨?_, fun i => ?_, fun i rio buf => ?_⟩
  · simp only [mainStep, Sbuf.goStep, hidle.main, Option.map_none]
  · obtain ⟨hat, hplace⟩ := hidle.workers i
    have hnone : Sbuf.goStep s.sbuf (some i) = none := by
      rw [Sbuf.goStep, hplace]
      exact if_neg (by omega)
    simp only [workerStep, hat, removeStep, hplace, hnone, Option.map_none]
  · simp only [callStep, (hidle.workers i).1]

/-- **The server does not deadlock.**  While it has not exited and its counters are not at their
end, with a worker and a slot in the buffer, nothing but a return of `accept` can happen exactly
when all connections are closed, and everybody waits for one. -/
theorem prethreaded_progress [Nonempty ι] (h : (system ι n).Run past s) (hn : 0 < n)
    (hexited : s.exited = false) (hfits : s.Fits) :
    (∀ a, (∀ result, a ≠ .accept result) → step a s = none) ↔ s.Idle := by
  have hinv := run_inv h
  obtain ⟨past', hbuffer⟩ := buffer_run h
  obtain ⟨items, hitems⟩ := Sbuf.run_inv hbuffer
  have hstep : ∀ a, step a s = match a with
      | .accept result => acceptStep s result
      | .main => mainStep s
      | .worker i => workerStep s i
      | .call i rio buf => callStep s i rio buf
      | .closeFails i => closeFailsStep s i := fun a => if_neg (by rw [hexited]; exact nofun)
  constructor
  · intro hstuck
    have hmain : mainStep s = none := (hstep .main).symm.trans (hstuck _ nofun)
    have hworker : ∀ i, workerStep s i = none := fun i =>
      (hstep (.worker i)).symm.trans (hstuck _ nofun)
    have hcall : ∀ i rio buf, callStep s i rio buf = none := fun i rio buf =>
      (hstep (.call i rio buf)).symm.trans (hstuck _ nofun)
    have hat := workers_of_stuck hinv hexited hfits hworker hcall
    have hplace : ∀ i, s.sbuf.place (some i) ≠ .outside := fun i hout => by
      have hnone := hworker i
      simp only [workerStep, hat i, removeStep, hout, Sbuf.step, if_true, Option.map_some] at hnone
      cases hnone
    have hwaits := (Sbuf.sbuf_progress hbuffer hfits.1).mp fun t => by
      cases t with
      | none => exact Option.map_eq_none_iff.mp hmain
      | some i =>
          exact removeStep_stuck (hplace i) (by simpa only [workerStep, hat i] using hworker i)
    have hremove : ∀ i, s.sbuf.place (some i) = .removeItems ∧
        s.sbuf.inserted.length = s.sbuf.removed.length := by
      intro i
      obtain hout | ⟨⟨item, hins⟩, -⟩ | hempty := hwaits (some i)
      · exact (hplace i hout).elim
      · exact (hinv.uses.worker i (by rw [hins]; rfl)).elim
      · exact hempty
    obtain ⟨i⟩ := ‹Nonempty ι›
    have hlen := (hremove i).2
    have hout : s.sbuf.place none = .outside := by
      obtain hout | ⟨-, hfull⟩ | ⟨hrem, -⟩ := hwaits none
      · exact hout
      · omega
      · exact (hinv.uses.main (by rw [hrem]; rfl)).elim
    refine ⟨hout, fun i => ⟨hat i, (hremove i).1⟩, fun fd => ?_⟩
    have hcount := (hinv.held hexited).count fd
    have hwaiting : s.sbuf.waiting = [] := List.drop_eq_nil_of_le hlen.le
    rw [Sbuf.State.held, hwaiting, Finset.sum_eq_zero fun t _ => ?_,
      Finset.sum_eq_zero fun i _ => by rw [hat i]; rfl] at hcount
    · by_contra hne
      rw [if_pos (Option.isSome_iff_ne_none.mpr hne)] at hcount
      cases hcount
    · cases t with
      | none => rw [hout]; rfl
      | some i => rw [(hremove i).1]; rfl
  · intro hidle a ha
    obtain ⟨hmain, hworker, hcall⟩ := hidle.stuck hinv hexited hitems
    rw [hstep a]
    cases a with
    | accept result => exact (ha result rfl).elim
    | main => exact hmain
    | worker i => exact hworker i
    | call i rio buf => exact hcall i rio buf
    | closeFails i => simp only [closeFailsStep, (hidle.workers i).1]

end Runs

/-! ## A connection that is served -/

/-- One worker, a buffer of one slot, and memory of any content. -/
def State.start : State Unit where
  sbuf := ⟨⟨[0], 1, 0, 0, 1, 1, 0⟩, fun _ => .outside, [], []⟩
  workers _ := .remove
  once := .never
  mutex := 0
  byteCnt := 0
  net _ := none
  exited := false
  accepted := []
  printed := []
  closed := []

theorem State.start_start : Start 1 State.start :=
  ⟨⟨rfl, rfl, rfl, rfl, rfl, rfl, rfl, fun _ => rfl, rfl, rfl⟩, fun _ => rfl,
    rfl, fun _ => rfl, rfl, rfl, rfl, rfl⟩

def oneLine : Socket where
  incoming := ascii "hi" ++ [newline]
  reads := [.moved 1, .interrupted]
  writes := [.moved 2]
  accepted := []
  eintr := false

/-- The connection is accepted and served, and the worker waits for the next one. -/
def service : List (Action Unit) :=
  .accept (some (4, oneLine)) :: List.replicate 5 .main ++ List.replicate 6 (.worker ())
    ++ .call () Rio.blank [] :: List.replicate 13 (.worker ())

theorem service_exec : ∃ past s, (system Unit 1).Run past s ∧ s.exited = false ∧
    s.closed.map Prod.fst = [4] ∧ s.printed = [(3, 3)] ∧ s.sbuf.inserted = [4] ∧
    (s.workers ()).carried = [] := by
  have hexec : ((System.exec step service State.start).any fun s =>
      decide (s.exited = false ∧ s.closed.map Prod.fst = [4] ∧ s.printed = [(3, 3)] ∧
        s.sbuf.inserted = [4] ∧ (s.workers ()).carried = [])) = true := by decide +kernel
  obtain ⟨s, hs, hend⟩ := (Option.any_eq_true _ _).mp hexec
  have hstart : (system Unit 1).Run [] State.start := .start State.start_start
  obtain ⟨past, -, hrun⟩ := hstart.exec hs
  exact ⟨past, s, hrun, of_decide_eq_true hend⟩

theorem prethreaded_progress_service : ∃ past s, (system Unit 1).Run past s ∧
    s.closed.map Prod.fst = [4] ∧
    ((∀ a, (∀ result, a ≠ .accept result) → step a s = none) ↔ s.Idle) := by
  obtain ⟨past, s, hrun, hexited, hclosed, -, hinserted, hworker⟩ := service_exec
  refine ⟨past, s, hrun, hclosed, prethreaded_progress hrun Nat.one_pos hexited ⟨?_, ?_⟩⟩
  · rw [hinserted]
    decide
  · intro i c n cnt hat
    rw [hat] at hworker
    cases hworker

end InternetLabs.Csapp.Prethreaded
