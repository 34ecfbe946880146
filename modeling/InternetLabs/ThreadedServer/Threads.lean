/-
# `InternetLabs.ThreadedServer.Threads` — the main thread and the workers

The main thread accepts clients and pushes them to the queue, the workers pop them
and handle them.  Two semaphores count the free slots of the queue and the clients
in it, a mutex guards it.  Each operation on one of them, `accept` and
`handle_client` are one step each; the threads take them in any order (`system`).

`accepted`, `popped` and `handled` are what has happened so far: the clients
`accept` has returned, those a worker has popped, and those a worker has passed to
`handle_client`.  `sem_wait` and `accept` are interrupted by the signal that stops
the server only.  What `main` does once `http_server_run` has returned — it joins
the workers and frees the queue — is left out.

**The invariant** (`Inv`).  A token of a semaphore that a thread has taken, and not
acted on yet, is counted with that thread: `MainAt.slot`, `WorkerAt.token` and their
siblings say for each place in the code what the thread there holds.
-/
import InternetLabs.Lib.System
import InternetLabs.ThreadedServer.Queue

namespace InternetLabs.ThreadedServer

open InternetLabs

/-! ## The threads -/

/-- What the main thread does next in `http_server_run`; `interrupted` is the return
after an interrupted `accept`. -/
inductive MainAt where
  | top
  | waitNotFull
  | accept
  | lock (item : QueueItem)
  | push (item : QueueItem)
  | post
  | unlock
  | interrupted
  | returned
deriving DecidableEq

/-- What a thread does next in `worker`. -/
inductive WorkerAt where
  | top
  | waitNotEmpty
  | lock
  | pop
  | post (item : QueueItem)
  | unlock (item : QueueItem)
  | handle (item : QueueItem)
  | returned
deriving DecidableEq

/-- A thread of the server. -/
inductive Thread (n : Nat) where
  | main
  | worker (i : Fin n)
deriving DecidableEq

/-- The world the threads share, where they are, and what has happened. -/
structure State (n : Nat) where
  serverRunning : Bool
  qNotFull : Nat
  qNotEmpty : Nat
  wMutex : Option (Thread n)
  qSize : Int
  queue : List QueueItem
  main : MainAt
  workers : Fin n → WorkerAt
  accepted : List QueueItem
  popped : List (Fin n × QueueItem)
  handled : List (Fin n × QueueItem)

/-- What can happen next.  `signal` is `SIGINT`. -/
inductive Action (n : Nat) where
  | signal
  | main
  | mainInterrupted
  | accepted (item : QueueItem)
  | acceptFailed
  | worker (i : Fin n)
  | workerInterrupted (i : Fin n)
deriving DecidableEq

variable {n : Nat}

/-- The main thread goes on, except in `accept`. -/
def mainStep (s : State n) : Option (State n) :=
  match s.main with
  | .top => some { s with main := if s.serverRunning then .waitNotFull else .returned }
  | .waitNotFull =>
      if 0 < s.qNotFull then some { s with qNotFull := s.qNotFull - 1, main := .accept } else none
  | .accept => none
  | .lock item =>
      if s.wMutex = none then some { s with wMutex := some .main, main := .push item } else none
  | .push item =>
      (push s.queue s.qSize item).map fun (queue, qSize) =>
        { s with queue := queue, qSize := qSize, main := .post }
  | .post => some { s with qNotEmpty := s.qNotEmpty + 1, main := .unlock }
  | .unlock => some { s with wMutex := none, main := .top }
  | .interrupted => none
  | .returned => none

/-- Worker `i` is at `w` now. -/
def State.move (s : State n) (i : Fin n) (w : WorkerAt) : State n :=
  { s with workers := Function.update s.workers i w }

def workerStep (s : State n) (i : Fin n) : Option (State n) :=
  match s.workers i with
  | .top => some (s.move i (if s.serverRunning then .waitNotEmpty else .returned))
  | .waitNotEmpty =>
      if 0 < s.qNotEmpty then some { s.move i .lock with qNotEmpty := s.qNotEmpty - 1 } else none
  | .lock =>
      if s.wMutex = none then some { s.move i .pop with wMutex := some (.worker i) } else none
  | .pop =>
      (pop s.queue s.qSize).map fun (item, queue, qSize) =>
        { s.move i (.post item) with
          queue := queue
          qSize := qSize
          popped := s.popped ++ [(i, item)] }
  | .post item => some { s.move i (.unlock item) with qNotFull := s.qNotFull + 1 }
  | .unlock item => some { s.move i (.handle item) with wMutex := none }
  | .handle item => some { s.move i .top with handled := s.handled ++ [(i, item)] }
  | .returned => none

def step (a : Action n) (s : State n) : Option (State n) :=
  match a with
  | .signal => some { s with serverRunning := false }
  | .main => mainStep s
  | .mainInterrupted =>
      if s.serverRunning then none
      else match s.main with
        | .waitNotFull => some { s with main := .returned }
        | .accept => some { s with main := .interrupted }
        | _ => none
  | .accepted item =>
      if s.main = .accept then some { s with main := .lock item, accepted := s.accepted ++ [item] }
      else none
  | .acceptFailed => if s.main = .accept then some { s with main := .top } else none
  | .worker i => workerStep s i
  | .workerInterrupted i =>
      if s.serverRunning then none
      else if s.workers i = .waitNotEmpty then some (s.move i .returned) else none

/-- `main` has created the threads: the queue is empty, in a block of any content. -/
structure Start (maxQSize : Nat) (s : State n) : Prop where
  serverRunning : s.serverRunning = true
  qNotFull : s.qNotFull = maxQSize
  qNotEmpty : s.qNotEmpty = 0
  wMutex : s.wMutex = none
  qSize : s.qSize = 0
  queue : s.queue.length = maxQSize
  main : s.main = .top
  workers : ∀ i, s.workers i = .top
  accepted : s.accepted = []
  popped : s.popped = []
  handled : s.handled = []

/-- The start with a given block for the queue. -/
def State.start (n : Nat) (queue : List QueueItem) : State n where
  serverRunning := true
  qNotFull := queue.length
  qNotEmpty := 0
  wMutex := none
  qSize := 0
  queue := queue
  main := .top
  workers _ := .top
  accepted := []
  popped := []
  handled := []

theorem State.start_start (n : Nat) (queue : List QueueItem) :
    Start queue.length (State.start n queue) :=
  ⟨rfl, rfl, rfl, rfl, rfl, rfl, rfl, fun _ => rfl, rfl, rfl, rfl⟩

/-- The threaded server with `n` workers. -/
def system (n maxQSize : Nat) : System (State n) (Action n) := .ofStep (Start maxQSize) step

/-! ## What a thread holds

Slots, tokens and clients that are neither in the queue nor in a semaphore are with a
thread. -/

/-- A slot of the queue, taken with `sem_wait` and not filled yet. -/
def MainAt.slot : MainAt → Nat
  | .accept | .lock _ | .push _ | .interrupted => 1
  | _ => 0

/-- A client in the queue that `q_not_empty` does not count yet. -/
def MainAt.unannounced : MainAt → Nat
  | .post => 1
  | _ => 0

/-- An accepted client on its way to the queue. -/
def MainAt.carried : MainAt → List QueueItem
  | .lock item | .push item => [item]
  | _ => []

/-- A slot of the queue, emptied and not given back yet. -/
def WorkerAt.slot : WorkerAt → Nat
  | .post _ => 1
  | _ => 0

/-- A client in the queue that `q_not_empty` does not count any more. -/
def WorkerAt.token : WorkerAt → Nat
  | .lock | .pop => 1
  | _ => 0

/-- A popped client on its way to `handle_client`. -/
def WorkerAt.carried : WorkerAt → List QueueItem
  | .post item | .unlock item | .handle item => [item]
  | _ => []

/-- The clients of worker `i` in a log. -/
def clientsOf (i : Fin n) (log : List (Fin n × QueueItem)) : List QueueItem :=
  (log.filter (·.1 = i)).map Prod.snd

/-- How often `accept` has failed. -/
def failures (past : List (State n × Action n)) : Nat :=
  past.countP fun x => x.2 = .acceptFailed

/-- **The invariant**, with the clients in the queue. -/
structure Inv (maxQSize : Nat) (past : List (State n × Action n)) (s : State n)
    (items : List QueueItem) : Prop where
  waiting : Waiting s.queue s.qSize items
  queue : s.queue.length = maxQSize
  slots : s.qNotFull + items.length + s.main.slot + ∑ i, (s.workers i).slot + failures past
    = maxQSize
  clients : s.qNotEmpty + s.main.unannounced + ∑ i, (s.workers i).token = items.length
  accepted : s.accepted = s.popped.map Prod.snd ++ items ++ s.main.carried
  popped : ∀ i, clientsOf i s.popped = clientsOf i s.handled ++ (s.workers i).carried

/-! ## A step keeps the invariant

One case for each line of the two functions. -/

section Move
variable (s : State n) (i : Fin n) (w : WorkerAt)

theorem State.move_slot : ∑ j, ((s.move i w).workers j).slot + (s.workers i).slot
    = ∑ j, (s.workers j).slot + w.slot :=
  sum_update WorkerAt.slot s.workers i w

theorem State.move_token : ∑ j, ((s.move i w).workers j).token + (s.workers i).token
    = ∑ j, (s.workers j).token + w.token :=
  sum_update WorkerAt.token s.workers i w

theorem failures_concat (past : List (State n × Action n)) (a : Action n) :
    failures (past ++ [(s, a)]) = failures past + if a = .acceptFailed then 1 else 0 := by
  simp [failures]

theorem clientsOf_concat (j : Fin n) (log : List (Fin n × QueueItem)) (item : QueueItem) :
    clientsOf j (log ++ [(i, item)]) = clientsOf j log ++ if i = j then [item] else [] := by
  by_cases h : i = j <;> simp [clientsOf, h]

end Move

variable {maxQSize : Nat} {past : List (State n × Action n)} {s s' : State n}
variable {items : List QueueItem}

/-- A worker goes on without touching the queue or a log. -/
theorem Inv.move (h : Inv maxQSize past s items) {i : Fin n} {w : WorkerAt} {a : Action n}
    (ha : a ≠ .acceptFailed) (hcarried : w.carried = (s.workers i).carried) {notFull notEmpty : Nat}
    (hslots : notFull + w.slot = s.qNotFull + (s.workers i).slot)
    (hclients : notEmpty + w.token = s.qNotEmpty + (s.workers i).token)
    (mutex : Option (Thread n)) :
    Inv maxQSize (past ++ [(s, a)])
      { s.move i w with qNotFull := notFull, qNotEmpty := notEmpty, wMutex := mutex } items where
  waiting := h.waiting
  queue := h.queue
  slots := by
    have hmove := s.move_slot i w
    have hold := h.slots
    rw [failures_concat, if_neg ha]
    simp only [State.move] at hmove ⊢
    omega
  clients := by
    have hmove := s.move_token i w
    have hold := h.clients
    simp only [State.move] at hmove ⊢
    omega
  accepted := h.accepted
  popped j := by
    have hold := h.popped j
    by_cases hj : j = i
    · subst hj
      simp only [State.move, Function.update_self, hcarried, hold]
    · simp only [State.move, Function.update_of_ne hj, hold]

/-- A worker takes the first client out of the queue. -/
theorem Inv.pop {item : QueueItem} (h : Inv maxQSize past s (item :: items)) {i : Fin n}
    (hat : s.workers i = .pop) {queue' : List QueueItem}
    (hlen : queue'.length = s.queue.length) (hwaiting : Waiting queue' (s.qSize - 1) items) :
    Inv maxQSize (past ++ [(s, .worker i)])
      { s.move i (.post item) with
        queue := queue'
        qSize := s.qSize - 1
        popped := s.popped ++ [(i, item)] } items where
  waiting := hwaiting
  queue := hlen.trans h.queue
  slots := by
    have hslot : ∑ j, ((s.move i (.post item)).workers j).slot = ∑ j, (s.workers j).slot + 1 := by
      have := s.move_slot i (.post item)
      rwa [hat] at this
    have hold := h.slots
    rw [List.length_cons] at hold
    rw [failures_concat, if_neg (by simp)]
    simp only [State.move] at hslot ⊢
    omega
  clients := by
    have htoken : ∑ j, ((s.move i (.post item)).workers j).token + 1
        = ∑ j, (s.workers j).token := by
      have := s.move_token i (.post item)
      rwa [hat] at this
    have hold := h.clients
    rw [List.length_cons] at hold
    simp only [State.move] at htoken ⊢
    omega
  accepted := by
    simp only [State.move, h.accepted, List.map_append, List.append_assoc]
    rfl
  popped j := by
    have hold := h.popped j
    simp only [clientsOf_concat, hold, State.move]
    by_cases hj : i = j
    · subst hj
      rw [if_pos rfl, Function.update_self, hat]
      simp [WorkerAt.carried]
    · rw [if_neg hj, Function.update_of_ne (Ne.symm hj), List.append_nil]

theorem Inv.handle (h : Inv maxQSize past s items) {i : Fin n} {item : QueueItem}
    (hat : s.workers i = .handle item) :
    Inv maxQSize (past ++ [(s, .worker i)])
      { s.move i .top with handled := s.handled ++ [(i, item)] } items where
  waiting := h.waiting
  queue := h.queue
  slots := by
    have hslot : ∑ j, ((s.move i .top).workers j).slot = ∑ j, (s.workers j).slot := by
      have := s.move_slot i .top
      rwa [hat] at this
    have hold := h.slots
    rw [failures_concat, if_neg (by simp)]
    simp only [State.move] at hslot ⊢
    omega
  clients := by
    have htoken : ∑ j, ((s.move i .top).workers j).token = ∑ j, (s.workers j).token := by
      have := s.move_token i .top
      rwa [hat] at this
    have hold := h.clients
    simp only [State.move] at htoken ⊢
    omega
  accepted := h.accepted
  popped j := by
    have hold := h.popped j
    simp only [clientsOf_concat, State.move]
    rw [hold]
    by_cases hj : i = j
    · subst hj
      rw [if_pos rfl, Function.update_self, hat]
      simp [WorkerAt.carried]
    · rw [if_neg hj, Function.update_of_ne (Ne.symm hj), List.append_nil]

theorem workerStep_inv {i : Fin n} (h : Inv maxQSize past s items)
    (hs : workerStep s i = some s') :
    ∃ items', Inv maxQSize (past ++ [(s, .worker i)]) s' items' := by
  unfold workerStep at hs
  split at hs
  next hat =>
    cases hs
    refine ⟨items, h.move (by simp) ?_ ?_ ?_ s.wMutex⟩
    all_goals rw [hat]; split <;> rfl
  next hat =>
    split at hs
    next hpos =>
      cases hs
      refine ⟨items, h.move (by simp) ?_ ?_ ?_ s.wMutex⟩
      · rw [hat]; rfl
      · rw [hat]; rfl
      · rw [hat]
        change s.qNotEmpty - 1 + 1 = s.qNotEmpty + 0
        omega
    · cases hs
  next hat =>
    split at hs
    · cases hs
      refine ⟨items, h.move (by simp) ?_ ?_ ?_ (some (.worker i))⟩
      all_goals rw [hat]; rfl
    · cases hs
  next hat =>
    -- the token the worker holds is for a client in the queue
    have htoken : 1 ≤ ∑ j, (s.workers j).token := by
      have := le_sum_pool WorkerAt.token s.workers i
      rw [hat] at this
      exact this
    match items with
    | [] =>
        have hclients := h.clients
        rw [List.length_nil] at hclients
        omega
    | item :: items =>
        obtain ⟨queue', hpop, hlen, hwaiting⟩ := pop_waiting h.waiting
        rw [hpop] at hs
        cases hs
        exact ⟨items, h.pop hat hlen hwaiting⟩
  next item hat =>
    cases hs
    refine ⟨items, h.move (by simp) ?_ ?_ ?_ s.wMutex⟩
    all_goals rw [hat]; rfl
  next item hat =>
    cases hs
    refine ⟨items, h.move (by simp) ?_ ?_ ?_ none⟩
    all_goals rw [hat]; rfl
  next item hat =>
    cases hs
    exact ⟨items, h.handle hat⟩
  · cases hs

/-- The main thread goes on without touching the queue. -/
theorem Inv.main (h : Inv maxQSize past s items) {m : MainAt} {a : Action n}
    (hcarried : m.carried = s.main.carried) {notFull notEmpty : Nat}
    (hslots : notFull + m.slot + (if a = .acceptFailed then 1 else 0) = s.qNotFull + s.main.slot)
    (hclients : notEmpty + m.unannounced = s.qNotEmpty + s.main.unannounced)
    (mutex : Option (Thread n)) :
    Inv maxQSize (past ++ [(s, a)])
      { s with qNotFull := notFull, qNotEmpty := notEmpty, wMutex := mutex, main := m } items where
  waiting := h.waiting
  queue := h.queue
  slots := by
    have hold := h.slots
    rw [failures_concat]
    simp only
    omega
  clients := by
    have hold := h.clients
    simp only
    omega
  accepted := by rw [show s.accepted = _ from h.accepted, hcarried]
  popped := h.popped

/-- The main thread puts its client into the queue. -/
theorem Inv.push (h : Inv maxQSize past s items) {item : QueueItem} (hat : s.main = .push item)
    {queue' : List QueueItem} (hlen : queue'.length = s.queue.length)
    (hwaiting : Waiting queue' (s.qSize + 1) (items ++ [item])) :
    Inv maxQSize (past ++ [(s, .main)])
      { s with queue := queue', qSize := s.qSize + 1, main := .post } (items ++ [item]) where
  waiting := hwaiting
  queue := hlen.trans h.queue
  slots := by
    have hold := h.slots
    rw [hat] at hold
    change _ + _ + 1 + _ + _ = _ at hold
    rw [failures_concat, if_neg (by simp), List.length_append]
    change _ + (items.length + 1) + 0 + _ + (_ + 0) = _
    omega
  clients := by
    have hold := h.clients
    rw [hat] at hold
    change _ + 0 + _ = _ at hold
    rw [List.length_append]
    change s.qNotEmpty + 1 + ∑ i, (s.workers i).token = items.length + 1
    omega
  accepted := by
    have hold := h.accepted
    rw [hat] at hold
    simp only [hold, MainAt.carried, List.append_assoc, List.append_nil]
  popped := h.popped

theorem mainStep_inv (h : Inv maxQSize past s items) (hs : mainStep s = some s') :
    ∃ items', Inv maxQSize (past ++ [(s, .main)]) s' items' := by
  unfold mainStep at hs
  split at hs
  next hat =>
    cases hs
    refine ⟨items, h.main ?_ ?_ ?_ s.wMutex⟩
    all_goals rw [hat]; split <;> rfl
  next hat =>
    split at hs
    next hpos =>
      cases hs
      refine ⟨items, h.main (by rw [hat]; rfl) ?_ (by rw [hat]; rfl) s.wMutex⟩
      rw [hat]
      change s.qNotFull - 1 + 1 + 0 = s.qNotFull + 0
      omega
    · cases hs
  · cases hs
  next item hat =>
    split at hs
    · cases hs
      refine ⟨items, h.main ?_ ?_ ?_ (some .main)⟩
      all_goals rw [hat]; rfl
    · cases hs
  next item hat =>
    -- the slot the main thread holds is free
    have hroom : items.length < s.queue.length := by
      have hslots := h.slots
      rw [hat] at hslots
      change _ + _ + 1 + _ + _ = _ at hslots
      rw [h.queue]
      omega
    obtain ⟨queue', hpush, hlen, hwaiting⟩ := push_waiting h.waiting hroom item
    rw [hpush] at hs
    cases hs
    exact ⟨items ++ [item], h.push hat hlen hwaiting⟩
  next hat =>
    cases hs
    refine ⟨items, h.main (by rw [hat]; rfl) (by rw [hat]; rfl) ?_ s.wMutex⟩
    rw [hat]
    rfl
  next hat =>
    cases hs
    refine ⟨items, h.main ?_ ?_ ?_ none⟩
    all_goals rw [hat]; rfl
  · cases hs
  · cases hs

theorem step_inv {a : Action n} (h : Inv maxQSize past s items) (hs : step a s = some s') :
    ∃ items', Inv maxQSize (past ++ [(s, a)]) s' items' := by
  cases a with
  | signal =>
      cases hs
      refine ⟨items, h.waiting, h.queue, ?_, h.clients, h.accepted, h.popped⟩
      rw [failures_concat, if_neg (by simp)]
      exact h.slots
  | main => exact mainStep_inv h hs
  | mainInterrupted =>
      simp only [step] at hs
      split at hs
      · cases hs
      split at hs
      next hat =>
        cases hs
        refine ⟨items, h.main ?_ ?_ ?_ s.wMutex⟩
        all_goals rw [hat]; rfl
      next hat =>
        cases hs
        refine ⟨items, h.main ?_ ?_ ?_ s.wMutex⟩
        all_goals rw [hat]; rfl
      · cases hs
  | accepted item =>
      simp only [step] at hs
      split at hs
      next hat =>
        cases hs
        have hslots := h.slots
        have hclients := h.clients
        have hold := h.accepted
        rw [hat] at hslots hclients hold
        refine ⟨items, h.waiting, h.queue, ?_, hclients, ?_, h.popped⟩
        · rw [failures_concat, if_neg (by simp)]
          exact hslots
        · simp only [hold, MainAt.carried, List.append_nil]
      · cases hs
  | acceptFailed =>
      simp only [step] at hs
      split at hs
      next hat =>
        cases hs
        refine ⟨items, h.main ?_ ?_ ?_ s.wMutex⟩
        all_goals rw [hat]; rfl
      · cases hs
  | worker i => exact workerStep_inv h hs
  | workerInterrupted i =>
      simp only [step] at hs
      split at hs
      · cases hs
      split at hs
      next hat =>
        cases hs
        refine ⟨items, h.move (by simp) ?_ ?_ ?_ s.wMutex⟩
        all_goals rw [hat]; rfl
      · cases hs

/-- **Every run keeps the invariant.** -/
theorem run_inv (h : (system n maxQSize).Run past s) : ∃ items, Inv maxQSize past s items := by
  refine h.invariant (I := fun past s => ∃ items, Inv maxQSize past s items) (fun s hs => ?_)
    fun past s a s' ih hs => ?_
  · refine ⟨[], ⟨hs.qSize, List.nil_prefix⟩, hs.queue, ?_, ?_, ?_, fun i => ?_⟩
    · simp [hs.qNotFull, hs.main, hs.workers, MainAt.slot, WorkerAt.slot, failures]
    · simp [hs.qNotEmpty, hs.main, hs.workers, MainAt.unannounced, WorkerAt.token]
    · simp [hs.accepted, hs.popped, hs.main, MainAt.carried]
    · simp [hs.popped, hs.handled, hs.workers, WorkerAt.carried, clientsOf]
  · obtain ⟨items, hitems⟩ := ih
    exact step_inv hitems hs

/-! ## The queue -/

/-- **The queue is a bounded FIFO.**  It never holds more than `maxQSize` clients, a
thread that is about to push finds room and one that is about to pop finds a client;
the clients come out in the order they were accepted, and each is handled by the
worker that popped it. -/
theorem queue_fifo (h : (system n maxQSize).Run past s) :
    0 ≤ s.qSize ∧ s.qSize ≤ maxQSize ∧
      (∀ item, s.main = .push item →
        s.qSize < maxQSize ∧ (push s.queue s.qSize item).isSome) ∧
      (∀ i, s.workers i = .pop → 0 < s.qSize ∧ (pop s.queue s.qSize).isSome) ∧
      s.popped.map Prod.snd <+: s.accepted ∧
      ∀ i, clientsOf i s.popped = clientsOf i s.handled ++ (s.workers i).carried := by
  obtain ⟨items, hinv⟩ := run_inv h
  have hsize := hinv.waiting.qSize
  have hslots := hinv.slots
  refine ⟨by omega, by omega, fun item hat => ?_, fun i hat => ?_, ?_, hinv.popped⟩
  · have hslot : s.main.slot = 1 := by rw [hat]; rfl
    have hroom : items.length < s.queue.length := by
      rw [hinv.queue]
      omega
    obtain ⟨queue', hpush, -⟩ := push_waiting hinv.waiting hroom item
    exact ⟨by omega, by rw [hpush]; rfl⟩
  · have htoken : (s.workers i).token = 1 := by rw [hat]; rfl
    have hsum := le_sum_pool WorkerAt.token s.workers i
    have hclients := hinv.clients
    obtain ⟨item, rest, rfl⟩ := List.exists_cons_of_length_pos (l := items) (by omega)
    obtain ⟨queue', hpop, -⟩ := pop_waiting hinv.waiting
    exact ⟨by omega, by rw [hpop]; rfl⟩
  · rw [hinv.accepted, List.append_assoc]
    exact List.prefix_append _ _

/-- A client of address 0. -/
def someItem (client : Int) : QueueItem := ⟨client, [], 0⟩

/-- One client is accepted, goes through a queue of one entry and is handled. -/
def oneClient : List (Action 1) :=
  [.main, .main, .accepted (someItem 7), .main, .main, .main, .main, .worker 0, .worker 0,
    .worker 0, .worker 0, .worker 0, .worker 0, .worker 0]

theorem oneClient_run :
    ∃ past s, (system 1 1).Run past s ∧ s.handled = [(0, someItem 7)] := by
  have hstart := System.Run.start (S := system 1 1) (State.start_start 1 [someItem 0])
  have hexec : ((System.exec step oneClient (State.start 1 [someItem 0])).any
      fun s => s.handled == [(0, someItem 7)]) = true := by decide
  obtain ⟨s, hs, hhandled⟩ := (Option.any_eq_true _ _).mp hexec
  obtain ⟨past, -, hrun⟩ := System.Run.exec hstart hs
  exact ⟨_, s, hrun, by simpa using hhandled⟩

/-- Two clients wait in the queue.  Worker 1 takes the first of them, worker 0 the second, and is
the first to be done. -/
def twoClients : List (Action 2) :=
  .main :: .main :: .accepted (someItem 7) :: List.replicate 4 .main
    ++ .main :: .main :: .accepted (someItem 8) :: List.replicate 4 .main
    ++ List.replicate 6 (.worker 1) ++ List.replicate 7 (.worker 0) ++ [.worker 1]

theorem queue_fifo_twoClients : ∃ past s, (system 2 2).Run past s ∧
    s.accepted = [someItem 7, someItem 8] ∧ s.popped = [(1, someItem 7), (0, someItem 8)] ∧
    s.handled = [(0, someItem 8), (1, someItem 7)] ∧ s.popped.map Prod.snd <+: s.accepted := by
  have hstart := System.Run.start (S := system 2 2) (State.start_start 2 [someItem 0, someItem 0])
  have hexec : ((System.exec step twoClients (State.start 2 [someItem 0, someItem 0])).any
      fun s => decide (s.accepted = [someItem 7, someItem 8] ∧
        s.popped = [(1, someItem 7), (0, someItem 8)] ∧
        s.handled = [(0, someItem 8), (1, someItem 7)])) = true := by decide
  obtain ⟨s, hs, hend⟩ := (Option.any_eq_true _ _).mp hexec
  obtain ⟨haccepted, hpopped, hhandled⟩ := of_decide_eq_true hend
  obtain ⟨past, -, hrun⟩ := System.Run.exec hstart hs
  exact ⟨past, s, hrun, haccepted, hpopped, hhandled, (queue_fifo hrun).2.2.2.2.1⟩

/-! ## The slots

A slot that is taken before `accept` is given back when a worker has popped the client,
and never if `accept` fails. -/

/-- The free slots, the clients in the queue, and the slots the threads hold. -/
def State.slots (s : State n) : Int :=
  s.qNotFull + s.qSize + s.main.slot + (∑ i, (s.workers i).slot : Nat)

/-- Nothing is under way: the queue is empty, the workers wait, and the main thread
is about to test `server_running`. -/
def State.Idle (s : State n) : Prop :=
  s.qSize = 0 ∧ (∀ i, s.workers i = .waitNotEmpty) ∧ s.main = .top

/-- The slot accounting as it should be. -/
def State.Accounted (maxQSize : Nat) (s : State n) : Prop :=
  s.slots = maxQSize ∧ (s.Idle → s.qNotFull = maxQSize)

theorem slots_eq (h : (system n maxQSize).Run past s) : s.slots + failures past = maxQSize := by
  obtain ⟨items, hinv⟩ := run_inv h
  have hslots := hinv.slots
  have hsize := hinv.waiting.qSize
  rw [State.slots]
  omega

/-- **No slot is lost exactly when no `accept` has failed.** -/
theorem accounted_iff (h : (system n maxQSize).Run past s) :
    s.Accounted maxQSize ↔ ∀ x ∈ past, x.2 ≠ .acceptFailed := by
  have hslots := slots_eq h
  have hnone : (∀ x ∈ past, x.2 ≠ .acceptFailed) ↔ failures past = 0 := by
    simp [failures, List.countP_eq_zero]
  rw [hnone]
  constructor
  · rintro ⟨hall, -⟩
    omega
  · intro hzero
    refine ⟨by omega, fun ⟨hsize, hworkers, hmain⟩ => ?_⟩
    rw [State.slots, hsize, hmain, Finset.sum_congr rfl fun i _ => by rw [hworkers i]] at hslots
    simp only [MainAt.slot, WorkerAt.slot, Nat.cast_zero, Finset.sum_const_zero] at hslots
    omega

theorem accounted_oneClient : ∃ past s, (system 1 1).Run past s ∧
    s.handled = [(0, someItem 7)] ∧ (s.Accounted 1 ↔ ∀ x ∈ past, x.2 ≠ .acceptFailed) := by
  obtain ⟨past, s, hrun, hhandled⟩ := oneClient_run
  exact ⟨past, s, hrun, hhandled, accounted_iff hrun⟩

/-- A queue of one entry: one `accept` fails, then the server has nothing to do and no
slot. -/
theorem acceptFailed_not_accounted :
    ¬ ∀ past s, (system 1 1).Run past s → s.Accounted 1 := by
  intro hall
  have hstart := System.Run.start (S := system 1 1) (State.start_start 1 [someItem 0])
  have hexec : ((System.exec step [.worker 0, .main, .main, .acceptFailed]
      (State.start 1 [someItem 0])).any fun s => s.qSize == 0 && s.workers 0 == .waitNotEmpty &&
        s.main == .top && s.qNotFull == 0) = true := by decide
  obtain ⟨s, hs, hat⟩ := (Option.any_eq_true _ _).mp hexec
  obtain ⟨past, -, hrun⟩ := System.Run.exec hstart hs
  simp only [Bool.and_eq_true, beq_iff_eq] at hat
  obtain ⟨⟨⟨hsize, hworker⟩, hmain⟩, hfull⟩ := hat
  have hidle : s.Idle := ⟨hsize, fun i => by rw [Fin.eq_zero i]; exact hworker, hmain⟩
  have := (hall _ s hrun).2 hidle
  omega

end InternetLabs.ThreadedServer
