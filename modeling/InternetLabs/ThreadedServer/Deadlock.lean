/-
# `InternetLabs.ThreadedServer.Deadlock` — when the running server comes to a stop

The threads of the server wait for each other at two semaphores and a mutex.  A thread that has
the mutex is on its way through the queue (`Guarded`), and goes on; so the server can only stop
where everybody waits at a semaphore.  For the workers that is as it should be, as long as the
main thread can accept a client.  It cannot where no slot of the queue is left, and with nobody
in the queue that is where all slots have been lost to a failed `accept` (`server_stuck_iff`).
-/
import InternetLabs.ThreadedServer.Threads

namespace InternetLabs.ThreadedServer

open InternetLabs

variable {n : Nat}

/-- The main thread has locked the mutex. -/
def MainAt.locking : MainAt → Bool
  | .push _ | .post | .unlock => true
  | _ => false

/-- The worker has locked the mutex. -/
def WorkerAt.locking : WorkerAt → Bool
  | .pop | .post _ | .unlock _ => true
  | _ => false

/-- The main thread is done with `http_server_run`, or about to be. -/
def MainAt.done : MainAt → Bool
  | .interrupted | .returned => true
  | _ => false

/-- **Who has the mutex**, and that nobody is done while the server runs. -/
structure Guarded (s : State n) : Prop where
  main : s.main.locking = true ↔ s.wMutex = some .main
  worker : ∀ i, (s.workers i).locking = true ↔ s.wMutex = some (.worker i)
  mainRuns : s.serverRunning = true → s.main.done = false
  workerRuns : s.serverRunning = true → ∀ i, s.workers i ≠ .returned

section Steps
variable {s s' : State n} {i : Fin n}

theorem Guarded.main_moves (h : Guarded s) {m : MainAt} {notFull notEmpty : Nat} {qSize : Int}
    {queue accepted : List QueueItem} (hlock : m.locking = s.main.locking)
    (hdone : s.serverRunning = true → m.done = false) :
    Guarded { s with
      main := m, qNotFull := notFull, qNotEmpty := notEmpty, qSize := qSize, queue := queue
      accepted := accepted } :=
  ⟨by rw [hlock]; exact h.main, h.worker, hdone, h.workerRuns⟩

theorem Guarded.worker_moves (h : Guarded s) {w : WorkerAt} {notFull notEmpty : Nat} {qSize : Int}
    {queue : List QueueItem} {popped handled : List (Fin n × QueueItem)}
    (hlock : w.locking = (s.workers i).locking) (hreturned : s.serverRunning = true →
    w ≠ .returned) :
    Guarded { s.move i w with
      qNotFull := notFull, qNotEmpty := notEmpty, qSize := qSize, queue := queue, popped := popped
      handled := handled } := by
  refine ⟨h.main, fun j => ?_, h.mainRuns, fun hrun j => ?_⟩
  all_goals by_cases hj : j = i
  · simp only [State.move, hj, Function.update_self, hlock]
    exact h.worker i
  · simp only [State.move, Function.update_of_ne hj]
    exact h.worker j
  · simp only [State.move, hj, Function.update_self]
    exact hreturned hrun
  · simp only [State.move, Function.update_of_ne hj]
    exact h.workerRuns hrun j

/-- While the mutex is free nobody is in the queue. -/
theorem Guarded.free (h : Guarded s) (hfree : s.wMutex = none) :
    s.main.locking = false ∧ ∀ j, (s.workers j).locking = false := by
  refine ⟨Bool.eq_false_iff.mpr fun hlock => ?_, fun j => Bool.eq_false_iff.mpr fun hlock => ?_⟩
  · rw [h.main.mp hlock] at hfree
    cases hfree
  · rw [(h.worker j).mp hlock] at hfree
    cases hfree

/-- Who has the mutex is in the queue alone. -/
theorem Guarded.alone (h : Guarded s) (hlock : (s.workers i).locking = true) :
    s.main.locking = false ∧ ∀ j, j ≠ i → (s.workers j).locking = false := by
  have hmutex := (h.worker i).mp hlock
  refine ⟨Bool.eq_false_iff.mpr fun hmain => ?_, fun j hj => Bool.eq_false_iff.mpr fun hother => ?_⟩
  · rw [h.main.mp hmain] at hmutex
    cases hmutex
  · rw [(h.worker j).mp hother] at hmutex
    exact hj (Thread.worker.inj (Option.some.inj hmutex))

theorem mainStep_guarded (h : Guarded s) (hs : mainStep s = some s') : Guarded s' := by
  unfold mainStep at hs
  split at hs
  next hat =>
    cases hs
    refine h.main_moves (by rw [hat]; split <;> rfl) fun hrun => ?_
    rw [if_pos hrun]
    rfl
  next hat =>
    obtain ⟨-, hs⟩ := Option.ite_none_right_eq_some.mp hs
    cases hs
    exact h.main_moves (by rw [hat]; rfl) fun _ => rfl
  · cases hs
  next item hat =>
    obtain ⟨hfree, hs⟩ := Option.ite_none_right_eq_some.mp hs
    cases hs
    refine ⟨iff_of_true rfl rfl, fun j => ?_, fun _ => rfl, h.workerRuns⟩
    exact iff_of_false (Bool.eq_false_iff.mp ((h.free hfree).2 j)) nofun
  next item hat =>
    obtain ⟨⟨queue, qSize⟩, -, rfl⟩ := Option.map_eq_some_iff.mp hs
    exact h.main_moves (by rw [hat]; rfl) fun _ => rfl
  next hat =>
    cases hs
    exact h.main_moves (by rw [hat]; rfl) fun _ => rfl
  next hat =>
    cases hs
    refine ⟨iff_of_false Bool.false_ne_true nofun, fun j => ?_, fun _ => rfl, h.workerRuns⟩
    have hmutex := h.main.mp (by rw [hat]; rfl)
    refine iff_of_false (fun hlock => ?_) nofun
    rw [(h.worker j).mp hlock] at hmutex
    cases hmutex
  · cases hs
  · cases hs

theorem workerStep_guarded (h : Guarded s) (hs : workerStep s i = some s') : Guarded s' := by
  unfold workerStep at hs
  split at hs
  next hat =>
    cases hs
    refine h.worker_moves (by rw [hat]; split <;> rfl) fun hrun => ?_
    rw [if_pos hrun]
    simp
  next hat =>
    obtain ⟨-, hs⟩ := Option.ite_none_right_eq_some.mp hs
    cases hs
    exact h.worker_moves (by rw [hat]; rfl) fun _ => by simp
  next hat =>
    obtain ⟨hfree, hs⟩ := Option.ite_none_right_eq_some.mp hs
    cases hs
    obtain ⟨hmain, hworkers⟩ := h.free hfree
    refine ⟨iff_of_false (Bool.eq_false_iff.mp hmain)
      (by simp), fun j => ?_, h.mainRuns, fun hrun j => ?_⟩
    all_goals by_cases hj : j = i
    · simp only [State.move, hj, Function.update_self]
      exact iff_of_true rfl trivial
    · simp only [State.move, Function.update_of_ne hj]
      refine iff_of_false (Bool.eq_false_iff.mp (hworkers j)) fun heq => ?_
      exact hj (Thread.worker.inj (Option.some.inj heq)).symm
    · simp only [State.move, hj, Function.update_self]
      simp
    · simp only [State.move, Function.update_of_ne hj]
      exact h.workerRuns hrun j
  next hat =>
    obtain ⟨⟨item, queue, qSize⟩, -, rfl⟩ := Option.map_eq_some_iff.mp hs
    exact h.worker_moves (by rw [hat]; rfl) fun _ => by simp
  next item hat =>
    cases hs
    exact h.worker_moves (by rw [hat]; rfl) fun _ => by simp
  next item hat =>
    cases hs
    obtain ⟨hmain, hworkers⟩ := h.alone (by rw [hat]; rfl)
    refine ⟨iff_of_false (Bool.eq_false_iff.mp hmain)
      (by simp), fun j => ?_, h.mainRuns, fun hrun j => ?_⟩
    all_goals by_cases hj : j = i
    · simp only [State.move, hj, Function.update_self]
      exact iff_of_false Bool.false_ne_true (by simp)
    · simp only [State.move, Function.update_of_ne hj]
      exact iff_of_false (Bool.eq_false_iff.mp (hworkers j hj)) (by simp)
    · simp only [State.move, hj, Function.update_self]
      simp
    · simp only [State.move, Function.update_of_ne hj]
      exact h.workerRuns hrun j
  next item hat =>
    cases hs
    exact h.worker_moves (by rw [hat]; rfl) fun _ => by simp
  · cases hs

/-- **Every step keeps who has the mutex.** -/
theorem step_guarded {a : Action n} (h : Guarded s) (hs : step a s = some s') : Guarded s' := by
  cases a with
  | signal =>
      cases hs
      exact ⟨h.main, h.worker, nofun, nofun⟩
  | main => exact mainStep_guarded h hs
  | mainInterrupted =>
      simp only [step] at hs
      split at hs
      · cases hs
      next hrun =>
        split at hs
        next hat =>
          cases hs
          exact h.main_moves (by rw [hat]; rfl) fun hrunning => (hrun hrunning).elim
        next hat =>
          cases hs
          exact h.main_moves (by rw [hat]; rfl) fun hrunning => (hrun hrunning).elim
        · cases hs
  | accepted item =>
      obtain ⟨hat, hs⟩ := Option.ite_none_right_eq_some.mp hs
      cases hs
      exact h.main_moves (by rw [hat]; rfl) fun _ => rfl
  | acceptFailed =>
      obtain ⟨hat, hs⟩ := Option.ite_none_right_eq_some.mp hs
      cases hs
      exact h.main_moves (by rw [hat]; rfl) fun _ => rfl
  | worker i => exact workerStep_guarded h hs
  | workerInterrupted i =>
      obtain ⟨hrun, hs⟩ := Option.ite_none_left_eq_some.mp hs
      obtain ⟨hat, hs⟩ := Option.ite_none_right_eq_some.mp hs
      cases hs
      exact h.worker_moves (by rw [hat]; rfl) fun hrunning => (hrun hrunning).elim

end Steps

section Runs
variable {maxQSize : Nat} {past : List (State n × Action n)} {s : State n}

/-- **Every run keeps who has the mutex.** -/
theorem run_guarded (h : (system n maxQSize).Run past s) : Guarded s := by
  refine h.invariant (I := fun _ s => Guarded s) (fun s hs => ?_) fun _ _ _ _ ih hs =>
    step_guarded ih hs
  refine ⟨?_, fun i => ?_, fun _ => ?_, fun _ i => ?_⟩
  · rw [hs.main, hs.wMutex]
    exact iff_of_false Bool.false_ne_true nofun
  · rw [hs.workers i, hs.wMutex]
    exact iff_of_false Bool.false_ne_true nofun
  · rw [hs.main]
    rfl
  · rw [hs.workers i]
    exact nofun

/-! ## Who goes on

The mutex is never held while its owner waits, so it keeps nobody for ever. -/

theorem main_goes (h : (system n maxQSize).Run past s) (hrun : s.serverRunning = true)
    (hstuck : mainStep s = none) : (s.main = .waitNotFull ∧ s.qNotFull = 0) ∨ s.main = .accept ∨
      ((∃ item, s.main = .lock item) ∧ s.wMutex ≠ none) := by
  have hdone := (run_guarded h).mainRuns hrun
  unfold mainStep at hstuck
  split at hstuck
  next => cases hstuck
  next hat =>
    refine .inl ⟨hat, ?_⟩
    by_contra hne
    rw [if_pos (Nat.pos_of_ne_zero hne)] at hstuck
    cases hstuck
  next hat => exact .inr (.inl hat)
  next item hat =>
    refine .inr (.inr ⟨⟨item, hat⟩, fun hfree => ?_⟩)
    rw [if_pos hfree] at hstuck
    cases hstuck
  next item hat =>
    have hpush := ((queue_fifo h).2.2.1 item hat).2
    rw [Option.map_eq_none_iff.mp hstuck] at hpush
    cases hpush
  next => cases hstuck
  next => cases hstuck
  next hat =>
    rw [hat] at hdone
    cases hdone
  next hat =>
    rw [hat] at hdone
    cases hdone

theorem worker_goes (h : (system n maxQSize).Run past s) (hrun : s.serverRunning = true) {i : Fin n}
    (hstuck : workerStep s i = none) : (s.workers i = .waitNotEmpty ∧ s.qNotEmpty = 0) ∨
      (s.workers i = .lock ∧ s.wMutex ≠ none) := by
  have hreturned := (run_guarded h).workerRuns hrun i
  unfold workerStep at hstuck
  split at hstuck
  next => cases hstuck
  next hat =>
    refine .inl ⟨hat, ?_⟩
    by_contra hne
    rw [if_pos (Nat.pos_of_ne_zero hne)] at hstuck
    cases hstuck
  next hat =>
    refine .inr ⟨hat, fun hfree => ?_⟩
    rw [if_pos hfree] at hstuck
    cases hstuck
  next hat =>
    have hpop := ((queue_fifo h).2.2.2.1 i hat).2
    rw [Option.map_eq_none_iff.mp hstuck] at hpop
    cases hpop
  next => cases hstuck
  next => cases hstuck
  next => cases hstuck
  next hat => exact (hreturned hat).elim

end Runs

end InternetLabs.ThreadedServer
