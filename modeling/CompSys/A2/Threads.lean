import CompSys.A2.JobQueue
import CompSys.Lib.Fifo
import CompSys.Lib.Totals

/-! # Workers and a pusher around one queue

The threads of `fibs.c`, `fauxgrep-mt.c` and `fhistogram-mt.c`: any number of workers that loop on
`job_queue_pop` until it returns non-zero, and the main thread, which pushes its jobs, calls
`job_queue_destroy` and joins the workers. One step is one critical section (from the lock, or from
waking up with it, to the unlock or the wait), or one access outside of any: the reads at the top of
`push` and `pop` are made without the lock, and so is the end of `destroy`. -/

namespace CompSys.A2.Threads

open CompSys.Lib.Fifo CompSys.Lib.Totals CompSys.A2.JobQueue

/-- Where a worker is in its loop. -/
inductive WorkerAt
  /-- About to read `cons_amount` at the top of `pop`, without the lock. -/
  | testConsAmount
  /-- About to read `queue_to_be_destroyed`. -/
  | testDestroyed
  /-- About to read `queue_count`. -/
  | testCount
  /-- About to signal `cond_destroy` and return `-1`. -/
  | signalDestroy
  /-- About to lock `queue_access`. -/
  | lock
  /-- In `pthread_cond_wait` on `cons_cond`. -/
  | waiting
  /-- Woken up, about to lock `queue_access` again. -/
  | woken
  /-- Out of the loop. -/
  | finished
  deriving DecidableEq

/-- Where the main thread is. `rest` are the jobs after the one it is pushing. -/
inductive MainAt (α : Type*)
  /-- About to read `queue_to_be_destroyed` at the top of `push`, without the lock. -/
  | pushTest (data : α) (rest : List α)
  | pushLock (data : α) (rest : List α)
  /-- In `pthread_cond_wait` on `prod_cond`. -/
  | pushWaiting (data : α) (rest : List α)
  | pushWoken (data : α) (rest : List α)
  | destroyLock
  /-- In `pthread_cond_wait` on `cond_destroy`. -/
  | destroyWaiting
  | destroyWoken
  /-- Out of the `while` of `destroy` and without the lock, about to destroy the mutex. -/
  | destroyMutex
  | destroyProdCond
  | destroyConsCond
  | destroyCondDestroy
  | freeData
  /-- In `pthread_join`. -/
  | joining
  | finished

variable {n : ℕ} {α : Type*}

/-- The main thread with the jobs `rest` still to push. -/
def MainAt.next : List α → MainAt α
  | [] => .destroyLock
  | d :: rest => .pushTest d rest

structure State (n : ℕ) (α : Type*) where
  queue : Queue α
  workers : Fin n → WorkerAt
  main : MainAt α

/-- `job_queue_init` with `capacity` and an array of any contents, `n` workers, and `jobs` to push. -/
def start (n : ℕ) (data : ℤ → α) (capacity : ℤ) (jobs : List α) : State n α :=
  ⟨jobQueueInit data capacity, fun _ => .testConsAmount, .next jobs⟩

/-- Worker `w` goes to `a`. -/
def State.moveWorker (s : State n α) (w : Fin n) (a : WorkerAt) : State n α :=
  { s with workers := Function.update s.workers w a }

@[simp] theorem moveWorker_self (s : State n α) (w : Fin n) (a : WorkerAt) :
    (s.moveWorker w a).workers w = a := Function.update_self _ _ _

theorem moveWorker_of_ne {s : State n α} {w i : Fin n} {a : WorkerAt} (h : i ≠ w) :
    (s.moveWorker w a).workers i = s.workers i := Function.update_of_ne h _ _

/-- What holds of the place a worker goes to and of the others holds of all. -/
theorem forall_moveWorker {s : State n α} {w : Fin n} {a : WorkerAt} (P : WorkerAt → Prop) (ha : P a)
    (h : ∀ i, i ≠ w → P (s.workers i)) (i : Fin n) : P ((s.moveWorker w a).workers i) :=
  (Function.forall_update_iff s.workers fun _ b => P b).mpr ⟨ha, h⟩ i

/-- Some thread waits on the condition variable. -/
def State.Awaited (s : State n α) : Cond → Prop
  | .prodCond => ∃ d rest, s.main = .pushWaiting d rest
  | .consCond => ∃ w, s.workers w = .waiting
  | .condDestroy => s.main = .destroyWaiting

/-- One of the threads that wait on the condition variable wakes up. -/
inductive Wake : Cond → State n α → State n α → Prop
  | push {s : State n α} {d : α} {rest : List α} (h : s.main = .pushWaiting d rest) :
    Wake .prodCond s { s with main := .pushWoken d rest }
  | pop {s : State n α} {w : Fin n} (h : s.workers w = .waiting) :
    Wake .consCond s (s.moveWorker w .woken)
  | destroy {s : State n α} (h : s.main = .destroyWaiting) :
    Wake .condDestroy s { s with main := .destroyWoken }

/-- `pthread_cond_signal`: a waiting thread wakes up; with none the signal is lost. -/
inductive Signal (c : Cond) (s : State n α) : State n α → Prop
  | wake {s' : State n α} (h : Wake c s s') : Signal c s s'
  | lost (h : ¬ s.Awaited c) : Signal c s s

/-- The queue on which worker `w` tests the `while` condition of `pop`: after the lock it has counted
itself in, after a wait it is counted already. -/
def State.entered (s : State n α) (w : Fin n) : Queue α :=
  if s.workers w = .lock then popEnter s.queue else s.queue

/-- The main thread leaves the `while` of `destroy`, or waits. -/
def State.testDestroy (s : State n α) : State n α :=
  { s with main := if mustWait s.queue then .destroyWaiting else .destroyMutex }

/-- The end of `destroy` and what follows, without the lock. -/
inductive Teardown : MainAt α → MainAt α → Prop
  | mutex : Teardown .destroyMutex .destroyProdCond
  | prodCond : Teardown .destroyProdCond .destroyConsCond
  | consCond : Teardown .destroyConsCond .destroyCondDestroy
  | condDestroy : Teardown .destroyCondDestroy .freeData
  | data : Teardown .freeData .joining

/-- **One step of one thread.** A job that enters the queue or leaves it is seen. With `spurious`,
threads also wake up without a signal. -/
inductive Step (spurious : Prop) :
    State n α → Option (Event (Fin n) α) → State n α → Prop
  | testConsAmount {s : State n α} {w : Fin n} (h : s.workers w = .testConsAmount) :
    Step spurious s none
      (s.moveWorker w (if s.queue.consAmount = 0 then .testDestroyed else .lock))
  | testDestroyed {s : State n α} {w : Fin n} (h : s.workers w = .testDestroyed) :
    Step spurious s none
      (s.moveWorker w (if s.queue.queueToBeDestroyed = 1 then .testCount else .lock))
  | testCount {s : State n α} {w : Fin n} (h : s.workers w = .testCount) :
    Step spurious s none
      (s.moveWorker w (if s.queue.queueCount = 0 then .signalDestroy else .lock))
  | signalDestroy {s s' : State n α} {w : Fin n} (h : s.workers w = .signalDestroy)
      (hs : Signal .condDestroy (s.moveWorker w .finished) s') : Step spurious s none s'
  | popWaits {s : State n α} {w : Fin n} {c : Cond} {q : Queue α}
      (h : s.workers w = .lock ∨ s.workers w = .woken)
      (hq : popSection (s.entered w) = .wait c q) :
    Step spurious s none ({ s with queue := q }.moveWorker w .waiting)
  | popFails {s s' : State n α} {w : Fin n} {c : Cond} {q : Queue α}
      (h : s.workers w = .lock ∨ s.workers w = .woken)
      (hq : popSection (s.entered w) = .done c q none)
      (hs : Signal c ({ s with queue := q }.moveWorker w .finished) s') : Step spurious s none s'
  | popTakes {s s' : State n α} {w : Fin n} {c : Cond} {q : Queue α} {d : α}
      (h : s.workers w = .lock ∨ s.workers w = .woken)
      (hq : popSection (s.entered w) = .done c q (some d))
      (hs : Signal c ({ s with queue := q }.moveWorker w .testConsAmount) s') :
    Step spurious s (some (.pop w d)) s'
  | pushTest {s : State n α} {d : α} {rest : List α} (h : s.main = .pushTest d rest) :
    Step spurious s none
      { s with main := if s.queue.queueToBeDestroyed ≠ 0 then .next rest else .pushLock d rest }
  | pushWaits {s : State n α} {d : α} {rest : List α} {c : Cond} {q : Queue α}
      (h : s.main = .pushLock d rest ∨ s.main = .pushWoken d rest)
      (hq : pushSection s.queue d = .wait c q) :
    Step spurious s none { s with queue := q, main := .pushWaiting d rest }
  | pushStores {s s' : State n α} {d : α} {rest : List α} {c : Cond} {q : Queue α}
      (h : s.main = .pushLock d rest ∨ s.main = .pushWoken d rest)
      (hq : pushSection s.queue d = .done c q ())
      (hs : Signal c { s with queue := q, main := .next rest } s') :
    Step spurious s (some (.push d)) s'
  | destroyLocks {s : State n α} (h : s.main = .destroyLock) :
    Step spurious s none { s with queue := destroyEnter s.queue }.testDestroy
  | destroyWakes {s : State n α} (h : s.main = .destroyWoken) : Step spurious s none s.testDestroy
  | teardown {s : State n α} {m : MainAt α} (h : Teardown s.main m) :
    Step spurious s none { s with main := m }
  | join {s : State n α} (h : s.main = .joining) (hw : ∀ w, s.workers w = .finished) :
    Step spurious s none { s with main := .finished }
  | wakesUp {s s' : State n α} {c : Cond} (hsp : spurious) (h : Wake c s s') :
    Step spurious s none s'

/-! ### What the state says about the threads -/

/-- The worker is between its `cons_amount++` and its `cons_amount--`. -/
def WorkerAt.inside : WorkerAt → Bool
  | .waiting => true
  | .woken => true
  | _ => false

/-- The workers between `cons_amount++` and `cons_amount--`. -/
def State.inside (s : State n α) : Finset (Fin n) := Finset.univ.filter fun w => (s.workers w).inside

/-- The jobs the main thread has not pushed yet. -/
def MainAt.todo : MainAt α → List α
  | .pushTest d rest => d :: rest
  | .pushLock d rest => d :: rest
  | .pushWaiting d rest => d :: rest
  | .pushWoken d rest => d :: rest
  | _ => []

/-- `destroy` has set the flag. -/
def MainAt.closed : MainAt α → Bool
  | .pushTest _ _ => false
  | .pushLock _ _ => false
  | .pushWaiting _ _ => false
  | .pushWoken _ _ => false
  | .destroyLock => false
  | _ => true

/-- `destroy` has left its `while`. -/
def MainAt.leftWait : MainAt α → Bool
  | .destroyMutex => true
  | .destroyProdCond => true
  | .destroyConsCond => true
  | .destroyCondDestroy => true
  | .freeData => true
  | .joining => true
  | .finished => true
  | _ => false

@[simp] theorem todo_next (rest : List α) : (MainAt.next rest).todo = rest := by
  cases rest <;> rfl

@[simp] theorem closed_next (rest : List α) : (MainAt.next rest).closed = false := by
  cases rest <;> rfl

@[simp] theorem leftWait_next (rest : List α) : (MainAt.next rest).leftWait = false := by
  cases rest <;> rfl

/-- One worker moves: the number of those inside changes by what that worker adds. -/
theorem card_inside_moveWorker (s : State n α) (w : Fin n) (a : WorkerAt) :
    ((s.moveWorker w a).inside.card : ℤ) =
      s.inside.card - (if (s.workers w).inside then 1 else 0) + (if a.inside then 1 else 0) := by
  unfold State.inside State.moveWorker
  simp only [Finset.card_filter]
  have htotal := total_update s.workers (fun i => if i.inside = true then 1 else 0) w a
  split_ifs at htotal ⊢ <;> omega

end CompSys.A2.Threads
