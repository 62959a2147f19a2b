import CompSys.A2.JobQueue
import CompSys.Lib.Runs

/-! # Mutual exclusion

The three functions of `job_queue.c` statement by statement (`stmt`), called by any threads in any order.
A thread that sleeps on a condition variable may wake up at any time, so a signal has no effect of its
own here; an unlock frees the mutex, whoever makes it; destroying the mutex leaves it as it is.

`job_queue_push` unlocks the mutex without having locked it when it reads `queue_to_be_destroyed` as set.
As long as no thread reads it so there, a thread is in a critical section exactly while it owns the mutex
(`Inv`), and everything that mutual exclusion promises follows (`exclusion`). -/

namespace CompSys.A2.Exclusion

open CompSys.Lib.Runs CompSys.A2.JobQueue

/-- The next statement of a thread. -/
inductive Pc (α : Type*)
  /-- Not in a function of the queue. -/
  | idle
  | pushTest (data : α)
  | pushStrayUnlock
  | pushLock (data : α)
  | pushWhile (data : α)
  | pushWait (data : α)
  | pushAsleep (data : α)
  | pushRelock (data : α)
  | pushData (data : α)
  | pushCount
  | pushPointer
  | pushSignal
  | pushUnlock
  | popTestAmount
  | popTestFlag
  | popTestCount
  | popSignalDestroy
  | popLock
  | popEnter
  | popWhile
  | popWait
  | popAsleep
  | popRelock
  | popTestKilled
  | popKilledAmount
  | popKilledSignal
  | popKilledUnlock
  | popTestDraining
  | popTestDrainingAgain
  /-- The blocks that take a job: `c` is signalled at the end. -/
  | popData (c : Cond)
  | popCount (c : Cond)
  | popPointer (c : Cond)
  | popAmount (c : Cond)
  | popSignal (c : Cond)
  | popUnlock
  | destroyLock
  | destroyFlag
  | destroyWhile
  | destroyWait
  | destroyAsleep
  | destroyRelock
  | destroyUnlock
  | destroyMutex
  | destroyProdCond
  | destroyConsCond
  | destroyCondDestroy
  | destroyFree

/-- What a statement does. -/
inductive Effect (α : Type*)
  /-- The fields become `q`. -/
  | run (q : Queue α) (next : Pc α)
  | lock (next : Pc α)
  | unlock (next : Pc α)
  /-- `pthread_cond_wait` up to the point where the thread sleeps. -/
  | wait (next : Pc α)
  /-- The thread sleeps until it wakes up. -/
  | sleep (next : Pc α)
  | none

variable {α : Type*}

/-- The statements of `job_queue_push`, `job_queue_pop` and `job_queue_destroy`. -/
def stmt (q : Queue α) : Pc α → Effect α
  | .idle => .none
  | .pushTest d => .run q (if q.queueToBeDestroyed ≠ 0 then .pushStrayUnlock else .pushLock d)
  | .pushStrayUnlock => .unlock .idle
  | .pushLock d => .lock (.pushWhile d)
  | .pushWhile d => .run q (if q.capacity ≤ q.queueCount then .pushWait d else .pushData d)
  | .pushWait d => .wait (.pushAsleep d)
  | .pushAsleep d => .sleep (.pushRelock d)
  | .pushRelock d => .lock (.pushWhile d)
  | .pushData d => .run { q with data := Function.update q.data q.prodPointer d } .pushCount
  | .pushCount => .run { q with queueCount := q.queueCount + 1 } .pushPointer
  | .pushPointer =>
    .run { q with prodPointer := if q.prodPointer + 1 ≥ q.capacity then 0 else q.prodPointer + 1 }
      .pushSignal
  | .pushSignal => .run q .pushUnlock
  | .pushUnlock => .unlock .idle
  | .popTestAmount => .run q (if q.consAmount = 0 then .popTestFlag else .popLock)
  | .popTestFlag => .run q (if q.queueToBeDestroyed = 1 then .popTestCount else .popLock)
  | .popTestCount => .run q (if q.queueCount = 0 then .popSignalDestroy else .popLock)
  | .popSignalDestroy => .run q .idle
  | .popLock => .lock .popEnter
  | .popEnter => .run { q with consAmount := q.consAmount + 1 } .popWhile
  | .popWhile =>
    .run q (if q.queueCount ≤ 0 ∧ q.queueToBeDestroyed = 0 then .popWait else .popTestKilled)
  | .popWait => .wait .popAsleep
  | .popAsleep => .sleep .popRelock
  | .popRelock => .lock .popWhile
  | .popTestKilled =>
    .run q (if q.queueCount ≤ 0 ∧ q.queueToBeDestroyed = 1 then .popKilledAmount else .popTestDraining)
  | .popKilledAmount => .run { q with consAmount := q.consAmount - 1 } .popKilledSignal
  | .popKilledSignal => .run q .popKilledUnlock
  | .popKilledUnlock => .unlock .idle
  | .popTestDraining =>
    .run q (if q.queueCount > 0 ∧ q.queueToBeDestroyed = 1 then .popData .consCond
      else .popTestDrainingAgain)
  | .popTestDrainingAgain =>
    -- the source has this block twice
    .run q (if q.queueCount > 0 ∧ q.queueToBeDestroyed = 1 then .popData .consCond
      else .popData .prodCond)
  | .popData c => .run q (.popCount c)
  | .popCount c => .run { q with queueCount := q.queueCount - 1 } (.popPointer c)
  | .popPointer c =>
    .run { q with consPointer := if q.consPointer + 1 ≥ q.capacity then 0 else q.consPointer + 1 }
      (.popAmount c)
  | .popAmount c => .run { q with consAmount := q.consAmount - 1 } (.popSignal c)
  | .popSignal _ => .run q .popUnlock
  | .popUnlock => .unlock .idle
  | .destroyLock => .lock .destroyFlag
  | .destroyFlag => .run { q with queueToBeDestroyed := 1 } .destroyWhile
  | .destroyWhile => .run q (if mustWait q then .destroyWait else .destroyUnlock)
  | .destroyWait => .wait .destroyAsleep
  | .destroyAsleep => .sleep .destroyRelock
  | .destroyRelock => .lock .destroyWhile
  | .destroyUnlock => .unlock .destroyMutex
  | .destroyMutex => .run q .destroyProdCond
  | .destroyProdCond => .run q .destroyConsCond
  | .destroyConsCond => .run q .destroyCondDestroy
  | .destroyCondDestroy => .run q .destroyFree
  | .destroyFree => .run q .idle

/-- The statements between a lock and its unlock. -/
def Pc.inside : Pc α → Bool
  | .pushWhile _ | .pushWait _ | .pushData _ | .pushCount | .pushPointer | .pushSignal | .pushUnlock => true
  | .popEnter | .popWhile | .popWait | .popTestKilled | .popKilledAmount | .popKilledSignal => true
  | .popKilledUnlock | .popTestDraining | .popTestDrainingAgain | .popData _ | .popCount _ => true
  | .popPointer _ | .popAmount _ | .popSignal _ | .popUnlock => true
  | .destroyFlag | .destroyWhile | .destroyWait | .destroyUnlock => true
  | _ => false

/-- The first statements of the functions. -/
inductive Entry : Pc α → Prop
  | push (data : α) : Entry (.pushTest data)
  | pop : Entry .popTestAmount
  | destroy : Entry .destroyLock

variable {T : Type*} [DecidableEq T]

/-- The fields, the owner of `queue_access`, and where the threads are. -/
structure State (T α : Type*) where
  queue : Queue α
  owner : Option T
  pc : T → Pc α

/-- After `job_queue_init`. -/
def start (T : Type*) (data : ℤ → α) (capacity : ℤ) : State T α :=
  ⟨jobQueueInit data capacity, none, fun _ => .idle⟩

/-- **One statement of thread `t`.** -/
inductive Step (t : T) (s : State T α) : State T α → Prop
  | call {next : Pc α} (h : s.pc t = .idle) (hn : Entry next) :
    Step t s { s with pc := Function.update s.pc t next }
  | run {q : Queue α} {next : Pc α} (h : stmt s.queue (s.pc t) = .run q next) :
    Step t s { s with queue := q, pc := Function.update s.pc t next }
  | lock {next : Pc α} (h : stmt s.queue (s.pc t) = .lock next) (ho : s.owner = none) :
    Step t s { s with owner := some t, pc := Function.update s.pc t next }
  | unlock {next : Pc α} (h : stmt s.queue (s.pc t) = .unlock next) :
    Step t s { s with owner := none, pc := Function.update s.pc t next }
  | wait {next : Pc α} (h : stmt s.queue (s.pc t) = .wait next) :
    Step t s { s with owner := none, pc := Function.update s.pc t next }
  | wake {next : Pc α} (h : stmt s.queue (s.pc t) = .sleep next) :
    Step t s { s with pc := Function.update s.pc t next }

/-- The fields and the next statement after an effect. -/
def Effect.after (q : Queue α) : Effect α → Option (Queue α × Pc α)
  | .run q' next => some (q', next)
  | .lock next | .unlock next | .wait next | .sleep next => some (q, next)
  | .none => Option.none

/-- The thread lets go of the mutex next. -/
def State.Releases (s : State T α) (t : T) : Prop :=
  ∃ next, stmt s.queue (s.pc t) = .unlock next ∨ stmt s.queue (s.pc t) = .wait next

/-- **Mutual exclusion** in a state. -/
structure Exclusive (s : State T α) : Prop where
  writes : ∀ t s', Step t s s' → s'.queue ≠ s.queue → s.owner = some t
  releases : ∀ t, s.Releases t → s.owner = some t
  alone : ∀ t t', (s.pc t).inside = true → (s.pc t').inside = true → t = t'

/-- A step in which `job_queue_push` does not read the flag as set. -/
structure Careful (t : T) (s s' : State T α) : Prop where
  step : Step t s s'
  flag : ∀ d, s.pc t = .pushTest d → s.queue.queueToBeDestroyed = 0

/-- A thread is inside exactly while it owns the mutex, and none is about to unlock it without. -/
structure Inv (s : State T α) : Prop where
  inside : ∀ t, (s.pc t).inside = true ↔ s.owner = some t
  stray : ∀ t, s.pc t ≠ .pushStrayUnlock

variable {q q' : Queue α} {pc next : Pc α} {s s' : State T α} {t : T}

/-! ### The statements -/

theorem inside_entry (h : Entry next) : next.inside = false ∧ next ≠ .pushStrayUnlock := by
  cases h <;> exact ⟨rfl, nofun⟩

/-- Fields change inside only, and a statement on the fields neither enters nor leaves. -/
theorem stmt_run (h : stmt q pc = .run q' next) :
    next.inside = pc.inside ∧ (q' ≠ q → pc.inside = true) ∧
      (next = .pushStrayUnlock → ∃ d, pc = .pushTest d ∧ q.queueToBeDestroyed ≠ 0) := by
  cases pc <;> simp only [stmt, Effect.run.injEq, reduceCtorEq] at h
  all_goals
    obtain ⟨rfl, rfl⟩ := h
    refine ⟨?_, ?_, ?_⟩
    · first | rfl | (split_ifs <;> rfl)
    · simp [Pc.inside]
    · first | (split_ifs <;> simp_all) | simp

theorem stmt_lock (h : stmt q pc = .lock next) :
    pc.inside = false ∧ next.inside = true ∧ next ≠ .pushStrayUnlock := by
  cases pc <;> simp only [stmt, Effect.lock.injEq, reduceCtorEq] at h
  all_goals
    obtain rfl := h
    exact ⟨rfl, rfl, nofun⟩

theorem stmt_unlock (h : stmt q pc = .unlock next) :
    (pc.inside = true ∨ pc = .pushStrayUnlock) ∧ next.inside = false ∧ next ≠ .pushStrayUnlock := by
  cases pc <;> simp only [stmt, Effect.unlock.injEq, reduceCtorEq] at h
  all_goals
    obtain rfl := h
    simp [Pc.inside]

theorem stmt_wait (h : stmt q pc = .wait next) :
    pc.inside = true ∧ next.inside = false ∧ next ≠ .pushStrayUnlock := by
  cases pc <;> simp only [stmt, Effect.wait.injEq, reduceCtorEq] at h
  all_goals
    obtain rfl := h
    exact ⟨rfl, rfl, nofun⟩

theorem stmt_sleep (h : stmt q pc = .sleep next) :
    pc.inside = false ∧ next.inside = false ∧ next ≠ .pushStrayUnlock := by
  cases pc <;> simp only [stmt, Effect.sleep.injEq, reduceCtorEq] at h
  all_goals
    obtain rfl := h
    exact ⟨rfl, rfl, nofun⟩

/-! ### Steps -/

/-- **What a step does** to the fields and to the places of the threads: a thread calls a function, or it runs
its statement. -/
theorem Step.moves (h : Step t s s') :
    ∃ next, s'.pc = Function.update s.pc t next ∧
      ((s.pc t = .idle ∧ Entry next ∧ s'.queue = s.queue) ∨
        (stmt s.queue (s.pc t)).after s.queue = some (s'.queue, next)) := by
  cases h with
  | call hidle hn => exact ⟨_, rfl, Or.inl ⟨hidle, hn, rfl⟩⟩
  | run hr => exact ⟨_, rfl, Or.inr (by rw [hr]; rfl)⟩
  | lock hl _ => exact ⟨_, rfl, Or.inr (by rw [hl]; rfl)⟩
  | unlock hu => exact ⟨_, rfl, Or.inr (by rw [hu]; rfl)⟩
  | wait hw => exact ⟨_, rfl, Or.inr (by rw [hw]; rfl)⟩
  | wake hw => exact ⟨_, rfl, Or.inr (by rw [hw]; rfl)⟩

/-- A thread moves without touching the mutex. -/
theorem Inv.moves (h : Inv s) (q : Queue α) (hin : next.inside = (s.pc t).inside)
    (hs : next ≠ .pushStrayUnlock) :
    Inv { s with queue := q, pc := Function.update s.pc t next } := by
  constructor
  · refine (Function.forall_update_iff s.pc fun i pc => pc.inside = true ↔ s.owner = some i).mpr ⟨?_, ?_⟩
    · rw [hin]
      exact h.inside t
    · exact fun i _ => h.inside i
  · exact (Function.forall_update_iff s.pc fun _ pc => pc ≠ .pushStrayUnlock).mpr ⟨hs, fun i _ => h.stray i⟩

/-- The owner lets go of the mutex. -/
theorem Inv.frees (h : Inv s) (hin : (s.pc t).inside = true) (hn : next.inside = false)
    (hs : next ≠ .pushStrayUnlock) :
    Inv { s with owner := none, pc := Function.update s.pc t next } := by
  constructor
  · refine (Function.forall_update_iff s.pc fun i pc => pc.inside = true ↔ none = some i).mpr ⟨?_, ?_⟩
    · simp [hn]
    · intro i hi
      rw [h.inside i, (h.inside t).mp hin]
      simp [Ne.symm hi]
  · exact (Function.forall_update_iff s.pc fun _ pc => pc ≠ .pushStrayUnlock).mpr ⟨hs, fun i _ => h.stray i⟩

/-- **Every careful step** keeps the invariant. -/
theorem Inv.step (h : Inv s) (hc : Careful t s s') : Inv s' := by
  obtain ⟨hs, hflag⟩ := hc
  cases hs with
  | call hidle hn =>
    obtain ⟨h1, h2⟩ := inside_entry hn
    exact h.moves s.queue (by rw [h1, hidle]; rfl) h2
  | run hr =>
    obtain ⟨h1, -, h3⟩ := stmt_run hr
    refine h.moves _ h1 fun hn => ?_
    obtain ⟨d, hd, hf⟩ := h3 hn
    exact hf (hflag d hd)
  | lock hl ho =>
    obtain ⟨h1, h2, h3⟩ := stmt_lock hl
    constructor
    · refine (Function.forall_update_iff s.pc fun i pc => pc.inside = true ↔ some t = some i).mpr ⟨?_, ?_⟩
      · simp [h2]
      · intro i hi
        rw [h.inside i, ho]
        simp [Ne.symm hi]
    · exact (Function.forall_update_iff s.pc fun _ pc => pc ≠ .pushStrayUnlock).mpr ⟨h3, fun i _ => h.stray i⟩
  | unlock hu =>
    obtain ⟨h1, h2, h3⟩ := stmt_unlock hu
    exact h.frees (h1.resolve_right (h.stray t)) h2 h3
  | wait hw =>
    obtain ⟨h1, h2, h3⟩ := stmt_wait hw
    exact h.frees h1 h2 h3
  | wake hw =>
    obtain ⟨h1, h2, h3⟩ := stmt_sleep hw
    exact h.moves s.queue (h2.trans h1.symm) h3

omit [DecidableEq T] in
theorem inv_start (data : ℤ → α) (capacity : ℤ) : Inv (start T data capacity) :=
  ⟨fun t => by simp [start, Pc.inside], fun t => nofun⟩

/-- The invariant gives mutual exclusion. -/
theorem Inv.exclusive (h : Inv s) : Exclusive s := by
  refine ⟨fun t s' hs hq => ?_, fun t hr => ?_, fun t t' ht ht' => ?_⟩
  · cases hs with
    | run hr => exact (h.inside t).mp ((stmt_run hr).2.1 hq)
    | call _ _ => exact absurd rfl hq
    | lock _ _ => exact absurd rfl hq
    | unlock _ => exact absurd rfl hq
    | wait _ => exact absurd rfl hq
    | wake _ => exact absurd rfl hq
  · obtain ⟨next, hr | hr⟩ := hr
    · exact (h.inside t).mp ((stmt_unlock hr).1.resolve_right (h.stray t))
    · exact (h.inside t).mp (stmt_wait hr).1
  · have h1 := (h.inside t).mp ht
    rw [(h.inside t').mp ht'] at h1
    exact (Option.some.inj h1).symm

/-- A thread that has read the flag as set in `job_queue_push` is about to unlock what it does not own. -/
theorem Inv.not_exclusive (h : Inv s) (hs : Step t s s') (hc : ¬ Careful t s s') : ¬ Exclusive s' := by
  intro hex
  have hflag : ¬ ∀ d, s.pc t = .pushTest d → s.queue.queueToBeDestroyed = 0 := fun hf => hc ⟨hs, hf⟩
  push Not at hflag
  obtain ⟨d, hd, hf⟩ := hflag
  have hin : s.owner ≠ some t := by
    rw [Ne, ← h.inside t, hd]
    nofun
  cases hs with
  | @run q next hr =>
    rw [hd] at hr
    simp only [stmt, Effect.run.injEq, if_pos hf] at hr
    obtain ⟨rfl, rfl⟩ := hr
    refine hin (hex.releases t ⟨.idle, Or.inl ?_⟩)
    simp [stmt]
  | call hidle _ => rw [hd] at hidle; cases hidle
  | lock hl _ => rw [hd] at hl; cases hl
  | unlock hu => rw [hd] at hu; cases hu
  | wait hw => rw [hd] at hw; cases hw
  | wake hw => rw [hd] at hw; cases hw

/-- **Mutual exclusion** in every state that careful steps reach, for any threads and any calls; a step that
is not careful ends it. -/
theorem exclusion (data : ℤ → α) (capacity : ℤ)
    (h : Reaches (fun s s' => ∃ t, Careful t s s') (start T data capacity) s) :
    Exclusive s ∧ ∀ t s', Step t s s' → (Exclusive s' ↔ Careful t s s') := by
  have hI : Inv s := h.invariant (fun _ _ hI ⟨t, hc⟩ => hI.step hc) (inv_start data capacity)
  refine ⟨hI.exclusive, fun t s' hs => ⟨fun hex => ?_, fun hc => (hI.step hc).exclusive⟩⟩
  by_contra hc
  exact hI.not_exclusive hs hc hex

/-- A thread pushes before any other calls `destroy`, and one pops. -/
theorem exclusion_push_pop : ∃ s : State (Fin 2) ℕ,
    Reaches (fun s s' => ∃ t, Careful t s s') (start (Fin 2) (fun _ => 0) 1) s ∧
      (s.pc 0).inside = true ∧ Exclusive s := by
  have h1 : Steps (fun s s' => ∃ t, Careful t s s') (start (Fin 2) (fun _ => (0 : ℕ)) 1) _ _ :=
    .tail .refl ⟨0, .call rfl (.push 7), nofun⟩
  have h2 := h1.tail ⟨0, .run rfl, fun _ _ => rfl⟩
  have h3 := h2.tail ⟨1, .call rfl .pop, nofun⟩
  have h4 := h3.tail ⟨1, .run rfl, nofun⟩
  have h5 := h4.tail ⟨0, .lock rfl rfl, nofun⟩
  exact ⟨_, ⟨_, h5⟩, rfl, (exclusion (fun _ => 0) 1 ⟨_, h5⟩).1⟩

/-- **The stray unlock**: thread 2 is on its way into `pop` when thread 0 sets the flag inside `destroy`;
thread 1 calls `push`, frees the mutex of thread 0, and thread 2 gets it. -/
theorem push_frees_destroy : ∃ s : State (Fin 3) ℕ,
    Reaches (fun s s' => ∃ t, Step t s s') (start (Fin 3) (fun _ => 0) 1) s ∧
      (s.pc 0).inside = true ∧ (s.pc 2).inside = true ∧ ¬ Exclusive s := by
  have h1 : Steps (fun s s' => ∃ t, Step t s s') (start (Fin 3) (fun _ => (0 : ℕ)) 1) _ _ :=
    .tail .refl ⟨2, .call rfl .pop⟩
  have h2 := h1.tail ⟨2, .run rfl⟩
  have h3 := h2.tail ⟨2, .run rfl⟩
  have h4 := h3.tail ⟨0, .call rfl .destroy⟩
  have h5 := h4.tail ⟨0, .lock rfl rfl⟩
  have h6 := h5.tail ⟨0, .run rfl⟩
  have h7 := h6.tail ⟨1, .call rfl (.push 7)⟩
  have h8 := h7.tail ⟨1, .run rfl⟩
  have h9 := h8.tail ⟨1, .unlock rfl⟩
  have h10 := h9.tail ⟨2, .lock rfl rfl⟩
  refine ⟨_, ⟨_, h10⟩, rfl, rfl, fun hex => ?_⟩
  exact absurd (hex.alone 0 2 rfl rfl) (by decide)

end CompSys.A2.Exclusion
