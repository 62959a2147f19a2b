import CompSys.A2.Exclusion
import CompSys.Lib.Totals

/-! # What is left of the queue after `job_queue_destroy`

Workers loop on `job_queue_pop` until it returns non-zero; the main thread pushes a list of jobs and then calls
`job_queue_destroy`, which destroys the mutex and the condition variables one after the other and frees the
buffer. `uses` says what a statement of the queue's functions locks, waits on, signals, unlocks, reads or
writes, and `removes` what a statement of `job_queue_destroy` does away with.

`job_queue_destroy` waits for the workers that `cons_amount` counts. A worker that is about to lock the mutex
in `job_queue_pop` is not counted yet, and one between two calls will signal `cond_destroy` in the next. If no
worker is on its way through the critical section when the mutex goes, and every worker has left its loop when
`cond_destroy` goes, nothing is used after it is gone (`gone_unused`); and where a step breaks this, something
may be. -/

namespace CompSys.A2.Teardown

open CompSys.Lib.Runs CompSys.Lib.Totals CompSys.A2.JobQueue CompSys.A2.Exclusion

/-- What `job_queue_destroy` does away with. -/
inductive Object
  | queueAccess
  | prodCond
  | consCond
  | condDestroy
  | data
  deriving DecidableEq

/-- The field of `struct job_queue` for a condition variable. -/
def condObject : Cond → Object
  | .prodCond => .prodCond
  | .consCond => .consCond
  | .condDestroy => .condDestroy

variable {α : Type*}

/-- What a statement locks, waits on, signals, unlocks, reads or writes. -/
def uses : Pc α → List Object
  | .pushStrayUnlock | .pushLock _ | .pushUnlock => [.queueAccess]
  | .pushWait _ | .pushAsleep _ | .pushRelock _ => [.queueAccess, .prodCond]
  | .pushData _ => [.data]
  | .pushSignal => [.consCond]
  | .popSignalDestroy => [.condDestroy]
  | .popLock | .popKilledUnlock | .popUnlock => [.queueAccess]
  | .popWait | .popAsleep | .popRelock => [.queueAccess, .consCond]
  | .popKilledSignal => [.consCond]
  | .popData _ => [.data]
  | .popSignal c => [condObject c]
  | .destroyLock | .destroyUnlock => [.queueAccess]
  | .destroyWait | .destroyAsleep | .destroyRelock => [.queueAccess, .condDestroy]
  | _ => []

/-- What a statement of `job_queue_destroy` does away with. -/
def removes : Pc α → Option Object
  | .destroyMutex => some .queueAccess
  | .destroyProdCond => some .prodCond
  | .destroyConsCond => some .consCond
  | .destroyCondDestroy => some .condDestroy
  | .destroyFree => some .data
  | _ => none

/-- The statements of `job_queue_pop` with which it returns `-1`. -/
def popFails : Pc α → Bool
  | .popSignalDestroy | .popKilledUnlock => true
  | _ => false

/-- The statements of `job_queue_pop` from its lock to its unlock, asleep or not. -/
def engaged : Pc α → Bool
  | .popLock | .popEnter | .popWhile | .popWait | .popAsleep | .popRelock | .popTestKilled => true
  | .popKilledAmount | .popKilledSignal | .popKilledUnlock | .popTestDraining => true
  | .popTestDrainingAgain | .popData _ | .popCount _ | .popPointer _ | .popAmount _ => true
  | .popSignal _ | .popUnlock => true
  | _ => false

variable {W : Type*} [DecidableEq W]

/-- The threads: the workers, and the main thread `none`. -/
structure State (W α : Type*) where
  shared : Exclusion.State (Option W) α
  /-- The jobs the main thread has still to push. -/
  jobs : List α
  /-- The main thread has called `job_queue_destroy`. -/
  called : Bool
  /-- The workers that have left their loop. -/
  left : W → Bool
  gone : Object → Bool

/-- After `job_queue_init`. -/
def start (W : Type*) (jobs : List α) (data : ℤ → α) (capacity : ℤ) : State W α :=
  ⟨Exclusion.start (Option W) data capacity, jobs, false, fun _ => false, fun _ => false⟩

/-- A thread is at `next`. -/
def State.call (s : State W α) (t : Option W) (next : Pc α) : State W α :=
  { s with shared := { s.shared with pc := Function.update s.shared.pc t next } }

/-- Thread `t` has run its statement, which led to `shared`. -/
def State.ran (s : State W α) (t : Option W) (shared : Exclusion.State (Option W) α) : State W α :=
  { s with
    shared := shared
    left := fun w => s.left w || (decide (t = some w) && popFails (s.shared.pc t))
    gone := fun o => s.gone o || decide (removes (s.shared.pc t) = some o) }

/-- **One step of thread `t`.** -/
inductive Step : Option W → State W α → State W α → Prop
  | push {s : State W α} {d : α} {ds : List α} (h : s.shared.pc none = .idle) (hj : s.jobs = d :: ds) :
    Step none s { s.call none (.pushTest d) with jobs := ds }
  | destroy {s : State W α} (h : s.shared.pc none = .idle) (hj : s.jobs = []) (hc : s.called = false) :
    Step none s { s.call none .destroyLock with called := true }
  | pop {s : State W α} {w : W} (h : s.shared.pc (some w) = .idle) (hl : s.left w = false) :
    Step (some w) s (s.call (some w) .popTestAmount)
  | stmt {s : State W α} {t : Option W} {shared : Exclusion.State (Option W) α} (h : s.shared.pc t ≠ .idle)
    (hs : Exclusion.Step t s.shared shared) : Step t s (s.ran t shared)

/-- A step of any thread. -/
def Any (s s' : State W α) : Prop := ∃ t, Step t s s'

/-- **No next statement uses what is gone.** -/
def State.Untouched (s : State W α) : Prop := ∀ t o, o ∈ uses (s.shared.pc t) → s.gone o = false

/-- A step in which the mutex goes only while no worker is on its way through the critical section, and
`cond_destroy` only after every worker has left. -/
structure Awaited (t : Option W) (s s' : State W α) : Prop where
  step : Step t s s'
  mutex : s.shared.pc t = .destroyMutex → ∀ w, engaged (s.shared.pc (some w)) = false
  condDestroy : s.shared.pc t = .destroyCondDestroy → ∀ w, s.left w = true

/-! ### Where the threads are -/

/-- How far `job_queue_destroy` has come. -/
def stage (called : Bool) : Pc α → ℕ
  | .destroyWhile | .destroyWait | .destroyAsleep | .destroyRelock => 1
  | .destroyUnlock | .destroyMutex => 2
  | .destroyProdCond => 3
  | .destroyConsCond => 4
  | .destroyCondDestroy => 5
  | .destroyFree => 6
  | .idle => if called then 7 else 0
  | _ => 0

/-- The stage at whose end an object goes. -/
def Object.last : Object → ℕ
  | .queueAccess => 2
  | .prodCond => 3
  | .consCond => 4
  | .condDestroy => 5
  | .data => 6

/-- Where the main thread may be. It reads the flag as clear in every push. -/
def mains (called : Bool) : Pc α → Bool
  | .idle => true
  | .pushTest _ | .pushLock _ | .pushWhile _ | .pushWait _ | .pushAsleep _ | .pushRelock _ => !called
  | .pushData _ | .pushCount | .pushPointer | .pushSignal | .pushUnlock => !called
  | .destroyLock | .destroyFlag | .destroyWhile | .destroyWait | .destroyAsleep => called
  | .destroyRelock | .destroyUnlock | .destroyMutex | .destroyProdCond | .destroyConsCond => called
  | .destroyCondDestroy | .destroyFree => called
  | _ => false

/-- Where a worker may be. -/
def pops : Pc α → Bool
  | .idle | .popTestAmount | .popTestFlag | .popTestCount | .popSignalDestroy => true
  | pc => engaged pc

/-- What a worker adds to `cons_amount`. -/
def counted : Pc α → ℤ
  | .popWhile | .popWait | .popAsleep | .popRelock | .popTestKilled | .popKilledAmount => 1
  | .popTestDraining | .popTestDrainingAgain | .popData _ | .popCount _ | .popPointer _ => 1
  | .popAmount _ => 1
  | _ => 0

/-- A worker past its `while` has seen a job or the flag, and takes only a job that is there. -/
def Ready (q : Queue α) : Pc α → Prop
  | .popTestKilled => 0 < q.queueCount ∨ q.queueToBeDestroyed ≠ 0
  | .popTestDraining | .popTestDrainingAgain | .popData _ | .popCount _ => 0 < q.queueCount
  | _ => True

/-- **The invariant**: the fields, the main thread at `m`, the workers at `ws`, those that have left (`lv`) and
what is gone (`gn`). -/
structure Inv [Fintype W] (q : Queue α) (m : Pc α) (ws : W → Pc α) (called : Bool) (lv : W → Bool)
    (gn : Object → Bool) : Prop where
  main : mains called m = true
  workers : ∀ w, pops (ws w) = true
  flag : q.queueToBeDestroyed = if 1 ≤ stage called m then 1 else 0
  amount : q.consAmount = ∑ w, counted (ws w)
  count : 0 ≤ q.queueCount
  ready : ∀ w, Ready q (ws w)
  gone : ∀ o, gn o = decide (o.last < stage called m)
  left : ∀ w, lv w = true → ws w = .idle
  empty : 2 ≤ stage called m → q.queueCount = 0
  quiet : 3 ≤ stage called m → ∀ w, engaged (ws w) = false
  alone : 6 ≤ stage called m → ∀ w, lv w = true

variable {q q' : Queue α} {pc next : Pc α} {c : Bool}

/-! ### The statements of the main thread -/

/-- The main thread goes from stage to stage and sets the flag with the first. -/
theorem main_after (h : (stmt q pc).after q = some (q', next)) (hp : mains c pc = true) (hi : pc ≠ .idle)
    (hf : q.queueToBeDestroyed = if 1 ≤ stage c pc then 1 else 0) :
    mains c next = true ∧ q'.queueToBeDestroyed = if 1 ≤ stage c next then 1 else 0 := by
  cases pc <;> simp only [stmt, Effect.after, Option.some.injEq, Prod.mk.injEq, reduceCtorEq] at h
  all_goals
    obtain ⟨rfl, rfl⟩ := h
    simp_all [mains, stage]
  all_goals
    split_ifs <;> simp_all

/-- An object goes with the statement that ends its stage. -/
theorem main_gone (h : (stmt q pc).after q = some (q', next)) (hp : mains c pc = true) (hi : pc ≠ .idle)
    (hf : q.queueToBeDestroyed = if 1 ≤ stage c pc then 1 else 0) (o : Object) :
    o.last < stage c next ↔ o.last < stage c pc ∨ removes pc = some o := by
  cases pc <;> simp only [stmt, Effect.after, Option.some.injEq, Prod.mk.injEq, reduceCtorEq] at h
  all_goals
    obtain ⟨rfl, rfl⟩ := h
    cases o <;> simp_all [mains, stage, Object.last, removes]
  all_goals
    split_ifs <;> simp_all

/-- The main thread leaves `cons_amount` alone and only adds jobs, none once it has seen the queue empty. -/
theorem main_counts (h : (stmt q pc).after q = some (q', next)) (hp : mains c pc = true) (hi : pc ≠ .idle) :
    q'.consAmount = q.consAmount ∧ q.queueCount ≤ q'.queueCount ∧
      (2 ≤ stage c next → q'.queueCount = q.queueCount ∧ (2 ≤ stage c pc ∨ q.queueCount ≤ 0)) := by
  cases pc <;> simp only [stmt, Effect.after, Option.some.injEq, Prod.mk.injEq, reduceCtorEq] at h
  all_goals
    obtain ⟨rfl, rfl⟩ := h
    simp_all [mains, stage]
  all_goals
    split_ifs <;> simp_all [mustWait]

/-- The stages that the condition is about begin with the statements it names. -/
theorem main_stage (h : (stmt q pc).after q = some (q', next)) (hp : mains c pc = true) (hi : pc ≠ .idle) :
    (3 ≤ stage c next → 3 ≤ stage c pc ∨ pc = .destroyMutex) ∧
      (6 ≤ stage c next → 6 ≤ stage c pc ∨ pc = .destroyCondDestroy) := by
  cases pc <;> simp only [stmt, Effect.after, Option.some.injEq, Prod.mk.injEq, reduceCtorEq] at h
  all_goals
    obtain ⟨rfl, rfl⟩ := h
    simp_all [mains, stage]
  all_goals
    split_ifs <;> simp_all

/-! ### The statements of a worker -/

/-- A worker goes through `job_queue_pop`; `cons_amount` says whether it is counted. -/
theorem worker_after (h : (stmt q pc).after q = some (q', next)) (hp : pops pc = true) :
    pops next = true ∧ q'.queueToBeDestroyed = q.queueToBeDestroyed ∧
      q'.consAmount + counted pc = q.consAmount + counted next := by
  cases pc <;> simp only [stmt, Effect.after, Option.some.injEq, Prod.mk.injEq, reduceCtorEq] at h
  all_goals
    obtain ⟨rfl, rfl⟩ := h
    simp_all [pops, engaged, counted]
  all_goals
    split_ifs <;> simp_all

/-- A worker takes only a job that is there. -/
theorem worker_ready (h : (stmt q pc).after q = some (q', next)) (hp : pops pc = true)
    (hf : q.queueToBeDestroyed = 0 ∨ q.queueToBeDestroyed = 1) (hr : Ready q pc) (h0 : 0 ≤ q.queueCount) :
    Ready q' next ∧ 0 ≤ q'.queueCount ∧ q'.queueCount ≤ q.queueCount := by
  cases pc <;> simp only [stmt, Effect.after, Option.some.injEq, Prod.mk.injEq, reduceCtorEq] at h
  all_goals
    obtain ⟨rfl, rfl⟩ := h
    simp_all [pops, engaged, Ready]
  all_goals
    first
    | omega
    | (split_ifs <;> simp_all <;> omega)

/-- A worker gets into the critical section only past the tests at the start of `job_queue_pop`. -/
theorem worker_engages (h : (stmt q pc).after q = some (q', next)) (he : engaged next = true)
    (ha : q.consAmount = 0) (hf : q.queueToBeDestroyed = 1) (hc : q.queueCount = 0) : engaged pc = true := by
  cases pc <;> simp only [stmt, Effect.after, Option.some.injEq, Prod.mk.injEq, reduceCtorEq] at h
  all_goals
    obtain ⟨-, rfl⟩ := h
    first
    | rfl
    | (split_ifs at he <;> simp_all [engaged])
    | simp_all [engaged]

/-- A worker whose call fails is done with it. -/
theorem worker_fails (h : (stmt q pc).after q = some (q', next)) (hp : popFails pc = true) : next = .idle := by
  cases pc <;> simp only [popFails, reduceCtorEq] at hp
  all_goals
    simp only [stmt, Effect.after, Option.some.injEq, Prod.mk.injEq] at h
    exact h.2.symm

omit [DecidableEq W] in
theorem removes_worker (hp : pops pc = true) (o : Object) : removes pc ≠ some o := by
  cases pc <;> simp_all [pops, engaged, removes]

/-- A worker outside the critical section is not counted. -/
theorem counted_eq_zero (h : engaged pc = false) : counted pc = 0 := by
  cases pc <;> simp_all [engaged, counted]

/-- A worker that another thread's statement concerns is inside. -/
theorem ready_outside (h : pc.inside = false) : Ready q pc := by
  cases pc <;> simp_all [Pc.inside, Ready]

/-! ### Steps -/

section Inv
variable [Fintype W] {m : Pc α} {ws : W → Pc α} {lv : W → Bool} {gn : Object → Bool}

omit [DecidableEq W] in
/-- The main thread calls a function. -/
theorem Inv.main_calls {c' : Bool} (h : Inv q m ws c lv gn) (hm : mains c' next = true)
    (hst : stage c' next = stage c m) : Inv q next ws c' lv gn :=
  ⟨hm, h.workers, hst ▸ h.flag, h.amount, h.count, h.ready, hst ▸ h.gone, h.left, hst ▸ h.empty, hst ▸ h.quiet,
    hst ▸ h.alone⟩

omit [DecidableEq W] in
/-- **A statement of the main thread** keeps the invariant. -/
theorem Inv.main_step (h : Inv q m ws c lv gn) (hs : (stmt q m).after q = some (q', next)) (hi : m ≠ .idle)
    (hin : q' ≠ q → ∀ w, (ws w).inside = false)
    (hm : m = .destroyMutex → ∀ w, engaged (ws w) = false) (hd : m = .destroyCondDestroy → ∀ w, lv w = true) :
    Inv q' next ws c lv (fun o => gn o || decide (removes m = some o)) := by
  obtain ⟨h1, h2⟩ := main_after hs h.main hi h.flag
  obtain ⟨h3, h4, h5⟩ := main_counts hs h.main hi
  obtain ⟨h6, h7⟩ := main_stage hs h.main hi
  refine ⟨h1, h.workers, h2, h3.trans h.amount, h.count.trans h4, fun w => ?_, fun o => ?_, h.left, fun hs2 => ?_,
    fun hs3 => ?_, fun hs6 => ?_⟩
  · by_cases hq : q' = q
    · rw [hq]
      exact h.ready w
    · exact ready_outside (hin hq w)
  · have hgone := main_gone hs h.main hi h.flag o
    rw [h.gone o]
    by_cases hr : removes m = some o
    · simp [hgone, hr]
    · simp [hgone, hr]
  · obtain ⟨hc, hempty | hle⟩ := h5 hs2
    · rw [hc]
      exact h.empty hempty
    · -- the `while` of `job_queue_destroy` has found the queue empty
      have := h.count
      omega
  · rcases h6 hs3 with h8 | h8
    · exact h.quiet h8
    · exact hm h8
  · rcases h7 hs6 with h8 | h8
    · exact h.alone h8
    · exact hd h8

omit [DecidableEq W] in
/-- No worker is counted once none is in the critical section. -/
theorem Inv.amount_eq_zero (h : Inv q m ws c lv gn) (h3 : 3 ≤ stage c m) : q.consAmount = 0 := by
  rw [h.amount]
  exact Finset.sum_eq_zero fun w _ => counted_eq_zero (h.quiet h3 w)

omit [DecidableEq W] in
/-- From the first stage on the flag is set, before it is clear. -/
theorem Inv.flag_cases (h : Inv q m ws c lv gn) : q.queueToBeDestroyed = 0 ∨ q.queueToBeDestroyed = 1 := by
  rw [h.flag]
  split_ifs
  · exact Or.inr rfl
  · exact Or.inl rfl

/-- **A worker moves** and keeps the invariant. -/
theorem Inv.worker_moves (h : Inv q m ws c lv gn) {w : W} {lv' : W → Bool} (hp : pops next = true)
    (hf : q'.queueToBeDestroyed = q.queueToBeDestroyed)
    (ha : q'.consAmount + counted (ws w) = q.consAmount + counted next) (hr : Ready q' next)
    (h0 : 0 ≤ q'.queueCount) (hle : q'.queueCount ≤ q.queueCount)
    (hin : q' ≠ q → ∀ i, i ≠ w → (ws i).inside = false) (hmono : ∀ i, lv i = true → lv' i = true)
    (hlv : ∀ i, lv' i = true → if i = w then next = .idle else lv i = true)
    (he : 3 ≤ stage c m → engaged next = false) : Inv q' m (Function.update ws w next) c lv' gn := by
  refine ⟨h.main, ?_, hf.trans h.flag, ?_, h0, ?_, h.gone, fun i hl => ?_, fun hs2 => ?_, fun hs3 => ?_,
    fun hs6 i => hmono i (h.alone hs6 i)⟩
  · exact (Function.forall_update_iff ws fun _ pc => pops pc = true).mpr ⟨hp, fun i _ => h.workers i⟩
  · have htotal := total_update ws counted w next
    have := h.amount
    omega
  · refine (Function.forall_update_iff ws fun _ pc => Ready q' pc).mpr ⟨hr, fun i hiw => ?_⟩
    by_cases hq : q' = q
    · rw [hq]
      exact h.ready i
    · exact ready_outside (hin hq i hiw)
  · have hnow := hlv i hl
    by_cases hiw : i = w
    · rw [if_pos hiw] at hnow
      rw [hiw, Function.update_self]
      exact hnow
    · rw [if_neg hiw] at hnow
      rw [Function.update_of_ne hiw]
      exact h.left i hnow
  · have := h.empty hs2
    omega
  · exact (Function.forall_update_iff ws fun _ pc => engaged pc = false).mpr ⟨he hs3, fun i _ => h.quiet hs3 i⟩

/-- A worker calls `job_queue_pop`. -/
theorem Inv.worker_calls (h : Inv q m ws c lv gn) {w : W} (hi : ws w = .idle) (hl : lv w = false) :
    Inv q m (Function.update ws w .popTestAmount) c lv gn := by
  refine h.worker_moves rfl rfl (by rw [hi]; rfl) trivial h.count le_rfl (fun hq => absurd rfl hq) (fun _ h => h)
    (fun i hli => ?_) (fun _ => rfl)
  by_cases hiw : i = w
  · rw [hiw, hl] at hli
    exact absurd hli Bool.false_ne_true
  · rw [if_neg hiw]
    exact hli

/-- **A statement of a worker** keeps the invariant. -/
theorem Inv.worker_step (h : Inv q m ws c lv gn) {w : W} (hs : (stmt q (ws w)).after q = some (q', next))
    (hi : ws w ≠ .idle) (hin : q' ≠ q → ∀ i, i ≠ w → (ws i).inside = false) :
    Inv q' m (Function.update ws w next) c (fun i => lv i || (decide (w = i) && popFails (ws w))) gn := by
  obtain ⟨h1, h2, h3⟩ := worker_after hs (h.workers w)
  obtain ⟨h4, h5, h6⟩ := worker_ready hs (h.workers w) h.flag_cases (h.ready w) h.count
  refine h.worker_moves h1 h2 h3 h4 h5 h6 hin (fun i hl => by simp [hl]) (fun i hl => ?_) fun hs3 => ?_
  · by_cases hiw : i = w
    · subst hiw
      have hnot : lv i = false := Bool.eq_false_iff.mpr fun hl => hi (h.left i hl)
      rw [if_pos rfl]
      exact worker_fails hs (by simpa [hnot] using hl)
    · rw [if_neg hiw]
      simpa [Ne.symm hiw] using hl
  · -- without the mutex a call goes through the tests to the signal
    refine Bool.eq_false_iff.mpr fun he => ?_
    have hpc := worker_engages hs he (h.amount_eq_zero hs3) (h.flag.trans (if_pos (by omega)))
      (h.empty (by omega))
    rw [h.quiet hs3 w] at hpc
    exact Bool.false_ne_true hpc

end Inv

variable [Fintype W] {s s' : State W α} {t : Option W}

/-- What holds of a state that awaited steps reach. -/
structure State.Sound (s : State W α) : Prop where
  excl : Exclusion.Inv s.shared
  done : s.called = true → s.jobs = []
  inv : Inv s.shared.queue (s.shared.pc none) (fun w => s.shared.pc (some w)) s.called s.left s.gone

/-- The main thread reads the flag as clear in a push, so it takes no mutex that is not its own. -/
theorem State.Sound.careful (h : s.Sound) {shared : Exclusion.State (Option W) α}
    (hs : Exclusion.Step t s.shared shared) : Exclusion.Careful t s.shared shared := by
  refine ⟨hs, fun d hd => ?_⟩
  cases t with
  | none =>
    rw [h.inv.flag, hd]
    rfl
  | some w =>
    have hw : pops (s.shared.pc (some w)) = true := h.inv.workers w
    rw [hd] at hw
    cases hw

/-- The thread that changes the fields is the only one inside. -/
theorem State.Sound.others_outside (h : s.Sound) {shared : Exclusion.State (Option W) α}
    (hs : Exclusion.Step t s.shared shared) (hq : shared.queue ≠ s.shared.queue) (i : Option W) (hi : i ≠ t) :
    (s.shared.pc i).inside = false := by
  refine Bool.eq_false_iff.mpr fun hin => hi ?_
  have howner := h.excl.exclusive.writes t shared hs hq
  rw [(h.excl.inside i).mp hin] at howner
  exact Option.some.inj howner

omit [Fintype W] in
theorem workers_update_none (f : Option W → Pc α) (x : Pc α) :
    (fun w => Function.update f none x (some w)) = fun w => f (some w) :=
  funext fun _ => Function.update_of_ne (Option.some_ne_none _) _ _

omit [Fintype W] in
theorem workers_update_some (f : Option W → Pc α) (w : W) (x : Pc α) :
    (fun i => Function.update f (some w) x (some i)) = Function.update (fun i => f (some i)) w x :=
  Function.update_comp_eq_of_injective f (Option.some_injective W) w x

/-- **Every awaited step** keeps the invariant. -/
theorem State.Sound.step (h : s.Sound) (ha : Awaited t s s') : s'.Sound := by
  obtain ⟨hs, hm, hd⟩ := ha
  cases hs with
  | @push _ d ds hidle hj =>
    have hc : s.called = false := Bool.eq_false_iff.mpr fun hc => by simp [h.done hc] at hj
    refine ⟨h.excl.step (h.careful (.call hidle (.push d))), fun hc' => ?_, ?_⟩
    · exact absurd (hc ▸ hc') Bool.false_ne_true
    · show Inv s.shared.queue (Function.update s.shared.pc none (.pushTest d) none)
        (fun w => Function.update s.shared.pc none (.pushTest d) (some w)) s.called s.left s.gone
      rw [workers_update_none, Function.update_self]
      exact h.inv.main_calls (by rw [hc]; rfl) (by rw [hidle, hc]; rfl)
  | destroy hidle hj hc =>
    refine ⟨h.excl.step (h.careful (.call hidle .destroy)), fun _ => hj, ?_⟩
    show Inv s.shared.queue (Function.update s.shared.pc none .destroyLock none)
      (fun w => Function.update s.shared.pc none .destroyLock (some w)) true s.left s.gone
    rw [workers_update_none, Function.update_self]
    exact h.inv.main_calls rfl (by rw [hidle, hc]; rfl)
  | @pop _ w hidle hl =>
    refine ⟨h.excl.step (h.careful (.call hidle .pop)), h.done, ?_⟩
    show Inv s.shared.queue (Function.update s.shared.pc (some w) .popTestAmount none)
      (fun i => Function.update s.shared.pc (some w) .popTestAmount (some i)) s.called s.left s.gone
    rw [workers_update_some, Function.update_of_ne (Option.some_ne_none w).symm]
    exact h.inv.worker_calls hidle hl
  | @stmt _ _ shared hidle hstep =>
    refine ⟨h.excl.step (h.careful hstep), h.done, ?_⟩
    have hout := h.others_outside hstep
    obtain ⟨next, hpc, ⟨hi, -, -⟩ | hmove⟩ := hstep.moves
    · exact absurd hi hidle
    show Inv shared.queue (shared.pc none) (fun w => shared.pc (some w)) s.called
      (fun w => s.left w || (decide (t = some w) && popFails (s.shared.pc t)))
      (fun o => s.gone o || decide (removes (s.shared.pc t) = some o))
    rw [hpc]
    cases t with
    | none =>
      rw [workers_update_none, Function.update_self]
      simpa using h.inv.main_step hmove hidle (fun hq w => hout hq (some w) (Option.some_ne_none w)) hm hd
    | some w =>
      rw [workers_update_some, Function.update_of_ne (Option.some_ne_none w).symm]
      have hnone : ∀ o, removes (s.shared.pc (some w)) ≠ some o := removes_worker (h.inv.workers w)
      simpa [hnone] using h.inv.worker_step hmove hidle fun hq i hi =>
        hout hq (some i) fun he => hi (Option.some.inj he)

omit [DecidableEq W] in
theorem sound_start (jobs : List α) (data : ℤ → α) (capacity : ℤ) : (start W jobs data capacity).Sound := by
  refine ⟨inv_start data capacity, fun hc => absurd hc Bool.false_ne_true, ?_⟩
  refine ⟨rfl, fun _ => rfl, rfl, ?_, le_rfl, fun _ => trivial, fun _ => rfl, fun _ _ => rfl, fun _ => rfl,
    fun _ _ => rfl, fun h => absurd h (by simp [stage, start, Exclusion.start])⟩
  simp [start, Exclusion.start, jobQueueInit, counted]

/-! ### What the threads use -/

theorem two_le_last (o : Object) : 2 ≤ o.last := by
  cases o <;> decide

/-- The main thread uses an object only before the stage at whose end it goes is over. -/
theorem main_uses {o : Object} (hp : mains c pc = true) (ho : o ∈ uses pc) : stage c pc ≤ o.last := by
  have h2 := two_le_last o
  cases pc <;> simp_all [mains, uses, stage]
  all_goals omega

/-- A worker outside the critical section uses `cond_destroy` at most. -/
theorem worker_uses {o : Object} (hp : pops pc = true) (ho : o ∈ uses pc) (he : engaged pc = false) :
    o = .condDestroy ∧ pc ≠ .idle := by
  cases pc <;> simp_all [pops, uses, engaged]

omit [DecidableEq W] in
/-- The invariant says that nothing is used after it is gone. -/
theorem State.Sound.untouched (h : s.Sound) : s.Untouched := by
  intro t o ho
  rw [h.inv.gone o, decide_eq_false_iff_not, not_lt]
  cases t with
  | none => exact main_uses h.inv.main ho
  | some w =>
    have hp : pops (s.shared.pc (some w)) = true := h.inv.workers w
    by_cases h3 : 3 ≤ stage s.called (s.shared.pc none)
    · obtain ⟨rfl, hidle⟩ := worker_uses hp ho (h.inv.quiet h3 w)
      by_contra h6
      exact hidle (h.inv.left w (h.inv.alone (by rw [not_le] at h6; exact h6) w))
    · have := two_le_last o
      omega

/-! ### Where the condition fails -/

/-- The statements of a worker before one that uses the mutex in the critical section, or `cond_destroy` outside. -/
def ahead : Pc α → ℕ
  | .idle => 4
  | .popTestAmount => 3
  | .popTestFlag => 2
  | .popTestCount => 1
  | .popEnter => 10
  | .popWhile => 9
  | .popTestKilled => 8
  | .popTestDraining => 7
  | .popTestDrainingAgain => 6
  | .popData _ => 5
  | .popCount _ => 4
  | .popPointer _ => 3
  | .popAmount _ => 2
  | .popKilledAmount => 2
  | .popSignal _ => 1
  | .popKilledSignal => 1
  | _ => 0

/-- A worker on its way through the critical section gets to a statement that uses the mutex. -/
theorem engaged_goes_on (q : Queue α) (he : engaged pc = true) : Object.queueAccess ∈ uses pc ∨
    ∃ q' next, stmt q pc = .run q' next ∧ engaged next = true ∧ ahead next < ahead pc := by
  cases pc <;> simp only [engaged, reduceCtorEq] at he
  all_goals
    first
    | exact Or.inl (List.mem_cons_self ..)
    | refine Or.inr ⟨_, _, rfl, ?_, ?_⟩
      · first | rfl | (split_ifs <;> rfl)
      · first | (split_ifs <;> simp [ahead]) | simp [ahead]

/-- A worker in a call from which it will not get into the critical section gets to a statement that uses
`cond_destroy`. -/
theorem tests_go_on (ha : q.consAmount = 0) (hf : q.queueToBeDestroyed = 1) (hc : q.queueCount = 0)
    (hp : pops pc = true) (he : engaged pc = false) (hi : pc ≠ .idle) : Object.condDestroy ∈ uses pc ∨
    ∃ next, stmt q pc = .run q next ∧ pops next = true ∧ engaged next = false ∧ popFails pc = false ∧
      ahead next < ahead pc := by
  cases pc <;> simp_all [pops, engaged, uses, stmt, popFails, ahead]

omit [Fintype W] in
/-- A worker runs a statement on the fields. -/
theorem worker_runs {w : W} (hi : s.shared.pc (some w) ≠ .idle)
    (hr : stmt s.shared.queue (s.shared.pc (some w)) = .run q next) :
    Any s (s.ran (some w) { s.shared with queue := q, pc := Function.update s.shared.pc (some w) next }) :=
  ⟨some w, .stmt hi (.run hr)⟩

omit [Fintype W] in
/-- **The mutex is gone under a worker**: it will use it. -/
theorem mutex_used {w : W} (he : engaged (s.shared.pc (some w)) = true) (hg : s.gone .queueAccess = true) :
    ∃ s', Reaches Any s s' ∧ ¬ s'.Untouched := by
  refine exists_reaches (fun s => ahead (s.shared.pc (some w)))
    (fun s (hP : engaged (s.shared.pc (some w)) = true ∧ s.gone .queueAccess = true) => ?_) ⟨he, hg⟩
  obtain ⟨he, hg⟩ := hP
  rcases engaged_goes_on s.shared.queue he with hu | ⟨q', next, hr, hn, hlt⟩
  · refine Or.inl fun hfree => ?_
    rw [hfree _ _ hu] at hg
    exact Bool.false_ne_true hg
  · have hi : s.shared.pc (some w) ≠ .idle := fun hi => by rw [hi] at he; cases he
    refine Or.inr ⟨_, worker_runs hi hr, ⟨?_, ?_⟩, ?_⟩
    · show engaged (Function.update s.shared.pc (some w) next (some w)) = true
      rw [Function.update_self]
      exact hn
    · show (s.gone .queueAccess || _) = true
      rw [hg]
      rfl
    · show ahead (Function.update s.shared.pc (some w) next (some w)) < _
      rw [Function.update_self]
      exact hlt

/-- A worker that has not left its loop, outside the critical section, and the values with which its next call
signals `cond_destroy`. -/
structure Outside (w : W) (s : State W α) : Prop where
  pops : pops (s.shared.pc (some w)) = true
  outside : engaged (s.shared.pc (some w)) = false
  left : s.left w = false
  gone : s.gone .condDestroy = true
  amount : s.shared.queue.consAmount = 0
  flag : s.shared.queue.queueToBeDestroyed = 1
  count : s.shared.queue.queueCount = 0

omit [Fintype W] in
/-- **`cond_destroy` is gone before a worker has left**: it will signal it. -/
theorem condDestroy_used {w : W} (h : Outside w s) : ∃ s', Reaches Any s s' ∧ ¬ s'.Untouched := by
  refine exists_reaches (fun s => ahead (s.shared.pc (some w))) (fun s (h : Outside w s) => ?_) h
  by_cases hi : s.shared.pc (some w) = .idle
  · -- the next call
    refine Or.inr ⟨_, ⟨some w, .pop hi h.left⟩, ⟨?_, ?_, h.left, h.gone, h.amount, h.flag, h.count⟩, ?_⟩
    · show Teardown.pops (Function.update s.shared.pc (some w) .popTestAmount (some w)) = true
      rw [Function.update_self]
      rfl
    · show engaged (Function.update s.shared.pc (some w) .popTestAmount (some w)) = false
      rw [Function.update_self]
      rfl
    · show ahead (Function.update s.shared.pc (some w) .popTestAmount (some w)) < _
      rw [Function.update_self, hi]
      simp [ahead]
  · rcases tests_go_on h.amount h.flag h.count h.pops h.outside hi with hu | ⟨next, hr, hn, hn', hnf, hlt⟩
    · refine Or.inl fun hfree => ?_
      have hg := h.gone
      rw [hfree _ _ hu] at hg
      exact Bool.false_ne_true hg
    · refine Or.inr ⟨_, worker_runs hi hr, ⟨?_, ?_, ?_, ?_, h.amount, h.flag, h.count⟩, ?_⟩
      · show Teardown.pops (Function.update s.shared.pc (some w) next (some w)) = true
        rw [Function.update_self]
        exact hn
      · show engaged (Function.update s.shared.pc (some w) next (some w)) = false
        rw [Function.update_self]
        exact hn'
      · show (s.left w || _) = false
        rw [h.left, hnf, Bool.and_false]
        rfl
      · show (s.gone .condDestroy || _) = true
        rw [h.gone]
        rfl
      · show ahead (Function.update s.shared.pc (some w) next (some w)) < _
        rw [Function.update_self]
        exact hlt

omit [Fintype W] in
/-- A thread in a function runs its statement. -/
theorem Step.inside (hs : Step t s s') (hi : s.shared.pc t ≠ .idle) : ∃ shared next,
    s' = s.ran t shared ∧ shared.pc = Function.update s.shared.pc t next ∧
      (Exclusion.stmt s.shared.queue (s.shared.pc t)).after s.shared.queue = some (shared.queue, next) := by
  cases hs with
  | push hidle _ => exact absurd hidle hi
  | destroy hidle _ _ => exact absurd hidle hi
  | pop hidle _ => exact absurd hidle hi
  | @stmt _ _ shared _ hstep =>
    obtain ⟨next, hpc, ⟨hidle, -, -⟩ | hmove⟩ := hstep.moves
    · exact absurd hidle hi
    · exact ⟨shared, next, rfl, hpc, hmove⟩

/-- **A step that is not awaited** can be followed by steps that lead to the use of what is gone. -/
theorem State.Sound.careless (h : s.Sound) (hs : Step t s s') (hn : ¬ Awaited t s s') :
    ∃ s'', Reaches Any s' s'' ∧ ¬ s''.Untouched := by
  by_cases hm : s.shared.pc t = .destroyMutex → ∀ w, engaged (s.shared.pc (some w)) = false
  · have hd : ¬ (s.shared.pc t = .destroyCondDestroy → ∀ w, s.left w = true) := fun hd => hn ⟨hs, hm, hd⟩
    push Not at hd
    obtain ⟨hpc, w, hw⟩ := hd
    obtain ⟨shared, next, rfl, hshared, hmove⟩ := hs.inside (by rw [hpc]; rintro ⟨⟩)
    cases t with
    | some i =>
      have hp : pops (s.shared.pc (some i)) = true := h.inv.workers i
      rw [hpc] at hp
      cases hp
    | none =>
      have hstage : stage s.called (s.shared.pc none) = 5 := by rw [hpc]; rfl
      have hq : shared.queue = s.shared.queue := by
        rw [hpc] at hmove
        simp only [stmt, Effect.after, Option.some.injEq, Prod.mk.injEq] at hmove
        exact hmove.1.symm
      have hsame : shared.pc (some w) = s.shared.pc (some w) := by
        rw [hshared, Function.update_of_ne (Option.some_ne_none w)]
      suffices ho : Outside w (s.ran none shared) from condDestroy_used ho
      refine ⟨?_, ?_, ?_, ?_, ?_, ?_, ?_⟩
      · show pops (shared.pc (some w)) = true
        rw [hsame]
        exact h.inv.workers w
      · show engaged (shared.pc (some w)) = false
        rw [hsame]
        exact h.inv.quiet (by omega) w
      · show (s.left w || _) = false
        rw [Bool.eq_false_iff.mpr hw]
        rfl
      · show (s.gone .condDestroy || decide (removes (s.shared.pc none) = some .condDestroy)) = true
        rw [hpc]
        simp [removes]
      · show shared.queue.consAmount = 0
        rw [hq]
        exact h.inv.amount_eq_zero (by omega)
      · show shared.queue.queueToBeDestroyed = 1
        rw [hq, h.inv.flag, hstage]
        rfl
      · show shared.queue.queueCount = 0
        rw [hq]
        exact h.inv.empty (by omega)
  · push Not at hm
    obtain ⟨hpc, w, hw⟩ := hm
    obtain ⟨shared, next, rfl, hshared, -⟩ := hs.inside (by rw [hpc]; rintro ⟨⟩)
    have hne : some w ≠ t := fun he => by
      rw [he, hpc] at hw
      exact hw rfl
    have he : engaged (shared.pc (some w)) = true := by
      rw [hshared, Function.update_of_ne hne]
      simpa using hw
    have hg : (s.gone .queueAccess || decide (removes (s.shared.pc t) = some .queueAccess)) = true := by
      rw [hpc]
      simp [removes]
    exact mutex_used he hg

/-- **Nothing is used after it is gone**, for any number of workers, any jobs and any capacity, in every state
that awaited steps reach; and a step that is not awaited leads to a state from which it may be. -/
theorem gone_unused (jobs : List α) (data : ℤ → α) (capacity : ℤ)
    (h : Reaches (fun s s' => ∃ t, Awaited t s s') (start W jobs data capacity) s) :
    s.Untouched ∧ ∀ t s', Step t s s' → ¬ Awaited t s s' → ∃ s'', Reaches Any s' s'' ∧ ¬ s''.Untouched := by
  have hsound : s.Sound := h.invariant (fun _ _ hI ⟨_, ha⟩ => hI.step ha) (sound_start jobs data capacity)
  exact ⟨hsound.untouched, fun _ _ hs hn => hsound.careless hs hn⟩

/-- One worker leaves its loop before the mutex goes, and everything goes. -/
theorem gone_unused_one : ∃ s : State (Fin 1) ℕ,
    Reaches (fun s s' => ∃ t, Awaited t s s') (start (Fin 1) [] (fun _ => 0) 1) s ∧ s.gone .data = true ∧
      s.Untouched := by
  have h1 : Steps (fun s s' => ∃ t, Awaited t s s') (start (Fin 1) [] (fun _ => (0 : ℕ)) 1) _ _ :=
    .tail .refl ⟨none, .destroy rfl rfl rfl, nofun, nofun⟩
  have h2 := h1.tail ⟨none, .stmt nofun (.lock rfl rfl), nofun, nofun⟩
  have h3 := h2.tail ⟨none, .stmt nofun (.run rfl), nofun, nofun⟩
  have h4 := h3.tail ⟨none, .stmt nofun (.run rfl), nofun, nofun⟩
  have h5 := h4.tail ⟨none, .stmt nofun (.unlock rfl), nofun, nofun⟩
  have h6 := h5.tail ⟨some 0, .pop rfl rfl, nofun, nofun⟩
  have h7 := h6.tail ⟨some 0, .stmt nofun (.run rfl), nofun, nofun⟩
  have h8 := h7.tail ⟨some 0, .stmt nofun (.run rfl), nofun, nofun⟩
  have h9 := h8.tail ⟨some 0, .stmt nofun (.run rfl), nofun, nofun⟩
  have h10 := h9.tail ⟨some 0, .stmt nofun (.run rfl), nofun, nofun⟩
  have h11 := h10.tail ⟨none, .stmt nofun (.run rfl), fun _ w => by rw [Subsingleton.elim w 0]; rfl, nofun⟩
  have h12 := h11.tail ⟨none, .stmt nofun (.run rfl), nofun, nofun⟩
  have h13 := h12.tail ⟨none, .stmt nofun (.run rfl), nofun, nofun⟩
  have h14 := h13.tail ⟨none, .stmt nofun (.run rfl), nofun, fun _ w => by rw [Subsingleton.elim w 0]; rfl⟩
  have h15 := h14.tail ⟨none, .stmt nofun (.run rfl), nofun, nofun⟩
  exact ⟨_, ⟨_, h15⟩, rfl, (gone_unused [] (fun _ => 0) 1 ⟨_, h15⟩).1⟩

/-- **The mutex is locked after it is destroyed**: the worker has read the flag as clear when the main thread
sets it; no worker is counted, the main thread destroys the mutex, and the worker locks it. -/
theorem locked_after_destroy : ∃ s s' : State (Fin 1) ℕ,
    Reaches Any (start (Fin 1) [] (fun _ => 0) 1) s ∧ s.gone .queueAccess = true ∧
      s.shared.pc (some 0) = .popLock ∧ ¬ s.Untouched ∧ Step (some 0) s s' ∧
      s'.shared.owner = some (some 0) := by
  have h1 : Steps Any (start (Fin 1) [] (fun _ => (0 : ℕ)) 1) _ _ := .tail .refl ⟨some 0, .pop rfl rfl⟩
  have h2 := h1.tail ⟨some 0, .stmt nofun (.run rfl)⟩
  have h3 := h2.tail ⟨some 0, .stmt nofun (.run rfl)⟩
  have h4 := h3.tail ⟨none, .destroy rfl rfl rfl⟩
  have h5 := h4.tail ⟨none, .stmt nofun (.lock rfl rfl)⟩
  have h6 := h5.tail ⟨none, .stmt nofun (.run rfl)⟩
  have h7 := h6.tail ⟨none, .stmt nofun (.run rfl)⟩
  have h8 := h7.tail ⟨none, .stmt nofun (.unlock rfl)⟩
  have h9 := h8.tail ⟨none, .stmt nofun (.run rfl)⟩
  refine ⟨_, _, ⟨_, h9⟩, rfl, rfl, fun hfree => ?_, .stmt nofun (.lock rfl rfl), rfl⟩
  exact absurd (hfree (some 0) .queueAccess (List.mem_singleton_self _)) (by decide)

end CompSys.A2.Teardown
