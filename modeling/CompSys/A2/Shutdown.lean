import CompSys.A2.Delivery

/-! # Shutting down

Without spurious wakeups a thread that waits needs a signal. The main thread always gets one while it
pushes. `destroy` does not: it wakes nobody when it sets its flag, and a worker that finds the queue
destroyed and empty under the lock signals `cons_cond`, not `cond_destroy`. So `destroy` sleeps for ever
if all workers are asleep or gone when it goes to sleep, or if the last worker leaves on that branch
while it sleeps. There is no other way into a deadlock (`shutdown_live`). -/

namespace CompSys.A2.Shutdown

open CompSys.Lib.Runs CompSys.Lib.Fifo
open CompSys.A2.JobQueue CompSys.A2.Threads CompSys.A2.Delivery

variable {n : ℕ} {α : Type*}

/-- The worker needs no signal to go on. -/
def WorkerAt.awake : WorkerAt → Bool
  | .waiting => false
  | .finished => false
  | _ => true

/-- Every thread has returned. -/
def Finished (s : State n α) : Prop := s.main = .finished ∧ ∀ w, s.workers w = .finished

/-- **A deadlock**: some thread has not returned, and no thread can take a step. -/
def Deadlocked (s : State n α) : Prop := ¬ Finished s ∧ ∀ e s', ¬ Threads.Step False s e s'

/-- A step other than the two that strand `destroy`: it does not go to sleep when every worker is asleep
or gone, and while it sleeps the last worker does not leave `pop` on a branch under the lock. -/
structure Careful (s : State n α) (e : Option (Event (Fin n) α)) (s' : State n α) : Prop where
  step : Threads.Step False s e s'
  sleeps : s.main = .destroyLock ∨ s.main = .destroyWoken → s'.main = .destroyWaiting →
    ∃ w, WorkerAt.awake (s.workers w) = true
  leaves : ∀ w, s.workers w = .lock ∨ s.workers w = .woken → s'.workers w = .finished →
    s.main = .destroyWaiting → ∃ i, i ≠ w ∧ s.workers i ≠ .finished

/-- What holds between two steps. -/
structure Lively (s : State n α) : Prop where
  inv : Delivery.Inv s
  /-- Before `destroy` no worker has found the queue destroyed. -/
  opened : s.main.closed = false → ∀ w, s.workers w ≠ .testCount ∧ s.workers w ≠ .signalDestroy ∧
    s.workers w ≠ .finished
  /-- Somebody is on the way to a job. -/
  busy : s.main.closed = false → 0 < s.queue.queueCount →
    ∃ w, WorkerAt.awake (s.workers w) = true
  full : ∀ d rest, s.main = .pushWaiting d rest → s.queue.capacity ≤ s.queue.queueCount
  destroying : s.main = .destroyWaiting → ∃ w, WorkerAt.awake (s.workers w) = true
  left : s.main.leftWait = true → ∀ w, (s.workers w).inside = false

variable {s s' : State n α} {e : Option (Event (Fin n) α)} {w : Fin n}

theorem asleep_or_finished {a : WorkerAt} (h : ¬ WorkerAt.awake a = true) :
    a = .waiting ∨ a = .finished := by
  cases a <;> simp_all [WorkerAt.awake]

/-! ### Some thread can take a step -/

theorem signal_exists (c : Cond) (s : State n α) : ∃ s', Signal c s s' := by
  by_cases h : s.Awaited c
  · cases c with
    | prodCond =>
      obtain ⟨d, rest, hm⟩ := h
      exact ⟨_, .wake (.push hm)⟩
    | consCond =>
      obtain ⟨w, hw⟩ := h
      exact ⟨_, .wake (.pop hw)⟩
    | condDestroy => exact ⟨_, .wake (.destroy h)⟩
  · exact ⟨s, .lost h⟩

/-- A worker that is awake can take a step. -/
theorem step_of_awake {spurious : Prop} (h : WorkerAt.awake (s.workers w) = true) :
    ∃ e s', Threads.Step spurious s e s' := by
  have hlock : s.workers w = .lock ∨ s.workers w = .woken → ∃ e s', Threads.Step spurious s e s' := by
    intro hw
    cases hq : popSection (s.entered w) with
    | wait c q => exact ⟨_, _, .popWaits hw hq⟩
    | done c q r =>
      cases r with
      | none =>
        obtain ⟨s', hs'⟩ := signal_exists c ({ s with queue := q }.moveWorker w .finished)
        exact ⟨_, s', .popFails hw hq hs'⟩
      | some d =>
        obtain ⟨s', hs'⟩ := signal_exists c ({ s with queue := q }.moveWorker w .testConsAmount)
        exact ⟨_, s', .popTakes hw hq hs'⟩
  cases hw : s.workers w with
  | testConsAmount => exact ⟨_, _, .testConsAmount hw⟩
  | testDestroyed => exact ⟨_, _, .testDestroyed hw⟩
  | testCount => exact ⟨_, _, .testCount hw⟩
  | signalDestroy =>
    obtain ⟨s', hs'⟩ := signal_exists .condDestroy (s.moveWorker w .finished)
    exact ⟨_, s', .signalDestroy hw hs'⟩
  | lock => exact hlock (Or.inl hw)
  | woken => exact hlock (Or.inr hw)
  | waiting => rw [hw] at h; cases h
  | finished => rw [hw] at h; cases h

/-- A push that holds the lock can go on. -/
theorem step_of_push {spurious : Prop} {d : α} {rest : List α}
    (hm : s.main = .pushLock d rest ∨ s.main = .pushWoken d rest) :
    ∃ e s', Threads.Step spurious s e s' := by
  cases hq : pushSection s.queue d with
  | wait c q => exact ⟨_, _, .pushWaits hm hq⟩
  | done c q r =>
    obtain ⟨s', hs'⟩ := signal_exists c { s with queue := q, main := .next rest }
    exact ⟨_, s', .pushStores hm hq hs'⟩

/-- **Progress**: with the invariant, some thread can take a step until all have returned. -/
theorem Lively.progress (h : Lively s) (hf : ¬ Finished s) : ∃ e s', Threads.Step False s e s' := by
  by_cases hawake : ∃ w, WorkerAt.awake (s.workers w) = true
  · obtain ⟨w, hw⟩ := hawake
    exact step_of_awake hw
  have hasleep : ∀ w, s.workers w = .waiting ∨ s.workers w = .finished := fun w =>
    asleep_or_finished fun hw => hawake ⟨w, hw⟩
  have hgone : s.main.leftWait = true → ∀ w, s.workers w = .finished := by
    intro hl w
    refine (hasleep w).resolve_left fun hw => ?_
    have := h.left hl w
    rw [hw] at this
    cases this
  cases hm : s.main with
  | pushTest d rest => exact ⟨_, _, .pushTest hm⟩
  | pushLock d rest => exact step_of_push (Or.inl hm)
  | pushWoken d rest => exact step_of_push (Or.inr hm)
  | pushWaiting d rest =>
    have hfull := h.full d rest hm
    have hcap := h.inv.valid.capacity
    exact absurd (h.busy (by rw [hm]; rfl) (by omega)) hawake
  | destroyLock => exact ⟨_, _, .destroyLocks hm⟩
  | destroyWaiting => exact absurd (h.destroying hm) hawake
  | destroyWoken => exact ⟨_, _, .destroyWakes hm⟩
  | destroyMutex => exact ⟨_, _, .teardown (by rw [hm]; exact .mutex)⟩
  | destroyProdCond => exact ⟨_, _, .teardown (by rw [hm]; exact .prodCond)⟩
  | destroyConsCond => exact ⟨_, _, .teardown (by rw [hm]; exact .consCond)⟩
  | destroyCondDestroy => exact ⟨_, _, .teardown (by rw [hm]; exact .condDestroy)⟩
  | freeData => exact ⟨_, _, .teardown (by rw [hm]; exact .data)⟩
  | joining => exact ⟨_, _, .join hm (hgone (by rw [hm]; rfl))⟩
  | finished => exact absurd ⟨hm, hgone (by rw [hm]; rfl)⟩ hf

/-! ### What a step does to the threads that sleep -/

theorem signal_consCond (h : Signal .consCond s s') :
    (∃ w, s.workers w = .waiting ∧ s' = s.moveWorker w .woken) ∨
      (s' = s ∧ ∀ w, s.workers w ≠ .waiting) := by
  cases h with
  | wake h =>
    cases h with
    | pop hw => exact Or.inl ⟨_, hw, rfl⟩
  | lost h => exact Or.inr ⟨rfl, fun w hw => h ⟨w, hw⟩⟩

theorem signal_prodCond (h : Signal .prodCond s s') :
    s'.queue = s.queue ∧ s'.workers = s.workers ∧ s'.main.closed = s.main.closed ∧
      s'.main.leftWait = s.main.leftWait ∧ (s'.main = .destroyWaiting → s.main = .destroyWaiting) ∧
      ∀ d rest, s'.main ≠ .pushWaiting d rest := by
  cases h with
  | wake h =>
    cases h with
    | push hm =>
      exact ⟨rfl, rfl, by rw [hm]; rfl, by rw [hm]; rfl, nofun, nofun⟩
  | lost h => exact ⟨rfl, rfl, rfl, rfl, id, fun d rest hm => h ⟨d, rest, hm⟩⟩

theorem signal_condDestroy (h : Signal .condDestroy s s') :
    s'.queue = s.queue ∧ s'.workers = s.workers ∧ s'.main.closed = s.main.closed ∧
      s'.main.leftWait = s.main.leftWait ∧ s'.main ≠ .destroyWaiting ∧
      ∀ d rest, s'.main = .pushWaiting d rest → s.main = .pushWaiting d rest := by
  cases h with
  | wake h =>
    cases h with
    | destroy hm =>
      exact ⟨rfl, rfl, by rw [hm]; rfl, by rw [hm]; rfl, nofun, nofun⟩
  | lost h => exact ⟨rfl, rfl, rfl, rfl, h, fun d rest hm => hm⟩

/-- The condition variable that `pop` signals when it takes a job. -/
theorem popSection_takes {q q' : Queue α} {c : Cond} {d : α} (h : popSection q = .done c q' (some d))
    (hd : q.queueToBeDestroyed ∈ [0, 1]) :
    q'.capacity = q.capacity ∧ ((q.queueToBeDestroyed = 0 ∧ c = .prodCond) ∨
      (q.queueToBeDestroyed = 1 ∧ c = .consCond)) := by
  simp only [List.mem_cons, List.not_mem_nil, or_false] at hd
  unfold popSection at h
  rcases hd with hd | hd <;> simp only [hd] at h <;> split_ifs at h <;> simp_all <;>
    exact h.2.1 ▸ rfl

theorem popSection_fails {q q' : Queue α} {c : Cond} (h : popSection q = .done c q' none) :
    q' = { q with consAmount := q.consAmount - 1 } ∧ c = .consCond ∧ q.queueToBeDestroyed = 1 := by
  unfold popSection at h
  split_ifs at h with h1 h2 <;> cases h
  exact ⟨rfl, rfl, h2.2⟩

theorem popSection_waits {q q' : Queue α} {c : Cond} (h : popSection q = .wait c q') :
    q' = q ∧ q.queueCount ≤ 0 ∧ q.queueToBeDestroyed = 0 := by
  unfold popSection at h
  split_ifs at h with h1
  cases h
  exact ⟨rfl, h1⟩

theorem pushSection_done {q q' : Queue α} {c : Cond} {d : α} (h : pushSection q d = .done c q' ()) :
    c = .consCond := by
  unfold pushSection at h
  split_ifs at h
  cases h
  rfl

/-! ### Steps of the workers -/

/-- Before `destroy` a worker may go anywhere but past the test of the flag. -/
theorem Lively.opened_moves (h : Lively s) (hc : s.main.closed = false) {a : WorkerAt}
    (ha : a ≠ .testCount ∧ a ≠ .signalDestroy ∧ a ≠ .finished) (i : Fin n) :
    (s.moveWorker w a).workers i ≠ .testCount ∧ (s.moveWorker w a).workers i ≠ .signalDestroy ∧
      (s.moveWorker w a).workers i ≠ .finished :=
  forall_moveWorker (fun a => a ≠ .testCount ∧ a ≠ .signalDestroy ∧ a ≠ .finished) ha
    (fun i _ => h.opened hc i) i

/-- After the `while` of `destroy` a worker stays outside. -/
theorem Lively.left_moves (h : Lively s) (hl : s.main.leftWait = true) {a : WorkerAt} (ha : a.inside = false)
    (i : Fin n) : ((s.moveWorker w a).workers i).inside = false :=
  forall_moveWorker (fun a => a.inside = false) ha (fun i _ => h.left hl i) i

/-- A worker moves on and stays awake. -/
theorem Lively.stays_awake (h : Lively s) {q : Queue α} {a : WorkerAt}
    (hI : Delivery.Inv ({ s with queue := q }.moveWorker w a)) (ha : WorkerAt.awake a = true)
    (hin : a.inside = false)
    (hopen : s.main.closed = false → a ≠ .testCount ∧ a ≠ .signalDestroy)
    (hfull : ∀ d rest, s.main = .pushWaiting d rest → q.capacity ≤ q.queueCount) :
    Lively ({ s with queue := q }.moveWorker w a) := by
  have hw : WorkerAt.awake (({ s with queue := q }.moveWorker w a).workers w) = true := by
    rwa [moveWorker_self]
  refine ⟨hI, fun hc => h.opened_moves hc ?_, fun _ _ => ⟨w, hw⟩, hfull, fun _ => ⟨w, hw⟩,
    fun hl => h.left_moves hl hin⟩
  obtain ⟨h1, h2⟩ := hopen hc
  exact ⟨h1, h2, fun hf => by rw [hf] at ha; cases ha⟩

/-- Only what the invariant says of the sleepers matters. -/
theorem Lively.congr (h : Lively s) (hI : Delivery.Inv s') (hq : s'.queue = s.queue)
    (hw : s'.workers = s.workers) (hc : s'.main.closed = s.main.closed)
    (hl : s'.main.leftWait = s.main.leftWait)
    (hd : s'.main = .destroyWaiting → s.main = .destroyWaiting)
    (hp : ∀ d rest, s'.main = .pushWaiting d rest → s.main = .pushWaiting d rest) : Lively s' := by
  refine ⟨hI, ?_, ?_, ?_, ?_, ?_⟩
  · rw [hc, hw]; exact h.opened
  · rw [hc, hq, hw]; exact h.busy
  · rw [hq]; exact fun d rest hm => h.full d rest (hp d rest hm)
  · rw [hw]; exact fun hm => h.destroying (hd hm)
  · rw [hl, hw]; exact h.left

/-- After `destroy` has set its flag. -/
theorem Lively.of_closed (hI : Delivery.Inv s) (hc : s.main.closed = true)
    (hd : s.main = .destroyWaiting → ∃ w, WorkerAt.awake (s.workers w) = true)
    (hl : s.main.leftWait = true → ∀ w, (s.workers w).inside = false) : Lively s := by
  refine ⟨hI, fun h => ?_, fun h => ?_, fun d rest hm => ?_, hd, hl⟩
  · rw [hc] at h; cases h
  · rw [hc] at h; cases h
  · rw [hm] at hc; cases hc

theorem Lively.closed_iff (h : Lively s) : s.main.closed = true ↔ s.queue.queueToBeDestroyed = 1 := by
  rw [h.inv.flag]
  cases s.main.closed <;> simp

theorem Lively.open_iff (h : Lively s) : s.main.closed = false ↔ s.queue.queueToBeDestroyed = 0 := by
  rw [h.inv.flag]
  cases s.main.closed <;> simp

/-- `cons_amount` is 0 when no worker is inside. -/
theorem not_inside (hI : Delivery.Inv s) (h : s.queue.consAmount ≤ 0) (w : Fin n) :
    (s.workers w).inside = false := by
  have hcard : s.inside.card = 0 := by
    have := hI.amount
    omega
  by_contra hw
  have : w ∈ s.inside := by simpa [State.inside] using hw
  rw [Finset.card_eq_zero.mp hcard] at this
  cases this

/-- A worker that took or failed under the lock, after the flag, and its signal. -/
theorem Lively.signals (h : Lively s) {q : Queue α} {a : WorkerAt} (hI : Delivery.Inv s')
    (hcl : s.main.closed = true) (ha : a.inside = false)
    (hsig : Signal .consCond ({ s with queue := q }.moveWorker w a) s')
    (hleaves : s.main = .destroyWaiting → WorkerAt.awake a = true ∨
      ∃ i, i ≠ w ∧ s.workers i ≠ .finished) : Lively s' := by
  rcases signal_consCond hsig with ⟨i, hi, rfl⟩ | ⟨rfl, hnone⟩
  · refine .of_closed hI hcl (fun _ => ⟨i, by rw [moveWorker_self]; rfl⟩) fun hl j => ?_
    have hin : (({ s with queue := q }.moveWorker w a).workers i).inside = false := h.left_moves hl ha i
    rw [hi] at hin
    cases hin
  · refine .of_closed hI hcl (fun hm => ?_) fun hl => h.left_moves hl ha
    rcases hleaves hm with haw | ⟨i, hi, hfin⟩
    · exact ⟨w, by rwa [moveWorker_self]⟩
    · refine ⟨i, ?_⟩
      have := hnone i
      rw [moveWorker_of_ne hi] at this ⊢
      by_contra hna
      rcases asleep_or_finished hna with hwt | hf
      · exact this hwt
      · exact hfin hf

/-- `destroy` tests its condition. -/
theorem Lively.tests (hI : Delivery.Inv s.testDestroy)
    (hsleeps : s.testDestroy.main = .destroyWaiting → ∃ w, WorkerAt.awake (s.workers w) = true) :
    Lively s.testDestroy := by
  have hcl : s.testDestroy.main.closed = true := by
    unfold State.testDestroy
    cases mustWait s.queue <;> rfl
  refine .of_closed hI hcl hsleeps fun hl w => not_inside hI ?_ w
  unfold State.testDestroy at hl ⊢
  cases hw : mustWait s.queue with
  | true => rw [hw] at hl; cases hl
  | false =>
    simp only [mustWait, Bool.or_eq_false_iff, decide_eq_false_iff_not, not_lt] at hw
    exact hw.2

theorem next_awake (rest : List α) : MainAt.next rest ≠ .destroyWaiting ∧
    ∀ d rest', MainAt.next rest ≠ .pushWaiting d rest' := by
  cases rest with
  | nil => exact ⟨nofun, nofun⟩
  | cons d rest => exact ⟨nofun, nofun⟩

/-- A push has stored its job and signals. -/
theorem Lively.stores (hn : 0 < n) (h : Lively s) (hcl : s.main.closed = false) {q : Queue α}
    {rest : List α} (hI : Delivery.Inv s')
    (hsig : Signal .consCond { s with queue := q, main := .next rest } s') : Lively s' := by
  obtain ⟨hnd, hnp⟩ := next_awake rest
  have hleft : (MainAt.next rest).leftWait = true → ∀ w, (s'.workers w).inside = false := by
    rw [leftWait_next]
    nofun
  rcases signal_consCond hsig with ⟨w, hw, rfl⟩ | ⟨rfl, hnone⟩
  · exact ⟨hI, fun _ => h.opened_moves hcl ⟨nofun, nofun, nofun⟩, fun _ _ => ⟨w, by rw [moveWorker_self]; rfl⟩,
      fun d r hm => absurd hm (hnp d r), fun hm => absurd hm hnd, hleft⟩
  · refine ⟨hI, fun _ => h.opened hcl, fun _ _ => ⟨⟨0, hn⟩, ?_⟩, fun d r hm => absurd hm (hnp d r),
      fun hm => absurd hm hnd, hleft⟩
    by_contra hna
    rcases asleep_or_finished hna with hw | hw
    · exact hnone _ hw
    · exact (h.opened hcl _).2.2 hw

/-- **Every careful step** keeps the invariant. -/
theorem Lively.step (hn : 0 < n) (h : Lively s) (hc : Careful s e s') : Lively s' := by
  obtain ⟨hs, hsleeps, hleaves⟩ := hc
  have hI := (step_matches s e s' h.inv hs).1
  cases hs with
  | testConsAmount hw =>
    refine h.stays_awake (q := s.queue) hI ?_ ?_ (fun _ => ?_) h.full <;> split_ifs <;> decide
  | testDestroyed hw =>
    refine h.stays_awake (q := s.queue) hI ?_ ?_ (fun hcl => ?_) h.full
    · split_ifs <;> rfl
    · split_ifs <;> rfl
    · rw [h.open_iff.mp hcl, if_neg (by omega)]
      exact ⟨by decide, by decide⟩
  | testCount hw =>
    refine h.stays_awake (q := s.queue) hI ?_ ?_ (fun hcl => ?_) h.full
    · split_ifs <;> rfl
    · split_ifs <;> rfl
    · exact absurd hw (h.opened hcl _).1
  | @signalDestroy _ w hw hsig =>
    have hcl : s.main.closed = true := by
      by_contra hcl
      exact (h.opened (Bool.eq_false_iff.mpr hcl) w).2.1 hw
    obtain ⟨-, hws, hc', hl', hnd, -⟩ := signal_condDestroy hsig
    refine .of_closed hI (by rw [hc']; exact hcl) (fun hm => absurd hm hnd) fun hl => ?_
    rw [hws]
    exact h.left_moves (by rwa [hl'] at hl) rfl
  | @popWaits w c q hw hq =>
    obtain ⟨-, -, hcount, hfl, -⟩ := h.inv.entered hw
    obtain ⟨rfl, hc0, hf0⟩ := popSection_waits hq
    have hopen : s.main.closed = false := h.open_iff.mpr (by omega)
    refine ⟨hI, fun _ => h.opened_moves hopen ⟨by decide, by decide, by decide⟩, fun _ hpos => ?_, fun d rest hm => ?_,
      fun hm => ?_, fun hl => ?_⟩
    · have : 0 < (s.entered w).queueCount := hpos
      omega
    · have hfull := h.full d rest hm
      have hcap := h.inv.valid.capacity
      omega
    · rw [show s.main = .destroyWaiting from hm] at hopen
      cases hopen
    · have hl' : s.main.leftWait = true := hl
      revert hl' hopen
      cases s.main <;> simp [MainAt.leftWait, MainAt.closed]
  | @popFails _ w c q hw hq hsig =>
    obtain ⟨-, -, -, hfl, -⟩ := h.inv.entered hw
    obtain ⟨-, rfl, hf1⟩ := popSection_fails hq
    rw [hfl] at hf1
    refine h.signals hI (h.closed_iff.mpr hf1) rfl hsig fun hm => Or.inr ?_
    refine hleaves w hw ?_ hm
    rcases signal_consCond hsig with ⟨i, hi, rfl⟩ | ⟨rfl, -⟩
    · rw [moveWorker_of_ne, moveWorker_self]
      rintro rfl
      rw [moveWorker_self] at hi
      cases hi
    · rw [moveWorker_self]
  | @popTakes _ w c q d hw hq hsig =>
    obtain ⟨-, -, -, hfl, -⟩ := h.inv.entered hw
    obtain ⟨-, hcase⟩ := popSection_takes hq (by rw [hfl]; exact h.inv.flag_mem)
    rw [hfl] at hcase
    rcases hcase with ⟨hf0, rfl⟩ | ⟨hf1, rfl⟩
    · have hI1 := (popTakes_inv h.inv hw hq).1
      obtain ⟨hq', hws, hc', hl', hd', hp'⟩ := signal_prodCond hsig
      have hopen : s.main.closed = false := h.open_iff.mpr hf0
      have haw : WorkerAt.awake (s'.workers w) = true := by
        rw [hws, moveWorker_self]
        rfl
      refine ⟨hI, fun _ => ?_, fun _ _ => ⟨w, haw⟩, fun d rest hm => absurd hm (hp' d rest),
        fun _ => ⟨w, haw⟩, fun hl => ?_⟩
      · rw [hws]
        exact h.opened_moves hopen ⟨by decide, by decide, by decide⟩
      · rw [hws]
        exact h.left_moves (by rwa [hl'] at hl) rfl
    · exact h.signals hI (h.closed_iff.mpr hf1) rfl hsig fun _ => Or.inl rfl
  | pushTest hm =>
    have h0 := h.open_iff.mp (by rw [hm]; rfl)
    have hn : ¬ s.queue.queueToBeDestroyed ≠ 0 := not_not.mpr h0
    simp only [if_neg hn] at hI ⊢
    exact h.congr hI rfl rfl (by rw [hm]; rfl) (by rw [hm]; rfl) (by rintro ⟨⟩) (by rintro d rest ⟨⟩)
  | pushWaits hm hq =>
    have hcl : s.main.closed = false := by rcases hm with hm | hm <;> rw [hm] <;> rfl
    obtain ⟨-, rfl⟩ := pushWaits_inv h.inv hm hq
    unfold pushSection at hq
    split_ifs at hq with hfull
    exact ⟨hI, fun _ => h.opened hcl, fun _ => h.busy hcl, fun _ _ _ => hfull, by rintro ⟨⟩, by rintro ⟨⟩⟩
  | pushStores hm hq hsig =>
    have hcl : s.main.closed = false := by rcases hm with hm | hm <;> rw [hm] <;> rfl
    obtain rfl := pushSection_done hq
    exact h.stores hn hcl hI hsig
  | destroyLocks hm => exact Lively.tests hI fun h' => hsleeps (Or.inl hm) h'
  | destroyWakes hm => exact Lively.tests hI fun h' => hsleeps (Or.inr hm) h'
  | teardown ht =>
    rename_i m
    have hm : m.closed = true ∧ s.main.leftWait = true ∧ m ≠ .destroyWaiting := by
      generalize s.main = m' at ht
      cases ht <;> exact ⟨rfl, rfl, by rintro ⟨⟩⟩
    exact .of_closed hI hm.1 (fun hd => absurd hd hm.2.2) fun _ => h.left hm.2.1
  | join hm hw => exact .of_closed hI rfl (by rintro ⟨⟩) fun _ => h.left (by rw [hm]; rfl)
  | wakesUp hsp _ => exact hsp.elim

theorem lively_start (hn : 0 < n) (data : ℤ → α) {capacity : ℤ} (h : 1 ≤ capacity) (jobs : List α) :
    Lively (start n data capacity jobs) := by
  obtain ⟨hnd, hnp⟩ := next_awake jobs
  refine ⟨inv_start n data h jobs, fun _ w => ⟨nofun, nofun, nofun⟩, fun _ _ => ⟨⟨0, hn⟩, rfl⟩,
    fun d rest hm => absurd hm (hnp d rest), fun hm => absurd hm hnd, fun _ _ => rfl⟩

/-! ### The two branches -/

/-- The worker a step belongs to is not asleep. -/
theorem main_of_asleep (hs : Threads.Step False s e s')
    (hw : ∀ w, s.workers w = .waiting ∨ s.workers w = .finished) :
    (∃ d rest, s.main = .pushTest d rest ∨ s.main = .pushLock d rest ∨ s.main = .pushWoken d rest) ∨
      (s.main = .destroyLock ∨ s.main = .destroyWoken) ∧ s'.workers = s.workers ∨
      (∃ m, Teardown s.main m) ∨ s.main = .joining := by
  have hstop : ∀ w a, s.workers w = a → WorkerAt.awake a = true → False := by
    rintro w a rfl ha
    rcases hw w with h | h <;> rw [h] at ha <;> cases ha
  have hlock : ∀ w, s.workers w = .lock ∨ s.workers w = .woken → False := by
    rintro w (h | h)
    · exact hstop w _ h rfl
    · exact hstop w _ h rfl
  cases hs with
  | testConsAmount h => exact (hstop _ _ h rfl).elim
  | testDestroyed h => exact (hstop _ _ h rfl).elim
  | testCount h => exact (hstop _ _ h rfl).elim
  | signalDestroy h _ => exact (hstop _ _ h rfl).elim
  | popWaits h _ => exact (hlock _ h).elim
  | popFails h _ _ => exact (hlock _ h).elim
  | popTakes h _ _ => exact (hlock _ h).elim
  | pushTest h => exact Or.inl ⟨_, _, Or.inl h⟩
  | pushWaits h _ => exact Or.inl ⟨_, _, Or.inr h⟩
  | pushStores h _ _ => exact Or.inl ⟨_, _, Or.inr h⟩
  | destroyLocks h => exact Or.inr (Or.inl ⟨Or.inl h, rfl⟩)
  | destroyWakes h => exact Or.inr (Or.inl ⟨Or.inr h, rfl⟩)
  | teardown h => exact Or.inr (Or.inr (Or.inl ⟨_, h⟩))
  | join h _ => exact Or.inr (Or.inr (Or.inr h))
  | wakesUp h _ => exact h.elim

/-- With `destroy` and all workers asleep or gone, nothing moves. -/
theorem deadlocked_of_asleep (hm : s.main = .destroyWaiting)
    (hw : ∀ w, s.workers w = .waiting ∨ s.workers w = .finished) : Deadlocked s := by
  refine ⟨fun hf => ?_, fun e s' hs => ?_⟩
  · have := hf.1
    rw [hm] at this
    cases this
  · rcases main_of_asleep hs hw with ⟨d, rest, h⟩ | ⟨h, -⟩ | ⟨m, h⟩ | h <;> rw [hm] at h
    · simp at h
    · simp at h
    · cases h
    · cases h

/-- `destroy` goes to sleep with every worker asleep or gone. -/
theorem deadlocked_of_sleep (hs : Threads.Step False s e s')
    (hm : s.main = .destroyLock ∨ s.main = .destroyWoken) (hm' : s'.main = .destroyWaiting)
    (hall : ∀ w, ¬ WorkerAt.awake (s.workers w) = true) : Deadlocked s' := by
  have hasleep : ∀ w, s.workers w = .waiting ∨ s.workers w = .finished := fun w =>
    asleep_or_finished (hall w)
  refine deadlocked_of_asleep hm' ?_
  rcases main_of_asleep hs hasleep with ⟨d, rest, h⟩ | ⟨-, h⟩ | ⟨m, h⟩ | h
  · rcases hm with hm | hm <;> rw [hm] at h <;> simp at h
  · rw [h]
    exact hasleep
  · rcases hm with hm | hm <;> rw [hm] at h <;> cases h
  · rcases hm with hm | hm <;> rw [hm] at h <;> cases h

/-- No worker finishes because of a signal. -/
theorem signal_unfinished {c : Cond} (hsig : Signal c s s') (h : s.workers w ≠ .finished) :
    s'.workers w ≠ .finished := by
  cases hsig with
  | wake hwake =>
    cases hwake with
    | push _ => exact h
    | destroy _ => exact h
    | @pop _ j hj =>
      by_cases hij : w = j
      · rw [hij, moveWorker_self]
        nofun
      · rwa [moveWorker_of_ne hij]
  | lost _ => exact h

/-- The last worker leaves `pop` under the lock while `destroy` sleeps. -/
theorem deadlocked_of_leave (hs : Threads.Step False s e s')
    (hw : s.workers w = .lock ∨ s.workers w = .woken) (hfin : s'.workers w = .finished)
    (hm : s.main = .destroyWaiting) (hall : ∀ i, i ≠ w → s.workers i = .finished) :
    Deadlocked s' := by
  have hself : ∀ i a, s.workers i = a → a ≠ .finished → i = w := by
    rintro i a rfl ha
    by_contra hi
    exact ha (hall i hi)
  have hother : ∀ i a, s.workers i = a → a ≠ .finished → a ≠ .lock → a ≠ .woken → False := by
    rintro i a rfl h1 h2 h3
    obtain rfl := hself i _ rfl h1
    rcases hw with hw | hw
    · exact h2 hw
    · exact h3 hw
  have hlock : ∀ i, s.workers i = .lock ∨ s.workers i = .woken → i = w := by
    rintro i (h | h)
    · exact hself i _ h nofun
    · exact hself i _ h nofun
  cases hs with
  | testConsAmount h => exact (hother _ _ h nofun nofun nofun).elim
  | testDestroyed h => exact (hother _ _ h nofun nofun nofun).elim
  | testCount h => exact (hother _ _ h nofun nofun nofun).elim
  | signalDestroy h _ => exact (hother _ _ h nofun nofun nofun).elim
  | popWaits h _ =>
    obtain rfl := hlock _ h
    rw [moveWorker_self] at hfin
    cases hfin
  | @popFails _ w' c q h hq hsig =>
    obtain rfl : w' = w := hlock _ h
    obtain ⟨-, rfl, -⟩ := popSection_fails hq
    have hgone : ∀ i, ({ s with queue := q }.moveWorker w' .finished).workers i = .finished :=
      forall_moveWorker (fun a => a = .finished) rfl hall
    rcases signal_consCond hsig with ⟨i, hi, rfl⟩ | ⟨rfl, -⟩
    · rw [hgone i] at hi
      cases hi
    · exact deadlocked_of_asleep hm fun i => Or.inr (hgone i)
  | popTakes h hq hsig =>
    obtain rfl := hlock _ h
    exact absurd hfin (signal_unfinished hsig (by rw [moveWorker_self]; nofun))
  | pushTest h => rw [hm] at h; cases h
  | pushWaits h _ => rw [hm] at h; simp at h
  | pushStores h _ _ => rw [hm] at h; simp at h
  | destroyLocks h => rw [hm] at h; cases h
  | destroyWakes h => rw [hm] at h; cases h
  | teardown h => rw [hm] at h; cases h
  | join h _ => rw [hm] at h; cases h
  | wakesUp h _ => exact h.elim

/-- **Each of the two branches deadlocks** at once. -/
theorem deadlocked_of_not_careful (hs : Threads.Step False s e s') (hc : ¬ Careful s e s') :
    Deadlocked s' := by
  by_cases hsleeps : s.main = .destroyLock ∨ s.main = .destroyWoken → s'.main = .destroyWaiting →
      ∃ w, WorkerAt.awake (s.workers w) = true
  · have hleaves : ¬ ∀ w, s.workers w = .lock ∨ s.workers w = .woken → s'.workers w = .finished →
        s.main = .destroyWaiting → ∃ i, i ≠ w ∧ s.workers i ≠ .finished := fun h =>
      hc ⟨hs, hsleeps, h⟩
    push Not at hleaves
    obtain ⟨w, hw, hfin, hm, hall⟩ := hleaves
    exact deadlocked_of_leave hs hw hfin hm hall
  · push Not at hsleeps
    obtain ⟨hm, hm', hall⟩ := hsleeps
    exact deadlocked_of_sleep hs hm hm' hall

/-- **Shutdown does not deadlock** in a run of careful steps, and a step that is not careful deadlocks:
for any capacity, any number of workers and any jobs. -/
theorem shutdown_live (hn : 0 < n) (data : ℤ → α) (capacity : ℤ) (hcap : 1 ≤ capacity) (jobs : List α)
    {es : List (Event (Fin n) α)} (h : Run Careful (start n data capacity jobs) es s) :
    ¬ Deadlocked s ∧ ∀ e s', Threads.Step False s e s' → (Deadlocked s' ↔ ¬ Careful s e s') := by
  have hl : Lively s := h.history (I := fun _ s => Lively s) (lively_start hn data hcap jobs)
    fun _ _ _ _ hl hc => hl.step hn hc
  have hlive : ∀ {s : State n α}, Lively s → ¬ Deadlocked s := by
    rintro s hl ⟨hf, hstop⟩
    obtain ⟨e, s', hs⟩ := hl.progress hf
    exact hstop e s' hs
  exact ⟨hlive hl, fun e s' hs => ⟨fun hd hc => hlive (hl.step hn hc) hd,
    deadlocked_of_not_careful hs⟩⟩

/-- With one worker, a step is careful while the worker is awake and stays in its loop. -/
theorem careful_one {s s' : State 1 α} {e : Option (Event (Fin 1) α)} (hs : Threads.Step False s e s')
    (haw : WorkerAt.awake (s.workers 0) = true) (hfin : s'.workers 0 ≠ .finished) :
    Careful s e s' := by
  refine ⟨hs, fun _ _ => ⟨0, haw⟩, fun w _ hf => ?_⟩
  obtain rfl : w = 0 := Subsingleton.elim _ _
  exact absurd hf hfin

/-- One worker and one job: `destroy` goes to sleep while the worker is on its way to the job, and the
worker wakes it at the top of its last `pop`. -/
theorem shutdown_live_one_job : ∃ s : State 1 ℕ,
    Run Careful (start 1 (fun _ => 0) 1 [7]) [.push 7, .pop 0 7] s ∧ s.main = .destroyMutex ∧
      ¬ Deadlocked s := by
  have h1 : Run Careful (start 1 (fun _ => (0 : ℕ)) 1 [7]) [] _ :=
    .silent .nil (careful_one (.pushTest rfl) rfl nofun)
  have h2 := h1.seen (careful_one (.pushStores (Or.inl rfl) rfl (.lost fun ⟨_, hw⟩ => by cases hw))
    rfl nofun)
  have h3 := h2.silent (careful_one (.testConsAmount (w := 0) rfl) rfl nofun)
  have h4 := h3.silent (careful_one (.testDestroyed (w := 0) rfl) rfl nofun)
  have h5 := h4.silent (careful_one (.destroyLocks rfl) rfl nofun)
  have h6 := h5.seen (careful_one (.popTakes (w := 0) (Or.inl rfl) rfl (.lost fun ⟨w, hw⟩ => by
    obtain rfl : w = 0 := Subsingleton.elim _ _
    cases hw)) rfl nofun)
  have h7 := h6.silent (careful_one (.testConsAmount (w := 0) rfl) rfl nofun)
  have h8 := h7.silent (careful_one (.testDestroyed (w := 0) rfl) rfl nofun)
  have h9 := h8.silent (careful_one (.testCount (w := 0) rfl) rfl nofun)
  have h10 := h9.silent ⟨.signalDestroy (w := 0) rfl (.wake (.destroy rfl)), fun _ _ => ⟨0, rfl⟩,
    fun w hw => by
      obtain rfl : w = 0 := Subsingleton.elim _ _
      rcases hw with hw | hw <;> cases hw⟩
  have h11 := h10.silent ⟨.destroyWakes rfl, nofun, fun w _ _ hm => by cases hm⟩
  exact ⟨_, h11, rfl, (shutdown_live (by omega) (fun _ => 0) 1 (le_refl 1) [7] h11).1⟩

/-- **The deadlock**: a worker waits for a job, and `destroy` is called without any. -/
theorem empty_queue_deadlocks : ∃ s : State 1 ℕ,
    Run (Threads.Step False) (start 1 (fun _ => 0) 1 []) [] s ∧ Deadlocked s := by
  have h1 : Run (Threads.Step False) (start 1 (fun _ => (0 : ℕ)) 1 []) [] _ :=
    .silent .nil (.testConsAmount (w := 0) rfl)
  have h2 := h1.silent (.testDestroyed (w := 0) rfl)
  have h3 := h2.silent (.popWaits (w := 0) (Or.inl rfl) rfl)
  have h4 := h3.silent (.destroyLocks rfl)
  refine ⟨_, h4, deadlocked_of_asleep rfl fun w => Or.inl ?_⟩
  obtain rfl : w = 0 := Subsingleton.elim _ _
  rfl

end CompSys.A2.Shutdown
