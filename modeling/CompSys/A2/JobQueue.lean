import CompSys.Lib.Ring

/-! # The job queue (`A2/job_queue.c`)

`struct job_queue` without its mutex and condition variables, and the parts of its functions that run
from the point where the thread holds `queue_access` and tests its `while` condition, to the point
where it lets go of it: it waits, or it returns. -/

namespace CompSys.A2.JobQueue

open CompSys.Lib.Ring

/-- The condition variables. -/
inductive Cond
  | prodCond
  | consCond
  | condDestroy
  deriving DecidableEq

/-- `struct job_queue`. The `int`s stay between `0` and the capacity or the number of threads. -/
structure Queue (α : Type*) where
  data : ℤ → α
  capacity : ℤ
  prodPointer : ℤ
  consPointer : ℤ
  queueCount : ℤ
  queueToBeDestroyed : ℤ
  consAmount : ℤ

variable {α : Type*}

/-- `job_queue_init`, when `malloc` returned `data`. -/
def jobQueueInit (data : ℤ → α) (capacity : ℤ) : Queue α :=
  { data := data, capacity := capacity, prodPointer := 0, consPointer := 0, queueCount := 0,
    queueToBeDestroyed := 0, consAmount := 0 }

/-- How a critical section ends. -/
inductive Section (α ρ : Type*)
  /-- In `pthread_cond_wait` on `c`. -/
  | wait (c : Cond) (q : Queue α)
  /-- `pthread_cond_signal` on `c`, the unlock, and `return`. -/
  | done (c : Cond) (q : Queue α) (result : ρ)

/-- Steps 1 and 2 of `job_queue_push`. -/
def produce (q : Queue α) (data : α) : Queue α :=
  { q with
    data := Function.update q.data q.prodPointer data
    queueCount := q.queueCount + 1
    prodPointer := if q.prodPointer + 1 ≥ q.capacity then 0 else q.prodPointer + 1 }

/-- The end of `job_queue_push`, from the `while` on. It returns `EXIT_SUCCESS`. -/
def pushSection (q : Queue α) (data : α) : Section α Unit :=
  if q.capacity ≤ q.queueCount then .wait .prodCond q else .done .consCond (produce q data) ()

/-- Steps 1 and 2 of `job_queue_pop` and the `cons_amount--` after them. -/
def consume (q : Queue α) : Queue α :=
  { q with
    queueCount := q.queueCount - 1
    consPointer := if q.consPointer + 1 ≥ q.capacity then 0 else q.consPointer + 1
    consAmount := q.consAmount - 1 }

/-- The end of `job_queue_pop`, from the `while` on. The result is the job stored in `*data` where it
returns `EXIT_SUCCESS`, and `none` where it returns `-1`. -/
def popSection (q : Queue α) : Section α (Option α) :=
  if q.queueCount ≤ 0 ∧ q.queueToBeDestroyed = 0 then .wait .consCond q
  else if q.queueCount ≤ 0 ∧ q.queueToBeDestroyed = 1 then
    .done .consCond { q with consAmount := q.consAmount - 1 } none
  else if q.queueCount > 0 ∧ q.queueToBeDestroyed = 1 then
    .done .consCond (consume q) (some (q.data q.consPointer))
  else if q.queueCount > 0 ∧ q.queueToBeDestroyed = 1 then
    -- the source has this block twice
    .done .consCond (consume q) (some (q.data q.consPointer))
  else .done .prodCond (consume q) (some (q.data q.consPointer))

/-- `job_queue_pop` up to the `while`, after the lock. -/
def popEnter (q : Queue α) : Queue α := { q with consAmount := q.consAmount + 1 }

/-- `job_queue_destroy` up to the `while`, after the lock. -/
def destroyEnter (q : Queue α) : Queue α := { q with queueToBeDestroyed := 1 }

/-- The `while` condition of `job_queue_destroy`. -/
def mustWait (q : Queue α) : Bool := 0 < q.queueCount || 0 < q.consAmount

/-! ### What the queue holds -/

/-- The jobs in the buffer, from `cons_pointer` on. -/
def Queue.jobs (q : Queue α) : List α := contents q.data q.capacity q.consPointer q.queueCount

/-- The pointers and the count of a queue in use. -/
structure Queue.Valid (q : Queue α) : Prop where
  capacity : 0 < q.capacity
  cons_nonneg : 0 ≤ q.consPointer
  cons_lt : q.consPointer < q.capacity
  count_nonneg : 0 ≤ q.queueCount
  count_le : q.queueCount ≤ q.capacity
  prod : q.prodPointer = (q.consPointer + q.queueCount) % q.capacity

theorem valid_init (data : ℤ → α) {capacity : ℤ} (h : 1 ≤ capacity) :
    (jobQueueInit data capacity).Valid :=
  ⟨by show 0 < capacity; omega, le_refl 0, by show 0 < capacity; omega, le_refl 0,
    by show 0 ≤ capacity; omega, by simp [jobQueueInit]⟩

@[simp] theorem jobs_init (data : ℤ → α) (capacity : ℤ) : (jobQueueInit data capacity).jobs = [] :=
  rfl

theorem Queue.Valid.prod_nonneg {q : Queue α} (h : q.Valid) : 0 ≤ q.prodPointer := by
  rw [h.prod]; exact Int.emod_nonneg _ h.capacity.ne'

theorem Queue.Valid.prod_lt {q : Queue α} (h : q.Valid) : q.prodPointer < q.capacity := by
  rw [h.prod]; exact Int.emod_lt_of_pos _ h.capacity

/-- What `produce` does to a queue that is not full. -/
theorem produce_spec {q : Queue α} (h : q.Valid) (hc : q.queueCount < q.capacity) (d : α) :
    (produce q d).Valid ∧ (produce q d).jobs = q.jobs ++ [d] := by
  have h0 := h.count_nonneg
  refine ⟨⟨h.capacity, h.cons_nonneg, h.cons_lt, ?_, ?_, ?_⟩, ?_⟩
  · show 0 ≤ q.queueCount + 1
    omega
  · show q.queueCount + 1 ≤ q.capacity
    omega
  · show next q.capacity q.prodPointer = (q.consPointer + (q.queueCount + 1)) % q.capacity
    rw [next_eq h.prod_nonneg h.prod_lt, h.prod, Int.emod_add_emod, add_assoc]
  · show contents (Function.update q.data q.prodPointer d) _ _ _ = _
    rw [h.prod]
    exact contents_write q.data d h0 hc

/-- What `consume` does to a queue that holds a job. -/
theorem consume_spec {q : Queue α} (h : q.Valid) (hc : 0 < q.queueCount) :
    (consume q).Valid ∧ q.jobs = q.data q.consPointer :: (consume q).jobs := by
  have hnext : (consume q).consPointer = next q.capacity q.consPointer := rfl
  refine ⟨⟨h.capacity, ?_, ?_, ?_, ?_, ?_⟩, ?_⟩
  · rw [hnext]; exact next_nonneg h.cons_nonneg
  · rw [hnext]; exact next_lt h.capacity
  · show 0 ≤ q.queueCount - 1
    omega
  · have := h.count_le
    show q.queueCount - 1 ≤ q.capacity
    omega
  · show q.prodPointer = (next q.capacity q.consPointer + (q.queueCount - 1)) % q.capacity
    rw [next_eq h.cons_nonneg h.cons_lt, Int.emod_add_emod, h.prod]
    congr 1
    ring
  · exact contents_eq_cons q.data h.cons_nonneg h.cons_lt hc

/-- **A pop** waits or fails on an empty queue, and otherwise takes the first job. -/
theorem popSection_cases {q : Queue α} (h : q.Valid) (hd : q.queueToBeDestroyed ∈ [0, 1]) :
    (popSection q = .wait .consCond q ∧ q.queueCount = 0 ∧ q.queueToBeDestroyed = 0) ∨
      (popSection q = .done .consCond { q with consAmount := q.consAmount - 1 } none ∧
        q.queueCount = 0 ∧ q.queueToBeDestroyed = 1) ∨
      ∃ c, popSection q = .done c (consume q) (some (q.data q.consPointer)) ∧ 0 < q.queueCount := by
  have h0 := h.count_nonneg
  simp only [List.mem_cons, List.not_mem_nil, or_false] at hd
  by_cases hc : q.queueCount ≤ 0
  · rcases hd with hd | hd
    · exact Or.inl ⟨by simp [popSection, hc, hd], by omega, hd⟩
    · exact Or.inr (Or.inl ⟨by simp [popSection, hc, hd], by omega, hd⟩)
  · refine Or.inr (Or.inr ?_)
    rcases hd with hd | hd
    · exact ⟨.prodCond, by simp [popSection, hc, hd], by omega⟩
    · exact ⟨.consCond, by simp [popSection, hc, hd, show 0 < q.queueCount by omega], by omega⟩

end CompSys.A2.JobQueue
