import CompSys.A2.Threads

/-! # Every job is delivered once and in order

The queue is a channel in the sense of `CompSys.Lib.Fifo`: `todo` are the jobs the main thread has
still to push, `pending` those in the buffer. Every step of a thread keeps `State.Inv` and is a step
of the channel, or none (`step_matches`); so what holds of every run of the channel holds of every
run of the threads (`jobs_delivered`). -/

namespace CompSys.A2.Delivery

open CompSys.Lib.Runs CompSys.Lib.Fifo CompSys.A2.JobQueue CompSys.A2.Threads

variable {n : ℕ} {α : Type*}

/-- What holds between two steps. -/
structure Inv (s : State n α) : Prop where
  valid : s.queue.Valid
  amount : s.queue.consAmount = s.inside.card
  flag : s.queue.queueToBeDestroyed = if s.main.closed then 1 else 0
  drained : s.main.leftWait = true → s.queue.queueCount = 0

/-- The abstract channel of a state. -/
def channel (s : State n α) : Channel α := ⟨s.main.todo, s.queue.jobs⟩

theorem inv_start (n : ℕ) (data : ℤ → α) {capacity : ℤ} (h : 1 ≤ capacity) (jobs : List α) :
    Inv (start n data capacity jobs) := by
  refine ⟨valid_init data h, ?_, ?_, ?_⟩
  · simp [start, State.inside, WorkerAt.inside, jobQueueInit]
  · simp [start, jobQueueInit]
  · simp [start]

/-! ### Waking up -/

/-- The states differ in which threads are awake at most. -/
structure Alike (s s' : State n α) : Prop where
  queue : s'.queue = s.queue
  inside : s'.inside = s.inside
  todo : s'.main.todo = s.main.todo
  closed : s'.main.closed = s.main.closed
  leftWait : s'.main.leftWait = s.main.leftWait

theorem alike_wake {c : Cond} {s s' : State n α} (h : Wake c s s') : Alike s s' := by
  cases h with
  | push h => exact ⟨rfl, rfl, by rw [h]; rfl, by rw [h]; rfl, by rw [h]; rfl⟩
  | @pop _ w h =>
    refine ⟨rfl, Finset.filter_congr fun i _ => ?_, rfl, rfl, rfl⟩
    by_cases hi : i = w
    · rw [hi, h, moveWorker_self]; rfl
    · rw [moveWorker_of_ne hi]
  | destroy h => exact ⟨rfl, rfl, by rw [h]; rfl, by rw [h]; rfl, by rw [h]; rfl⟩

theorem alike_signal {c : Cond} {s s' : State n α} (h : Signal c s s') : Alike s s' := by
  cases h with
  | wake h => exact alike_wake h
  | lost h => exact ⟨rfl, rfl, rfl, rfl, rfl⟩

theorem Inv.alike {s s' : State n α} (h : Inv s) (ha : Alike s s') : Inv s' := by
  obtain ⟨h1, h2, h3, h4⟩ := h
  refine ⟨?_, ?_, ?_, ?_⟩
  · rw [ha.queue]; exact h1
  · rw [ha.queue, ha.inside]; exact h2
  · rw [ha.queue, ha.closed]; exact h3
  · rw [ha.queue, ha.leftWait]; exact h4

theorem channel_alike {s s' : State n α} (h : Alike s s') : channel s' = channel s := by
  unfold channel; rw [h.queue, h.todo]

/-! ### Workers -/

/-- A worker moves and leaves a queue whose `cons_amount` follows it. -/
theorem Inv.moveWorker {s : State n α} (h : Inv s) {q : Queue α} (w : Fin n) (a : WorkerAt)
    (hv : q.Valid) (hf : q.queueToBeDestroyed = s.queue.queueToBeDestroyed)
    (hc : s.queue.queueCount = 0 → q.queueCount = 0)
    (ha : q.consAmount = s.queue.consAmount - (if (s.workers w).inside then 1 else 0) +
      (if a.inside then 1 else 0)) :
    Inv ({ s with queue := q }.moveWorker w a) := by
  refine ⟨hv, ?_, hf.trans h.flag, fun hl => hc (h.drained hl)⟩
  show q.consAmount = _
  rw [card_inside_moveWorker, ha, h.amount]
  rfl

/-- A worker moves outside of the critical sections. -/
theorem Inv.moveOutside {s : State n α} (h : Inv s) {w : Fin n} {a : WorkerAt}
    (hw : (s.workers w).inside = false) (ha : a.inside = false) : Inv (s.moveWorker w a) :=
  h.moveWorker (q := s.queue) w a h.valid rfl id (by simp [hw, ha])

/-- The queue on which `pop` tests its condition. -/
theorem Inv.entered {s : State n α} (h : Inv s) {w : Fin n}
    (hw : s.workers w = .lock ∨ s.workers w = .woken) :
    (s.entered w).Valid ∧ (s.entered w).jobs = s.queue.jobs ∧
      (s.entered w).queueCount = s.queue.queueCount ∧
      (s.entered w).queueToBeDestroyed = s.queue.queueToBeDestroyed ∧
      (s.entered w).consAmount =
        s.queue.consAmount - (if (s.workers w).inside then 1 else 0) + 1 := by
  obtain ⟨hv1, hv2, hv3, hv4, hv5, hv6⟩ := h.valid
  unfold State.entered
  rcases hw with hw | hw
  · rw [if_pos hw, hw]
    exact ⟨⟨hv1, hv2, hv3, hv4, hv5, hv6⟩, rfl, rfl, rfl, by simp [popEnter, WorkerAt.inside]⟩
  · rw [if_neg (by rw [hw]; decide), hw]
    exact ⟨h.valid, rfl, rfl, rfl, by simp [WorkerAt.inside]⟩

/-- The flag the worker reads under the lock. -/
theorem Inv.flag_mem {s : State n α} (h : Inv s) : s.queue.queueToBeDestroyed ∈ [0, 1] := by
  rw [h.flag]; split_ifs <;> simp

section Pop
variable {s s' : State n α} {w : Fin n} {c : Cond} {q : Queue α}

theorem popWaits_inv (h : Inv s) (hw : s.workers w = .lock ∨ s.workers w = .woken)
    (hq : popSection (s.entered w) = .wait c q) :
    Inv ({ s with queue := q }.moveWorker w .waiting) ∧ q.jobs = s.queue.jobs := by
  obtain ⟨hv, hj, hcount, hflag, hamount⟩ := h.entered hw
  rcases popSection_cases hv (by rw [hflag]; exact h.flag_mem) with
    ⟨he, -, -⟩ | ⟨he, -, -⟩ | ⟨c', he, -⟩
  · rw [he] at hq
    cases hq
    exact ⟨h.moveWorker w .waiting hv hflag (fun h0 => hcount.trans h0) hamount, hj⟩
  · rw [he] at hq; cases hq
  · rw [he] at hq; cases hq

theorem popFails_inv (h : Inv s) (hw : s.workers w = .lock ∨ s.workers w = .woken)
    (hq : popSection (s.entered w) = .done c q none) :
    Inv ({ s with queue := q }.moveWorker w .finished) ∧ q.jobs = s.queue.jobs := by
  obtain ⟨hv, hj, hcount, hflag, hamount⟩ := h.entered hw
  rcases popSection_cases hv (by rw [hflag]; exact h.flag_mem) with
    ⟨he, -, -⟩ | ⟨he, -, -⟩ | ⟨c', he, -⟩
  · rw [he] at hq; cases hq
  · rw [he] at hq
    cases hq
    obtain ⟨hv1, hv2, hv3, hv4, hv5, hv6⟩ := hv
    refine ⟨h.moveWorker w .finished ⟨hv1, hv2, hv3, hv4, hv5, hv6⟩ hflag
      (fun h0 => hcount.trans h0) ?_, hj⟩
    show (s.entered w).consAmount - 1 = _
    rw [hamount]
    simp [WorkerAt.inside]
  · rw [he] at hq; cases hq

theorem popTakes_inv {d : α} (h : Inv s) (hw : s.workers w = .lock ∨ s.workers w = .woken)
    (hq : popSection (s.entered w) = .done c q (some d)) :
    Inv ({ s with queue := q }.moveWorker w .testConsAmount) ∧ s.queue.jobs = d :: q.jobs := by
  obtain ⟨hv, hj, hcount, hflag, hamount⟩ := h.entered hw
  rcases popSection_cases hv (by rw [hflag]; exact h.flag_mem) with
    ⟨he, -, -⟩ | ⟨he, -, -⟩ | ⟨c', he, hpos⟩
  · rw [he] at hq; cases hq
  · rw [he] at hq; cases hq
  · rw [he] at hq
    cases hq
    obtain ⟨hv', hj'⟩ := consume_spec hv hpos
    refine ⟨h.moveWorker w .testConsAmount hv' hflag (fun h0 => ?_) ?_, hj.symm.trans hj'⟩
    · omega
    · show (s.entered w).consAmount - 1 = _
      rw [hamount]
      simp [WorkerAt.inside]

end Pop

/-! ### The main thread -/

section Main
variable {s : State n α} {c : Cond} {q : Queue α} {d : α} {rest : List α}

/-- Before `destroy` the flag is not set. -/
theorem Inv.flag_of_push (h : Inv s) (hm : s.main = .pushLock d rest ∨ s.main = .pushWoken d rest) :
    s.queue.queueToBeDestroyed = 0 := by
  rw [h.flag]
  rcases hm with hm | hm <;> rw [hm] <;> rfl

theorem todo_of_push (hm : s.main = .pushLock d rest ∨ s.main = .pushWoken d rest) :
    s.main.todo = d :: rest := by
  rcases hm with hm | hm <;> rw [hm] <;> rfl

theorem pushWaits_inv (h : Inv s) (hm : s.main = .pushLock d rest ∨ s.main = .pushWoken d rest)
    (hq : pushSection s.queue d = .wait c q) :
    Inv { s with queue := q, main := .pushWaiting d rest } ∧ q = s.queue := by
  have h0 := h.flag_of_push hm
  unfold pushSection at hq
  split_ifs at hq
  cases hq
  exact ⟨⟨h.valid, h.amount, h0, fun hl => by cases hl⟩, rfl⟩

theorem pushStores_inv (h : Inv s) (hm : s.main = .pushLock d rest ∨ s.main = .pushWoken d rest)
    (hq : pushSection s.queue d = .done c q ()) :
    Inv { s with queue := q, main := .next rest } ∧ q.jobs = s.queue.jobs ++ [d] := by
  have h0 := h.flag_of_push hm
  unfold pushSection at hq
  split_ifs at hq with hc
  cases hq
  obtain ⟨hv, hj⟩ := produce_spec h.valid (not_le.mp hc) d
  refine ⟨⟨hv, h.amount, ?_, fun hl => ?_⟩, hj⟩
  · simpa [produce] using h0
  · simp at hl

/-- `destroy` tests its condition, on a queue with the flag set. -/
theorem testDestroy_inv (hv : s.queue.Valid) (ha : s.queue.consAmount = s.inside.card)
    (hf : s.queue.queueToBeDestroyed = 1) : Inv s.testDestroy := by
  unfold State.testDestroy
  cases hw : mustWait s.queue with
  | true => exact ⟨hv, ha, hf, fun hl => by cases hl⟩
  | false =>
    refine ⟨hv, ha, hf, fun _ => ?_⟩
    have h0 := hv.count_nonneg
    simp only [mustWait, Bool.or_eq_false_iff, decide_eq_false_iff_not] at hw
    show s.queue.queueCount = 0
    omega

theorem Inv.destroyEnter_valid (h : Inv s) : (destroyEnter s.queue).Valid := by
  obtain ⟨h1, h2, h3, h4, h5, h6⟩ := h.valid
  exact ⟨h1, h2, h3, h4, h5, h6⟩

theorem todo_testDestroy (s : State n α) : s.testDestroy.main.todo = [] := by
  unfold State.testDestroy
  cases mustWait s.queue <;> rfl

theorem teardown_alike {m : MainAt α} (h : Teardown s.main m) : Alike s { s with main := m } := by
  have hm : m.todo = s.main.todo ∧ m.closed = s.main.closed ∧ m.leftWait = s.main.leftWait := by
    generalize s.main = m' at h
    cases h <;> exact ⟨rfl, rfl, rfl⟩
  exact ⟨rfl, rfl, hm.1, hm.2.1, hm.2.2⟩

end Main

/-! ### All steps -/

/-- **Every step keeps the invariant** and is a step of the channel, or none. -/
theorem step_matches {spurious : Prop} (s : State n α) (e : Option (Event (Fin n) α))
    (s' : State n α) (h : Inv s) (hs : Threads.Step spurious s e s') :
    Inv s' ∧ Matches Lib.Fifo.Step (channel s) e (channel s') := by
  cases hs with
  | testConsAmount hw =>
    refine ⟨h.moveOutside (by rw [hw]; rfl) (by split_ifs <;> rfl), Or.inl ⟨rfl, rfl⟩⟩
  | testDestroyed hw =>
    refine ⟨h.moveOutside (by rw [hw]; rfl) (by split_ifs <;> rfl), Or.inl ⟨rfl, rfl⟩⟩
  | testCount hw =>
    refine ⟨h.moveOutside (by rw [hw]; rfl) (by split_ifs <;> rfl), Or.inl ⟨rfl, rfl⟩⟩
  | signalDestroy hw hsig =>
    have ha := alike_signal hsig
    refine ⟨(h.moveOutside (by rw [hw]; rfl) rfl).alike ha, Or.inl ⟨rfl, ?_⟩⟩
    rw [channel_alike ha]
    rfl
  | popWaits hw hq =>
    obtain ⟨hI, hj⟩ := popWaits_inv h hw hq
    refine ⟨hI, Or.inl ⟨rfl, ?_⟩⟩
    simp only [channel, State.moveWorker, hj]
  | popFails hw hq hsig =>
    obtain ⟨hI, hj⟩ := popFails_inv h hw hq
    have ha := alike_signal hsig
    refine ⟨hI.alike ha, Or.inl ⟨rfl, ?_⟩⟩
    rw [channel_alike ha]
    simp only [channel, State.moveWorker, hj]
  | popTakes hw hq hsig =>
    obtain ⟨hI, hj⟩ := popTakes_inv h hw hq
    have ha := alike_signal hsig
    refine ⟨hI.alike ha, Or.inr ?_⟩
    rw [channel_alike ha]
    simp only [channel, State.moveWorker, hj]
    exact .pop _ _ _ _
  | @pushTest d rest hm =>
    have h0 : s.queue.queueToBeDestroyed = 0 := by rw [h.flag, hm]; rfl
    have hn : ¬ s.queue.queueToBeDestroyed ≠ 0 := not_not.mpr h0
    simp only [if_neg hn]
    exact ⟨⟨h.valid, h.amount, h0, fun hl => by cases hl⟩, Or.inl ⟨rfl, by simp [channel, hm, MainAt.todo]⟩⟩
  | pushWaits hm hq =>
    obtain ⟨hI, rfl⟩ := pushWaits_inv h hm hq
    refine ⟨hI, Or.inl ⟨rfl, ?_⟩⟩
    simp only [channel, todo_of_push hm]
    rfl
  | pushStores hm hq hsig =>
    obtain ⟨hI, hj⟩ := pushStores_inv h hm hq
    have ha := alike_signal hsig
    refine ⟨hI.alike ha, Or.inr ?_⟩
    rw [channel_alike ha]
    simp only [channel, todo_of_push hm, todo_next, hj]
    exact .push _ _ _
  | destroyLocks hm =>
    refine ⟨testDestroy_inv h.destroyEnter_valid h.amount rfl, Or.inl ⟨rfl, ?_⟩⟩
    simp only [channel, todo_testDestroy, hm]
    rfl
  | destroyWakes hm =>
    have hf : s.queue.queueToBeDestroyed = 1 := by rw [h.flag, hm]; rfl
    refine ⟨testDestroy_inv h.valid h.amount hf, Or.inl ⟨rfl, ?_⟩⟩
    simp only [channel, todo_testDestroy, hm]
    rfl
  | teardown ht =>
    have ha := teardown_alike ht
    exact ⟨h.alike ha, Or.inl ⟨rfl, channel_alike ha⟩⟩
  | join hm hw =>
    have ha : Alike s { s with main := .finished } := by
      exact ⟨rfl, rfl, by rw [hm]; rfl, by rw [hm]; rfl, by rw [hm]; rfl⟩
    exact ⟨h.alike ha, Or.inl ⟨rfl, channel_alike ha⟩⟩
  | wakesUp _ hwake =>
    have ha := alike_wake hwake
    exact ⟨h.alike ha, Or.inl ⟨rfl, channel_alike ha⟩⟩

/-- What is promised of a state and the events so far. -/
structure Delivers (jobs : List α) (es : List (Event (Fin n) α)) (s : State n α) : Prop where
  count_nonneg : 0 ≤ s.queue.queueCount
  count_le : s.queue.queueCount ≤ s.queue.capacity
  prod : s.queue.prodPointer = (s.queue.consPointer + s.queue.queueCount) % s.queue.capacity
  amount : s.queue.consAmount = s.inside.card
  /-- The jobs returned, then the buffer from `cons_pointer` on, are the jobs pushed. -/
  order : taken es ++ s.queue.jobs = sent es
  /-- The jobs pushed are the first ones of the list. -/
  pushed : sent es ++ s.main.todo = jobs
  /-- Once `destroy` has left its `while`, every job was returned, and by one `pop`. -/
  all : s.main.leftWait = true → taken es = jobs

/-- **Every job is delivered once and in order**, for any number of workers and any capacity, in every
run of the threads, also with spurious wakeups. -/
theorem jobs_delivered (n : ℕ) (data : ℤ → α) (capacity : ℤ) (hcap : 1 ≤ capacity) (jobs : List α)
    {es : List (Event (Fin n) α)} {s : State n α}
    (h : Run (Threads.Step True) (start n data capacity jobs) es s) : Delivers jobs es s := by
  obtain ⟨hI, hrun⟩ := h.simulates (I := Inv) (f := channel) step_matches
    (inv_start n data hcap jobs)
  have hc : channel (start n data capacity jobs) = ⟨jobs, []⟩ := by simp [channel, start]
  rw [hc] at hrun
  obtain ⟨hsent, htaken⟩ := ordered_of_run hrun
  refine ⟨hI.valid.count_nonneg, hI.valid.count_le, hI.valid.prod, hI.amount, htaken, hsent, ?_⟩
  intro hl
  have hjobs : s.queue.jobs = [] := by simp [Queue.jobs, hI.drained hl]
  have htodo : s.main.todo = [] := by
    revert hl
    cases s.main <;> simp [MainAt.leftWait, MainAt.todo]
  simp only [channel, hjobs, htodo, List.append_nil] at hsent htaken
  exact htaken.trans hsent

/-- One worker, room for one job, one job: it is pushed, popped, and `destroy` need not wait. By
`jobs_delivered` nothing is left over. -/
theorem one_job_delivered :
    ∃ s : State 1 ℕ, Run (Threads.Step True) (start 1 (fun _ => 0) 1 [7]) [.push 7, .pop 0 7] s ∧
      s.main.leftWait = true ∧ Delivers [7] [.push 7, .pop 0 7] s := by
  have h1 : Run (Threads.Step True) (start 1 (fun _ => 0) 1 [7]) [] _ := .silent .nil (.pushTest rfl)
  have h2 := h1.seen (.pushStores (Or.inl rfl) rfl (.lost fun ⟨w, hw⟩ => by cases hw))
  have h3 := h2.silent (.testConsAmount (w := 0) rfl)
  have h4 := h3.silent (.testDestroyed (w := 0) rfl)
  have h5 := h4.seen (.popTakes (w := 0) (Or.inl rfl) rfl (.lost fun ⟨d, rest, hm⟩ => by cases hm))
  have h6 := h5.silent (.destroyLocks rfl)
  exact ⟨_, h6, rfl, jobs_delivered 1 (fun _ => 0) 1 (le_refl 1) [7] h6⟩

end CompSys.A2.Delivery
