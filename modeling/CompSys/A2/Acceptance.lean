import CompSys.A2.Exclusion

/-! # Pushes during the shutdown

`job_queue_push` reads `queue_to_be_destroyed` once, before it locks `queue_access`. A push that has read it
as clear is accepted: it stores its job whenever it gets the mutex and there is space, also when
`job_queue_destroy` has set the flag in the meantime (`accepted_after_shutdown`). If no push is accepted but
still to store its job when `job_queue_destroy` sets the flag, every push from there on is refused
(`shutdown_refuses`). -/

namespace CompSys.A2.Acceptance

open CompSys.Lib.Runs CompSys.A2.JobQueue CompSys.A2.Exclusion

variable {α : Type*}

/-- The statements of `job_queue_push`. -/
def pushing : Pc α → Bool
  | .pushTest _ | .pushStrayUnlock | .pushLock _ | .pushWhile _ | .pushWait _ | .pushAsleep _ => true
  | .pushRelock _ | .pushData _ | .pushCount | .pushPointer | .pushSignal | .pushUnlock => true
  | _ => false

/-- The statements of a push that has read the flag as clear, up to the end of step 2. -/
def accepted : Pc α → Bool
  | .pushLock _ | .pushWhile _ | .pushWait _ | .pushAsleep _ | .pushRelock _ => true
  | .pushData _ | .pushCount | .pushPointer => true
  | _ => false

/-- What `job_queue_push` returns, at its last statements. -/
def pushReturn : Pc α → Option ℤ
  | .pushStrayUnlock => some (-1)
  | .pushUnlock => some 0
  | _ => none

variable {T : Type*} [DecidableEq T]

/-- A step of any thread. -/
def Any (s s' : State T α) : Prop := ∃ t, Step t s s'

/-- **The queue refuses jobs.** -/
structure Refuses (s : State T α) : Prop where
  flag : s.queue.queueToBeDestroyed ≠ 0
  /-- No push is about to store its job. -/
  accepted : ∀ t, accepted (s.pc t) = false
  /-- No statement of a push changes the buffer, a pointer or the count. -/
  keeps : ∀ t s', Step t s s' → pushing (s.pc t) = true → s'.queue = s.queue
  /-- A push that starts is on its way to return `-1`. -/
  returns : ∀ t s' d, Step t s s' → s.pc t = .pushTest d → pushReturn (s'.pc t) = some (-1)

/-- A step in which `job_queue_destroy` does not set the flag while a push is still to store its job. -/
structure Patient (t : T) (s s' : State T α) : Prop where
  step : Step t s s'
  accepted : s.pc t = .destroyFlag → ∀ t', accepted (s.pc t') = false

variable {q q' : Queue α} {pc next : Pc α} {s s' : State T α} {t : T}

/-! ### The statements -/

/-- Only `job_queue_destroy` changes the flag. -/
theorem flag_after (h : (stmt q pc).after q = some (q', next)) :
    (pc = .destroyFlag ∧ q'.queueToBeDestroyed = 1) ∨ q'.queueToBeDestroyed = q.queueToBeDestroyed := by
  cases pc <;> simp only [stmt, Effect.after, Option.some.injEq, Prod.mk.injEq, reduceCtorEq] at h
  all_goals
    obtain ⟨rfl, -⟩ := h
    first
    | exact Or.inr rfl
    | exact Or.inl ⟨rfl, rfl⟩

/-- **A push is accepted** only where it reads the flag as clear. -/
theorem accepted_after (h : (stmt q pc).after q = some (q', next)) (hn : accepted next = true) :
    accepted pc = true ∨ ((∃ d, pc = .pushTest d) ∧ q.queueToBeDestroyed = 0) := by
  cases pc <;> simp only [stmt, Effect.after, Option.some.injEq, Prod.mk.injEq, reduceCtorEq] at h
  all_goals
    obtain ⟨-, rfl⟩ := h
    first
    | exact Or.inl rfl
    | (split_ifs at hn <;> simp_all [accepted])
    | simp [accepted] at hn

/-- A push changes the fields only where it is accepted. -/
theorem keeps_after (h : (stmt q pc).after q = some (q', next)) (hp : pushing pc = true)
    (ha : accepted pc = false) : q' = q := by
  cases pc <;> simp only [pushing, accepted, reduceCtorEq] at hp ha
  all_goals
    simp only [stmt, Effect.after, Option.some.injEq, Prod.mk.injEq] at h
    exact h.1.symm

/-! ### Steps -/

/-- **After the flag is set** a step accepts no push. -/
theorem refuses_step (hs : Step t s s') (hf : s.queue.queueToBeDestroyed ≠ 0)
    (ha : ∀ t, accepted (s.pc t) = false) :
    s'.queue.queueToBeDestroyed ≠ 0 ∧ ∀ t, accepted (s'.pc t) = false := by
  obtain ⟨next, hpc, hm⟩ := hs.moves
  have hnext : s'.queue.queueToBeDestroyed ≠ 0 ∧ accepted next = false := by
    rcases hm with ⟨-, hn, hq⟩ | hm
    · exact ⟨by rw [hq]; exact hf, by cases hn <;> rfl⟩
    · refine ⟨?_, Bool.eq_false_iff.mpr fun hn => ?_⟩
      · rcases flag_after hm with ⟨-, h1⟩ | h1
        · rw [h1]; exact one_ne_zero
        · rw [h1]; exact hf
      · rcases accepted_after hm hn with h1 | ⟨-, h1⟩
        · exact absurd h1 (by rw [ha t]; exact Bool.false_ne_true)
        · exact hf h1
  rw [hpc]
  exact ⟨hnext.1, (Function.forall_update_iff s.pc fun _ pc => accepted pc = false).mpr ⟨hnext.2, fun i _ => ha i⟩⟩

/-- In a state where the flag is set and no push is accepted, the queue refuses jobs. -/
theorem refuses_of (hf : s.queue.queueToBeDestroyed ≠ 0) (ha : ∀ t, accepted (s.pc t) = false) : Refuses s := by
  refine ⟨hf, ha, fun t s' hs hp => ?_, fun t s' d hs hd => ?_⟩
  · obtain ⟨next, -, ⟨-, -, hq⟩ | hm⟩ := hs.moves
    · exact hq
    · exact keeps_after hm hp (ha t)
  · obtain ⟨next, hpc, ⟨hidle, -, -⟩ | hm⟩ := hs.moves
    · rw [hd] at hidle
      cases hidle
    · rw [hd] at hm
      simp only [stmt, if_pos hf, Effect.after, Option.some.injEq, Prod.mk.injEq] at hm
      rw [hpc, Function.update_self, ← hm.2]
      rfl

/-- **No push is accepted while the flag is set**, along patient steps. -/
theorem patient_step (hp : Patient t s s')
    (h : s.queue.queueToBeDestroyed ≠ 0 → ∀ t, accepted (s.pc t) = false) :
    s'.queue.queueToBeDestroyed ≠ 0 → ∀ t, accepted (s'.pc t) = false := by
  intro hf'
  by_cases hf : s.queue.queueToBeDestroyed ≠ 0
  · exact (refuses_step hp.step hf (h hf)).2
  · obtain ⟨next, hpc, ⟨-, -, hq⟩ | hm⟩ := hp.step.moves
    · exact absurd (hq ▸ hf') hf
    · rcases flag_after hm with ⟨hd, -⟩ | h1
      · -- the step that sets the flag
        have hnext : accepted next = false := by
          rw [hd] at hm
          simp only [stmt, Effect.after, Option.some.injEq, Prod.mk.injEq] at hm
          rw [← hm.2]
          rfl
        rw [hpc]
        exact (Function.forall_update_iff s.pc fun _ pc => accepted pc = false).mpr
          ⟨hnext, fun i _ => hp.accepted hd i⟩
      · exact absurd (h1 ▸ hf') hf

/-- **No job is accepted once the shutdown has begun**, for any threads and any calls, if the steps up to there
are patient; whatever steps follow. -/
theorem shutdown_refuses (data : ℤ → α) (capacity : ℤ)
    (h : Reaches (fun s s' => ∃ t, Patient t s s') (start T data capacity) s)
    (hf : s.queue.queueToBeDestroyed ≠ 0) (hr : Reaches Any s s') : Refuses s' := by
  have ha : s.queue.queueToBeDestroyed ≠ 0 → ∀ t, accepted (s.pc t) = false :=
    h.invariant (fun _ _ ha ⟨_, hp⟩ => patient_step hp ha) fun hf => absurd rfl hf
  refine hr.invariant (fun _ _ hR ⟨t, hs⟩ => ?_) (refuses_of hf (ha hf))
  obtain ⟨h1, h2⟩ := refuses_step hs hR.flag hR.accepted
  exact refuses_of h1 h2

/-- Thread 1 destroys the queue; thread 0 pushes after the flag is set. -/
theorem shutdown_refuses_late : ∃ s s' : State (Fin 2) ℕ,
    Reaches (fun s s' => ∃ t, Patient t s s') (start (Fin 2) (fun _ => 0) 1) s ∧
      s.queue.queueToBeDestroyed ≠ 0 ∧ Reaches Any s s' ∧ s'.pc 0 = .pushStrayUnlock ∧ Refuses s' := by
  have h1 : Steps (fun s s' => ∃ t, Patient t s s') (start (Fin 2) (fun _ => (0 : ℕ)) 1) _ _ :=
    .tail .refl ⟨1, .call rfl .destroy, nofun⟩
  have h2 := h1.tail ⟨1, .lock rfl rfl, nofun⟩
  have h3 := h2.tail ⟨1, .run rfl, fun _ t' => by fin_cases t' <;> rfl⟩
  refine ⟨_, _, ⟨_, h3⟩, one_ne_zero, ⟨_, .tail (.tail .refl ⟨0, .call rfl (.push 7)⟩) ⟨0, .run rfl⟩⟩, rfl, ?_⟩
  exact shutdown_refuses (fun _ => 0) 1 ⟨_, h3⟩ one_ne_zero ⟨_, .tail (.tail .refl ⟨0, .call rfl (.push 7)⟩)
    ⟨0, .run rfl⟩⟩

/-- **A job accepted after the shutdown has begun**: thread 0 has read the flag as clear when thread 1 sets it;
the queue is empty, thread 1 unlocks it for good, and thread 0 stores its job and is on its way to return `0`. -/
theorem accepted_after_shutdown : ∃ s s' : State (Fin 2) ℕ,
    Reaches Any (start (Fin 2) (fun _ => 0) 1) s ∧ s.queue.queueToBeDestroyed = 1 ∧ s.queue.queueCount = 0 ∧
      ¬ Refuses s ∧ Reaches Any s s' ∧ s'.queue.queueCount = 1 ∧ s'.queue.data 0 = 7 ∧
      pushReturn (s'.pc 0) = some 0 := by
  have h1 : Steps Any (start (Fin 2) (fun _ => (0 : ℕ)) 1) _ _ := .tail .refl ⟨0, .call rfl (.push 7)⟩
  have h2 := h1.tail ⟨0, .run rfl⟩
  have h3 := h2.tail ⟨1, .call rfl .destroy⟩
  have h4 := h3.tail ⟨1, .lock rfl rfl⟩
  have h5 := h4.tail ⟨1, .run rfl⟩
  refine ⟨_, _, ⟨_, h5⟩, rfl, rfl, fun hr => ?_, ⟨_, .tail (.tail (.tail (.tail (.tail (.tail (.tail (.tail .refl
    ⟨1, .run rfl⟩) ⟨1, .unlock rfl⟩) ⟨0, .lock rfl rfl⟩) ⟨0, .run rfl⟩) ⟨0, .run rfl⟩) ⟨0, .run rfl⟩)
    ⟨0, .run rfl⟩) ⟨0, .run rfl⟩⟩, rfl, rfl, rfl⟩
  exact absurd (hr.accepted 0) (by decide)

end CompSys.A2.Acceptance
