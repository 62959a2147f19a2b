import CompSys.A2.Exclusion
import CompSys.Lib.ClosableQueue

/-! # The job queue as an atomic object

The statements of `job_queue.c` in any order between any threads refine `ClosableQueue`. A job gets into the queue
where `job_queue_push` counts it, and out of it where `job_queue_pop` reads it; `job_queue_destroy` closes the queue
where it sets the flag. Between these statements the fields are not those of a queue: `settle` says what they are once
the thread inside is through with its block, and these fields are what the abstract queue has (`Linked`).

The flag is read without the mutex. A `pop` that is sent away there has read `queue_count == 0` after the flag was
set, and at that moment nothing is pending. -/

namespace CompSys.A2.Linearization

open CompSys.Lib CompSys.Lib.Runs CompSys.A2.JobQueue CompSys.A2.Exclusion

variable {α T : Type*}

/-- The fields when the thread at `pc` has finished the block that it is in. -/
def settle (q : Queue α) : Pc α → Queue α
  | .pushPointer => { q with prodPointer := Ring.next q.capacity q.prodPointer }
  | .popCount _ => consume q
  | .popPointer _ =>
    { q with consPointer := Ring.next q.capacity q.consPointer, consAmount := q.consAmount - 1 }
  | .popAmount _ | .popKilledAmount => { q with consAmount := q.consAmount - 1 }
  | _ => q

/-- The fields when the thread inside has finished its block. -/
def settled (s : State T α) : Queue α := s.owner.elim s.queue fun t => settle s.queue (s.pc t)

/-- What the statement at `pc` does to the abstract queue when `next` comes after it. -/
def label (q : Queue α) (t : T) : Pc α → Pc α → Option (ClosableQueue.Event T α)
  | .idle, .pushTest d => some (.ask t d)
  | .pushCount, _ => some (.push t (q.data q.prodPointer))
  | .popEnter, _ => some (.enter t)
  | .popData _, _ => some (.pop t (q.data q.consPointer))
  | .popTestKilled, .popKilledAmount => some (.refuse t)
  | .popTestCount, .popSignalDestroy => some (.turnAway t)
  | .destroyFlag, _ => some (.close t)
  | .destroyWhile, .destroyUnlock => some (.finish t)
  | _, _ => none

/-- The job that a thread has been given and not yet counted in. -/
def asks (q : Queue α) : Pc α → Option α
  | .pushTest d | .pushLock d | .pushWhile d | .pushWait d | .pushAsleep d | .pushRelock d => some d
  | .pushData d => some d
  | .pushCount => some (q.data q.prodPointer)
  | _ => none

/-- The statements of `job_queue_pop` between `cons_amount++` and the decision what it returns. -/
def entered : Pc α → Bool
  | .popWhile | .popWait | .popAsleep | .popRelock | .popTestKilled | .popTestDraining => true
  | .popTestDrainingAgain | .popData _ => true
  | _ => false

/-- What a thread at `pc` knows from the tests that it has made. -/
def Ready (q : Queue α) : Pc α → Prop
  | .pushData _ | .pushCount => q.queueCount < q.capacity
  | .popTestCount | .popSignalDestroy => q.queueToBeDestroyed = 1
  | .popTestKilled => 0 < q.queueCount ∨ q.queueToBeDestroyed = 1
  | .popTestDraining | .popTestDrainingAgain | .popData _ | .popCount _ => 0 < q.queueCount
  | .destroyWhile | .destroyWait | .destroyAsleep | .destroyRelock => q.queueToBeDestroyed = 1
  | _ => True

/-- The fields are those of the abstract queue. -/
structure Agrees (cap : ℕ) (q : Queue α) (a : ClosableQueue.State T α) : Prop where
  valid : q.Valid
  capacity : q.capacity = cap
  jobs : q.jobs = a.pending
  flag : q.queueToBeDestroyed = if a.closed then 1 else 0
  amount : q.consAmount = a.inside.card

/-- A thread is where the abstract queue has it. -/
structure Place (q : Queue α) (a : ClosableQueue.State T α) (t : T) (pc : Pc α) : Prop where
  ready : Ready q pc
  asked : a.asked t = asks q pc
  inside : t ∈ a.inside ↔ entered pc = true

variable [DecidableEq T]

/-- A step and what it does to the abstract queue. -/
def Seen (s : State T α) (e : Option (ClosableQueue.Event T α)) (s' : State T α) : Prop :=
  ∃ t, Careful t s s' ∧ e = label s.queue t (s.pc t) (s'.pc t)

/-- A state of the program and one of the abstract queue. -/
structure Linked (cap : ℕ) (s : State T α) (a : ClosableQueue.State T α) : Prop where
  inv : Inv s
  agrees : Agrees cap (settled s) a
  place : ∀ t, Place s.queue a t (s.pc t)

variable {cap : ℕ} {q q' : Queue α} {pc next : Pc α} {a : ClosableQueue.State T α} {t u : T} {s s' : State T α}

/-! ### The abstract queue and the fields -/

section Agrees

omit [DecidableEq T]

/-- The count and the list. -/
theorem Agrees.count (h : Agrees cap q a) : q.queueCount = a.pending.length := by
  have h0 := h.valid.count_nonneg
  rw [← h.jobs, Queue.jobs, Ring.contents, List.length_map, List.length_range]
  omega

theorem Agrees.room (h : Agrees cap q a) (hc : q.queueCount < q.capacity) : a.pending.length < cap := by
  rw [h.count, h.capacity] at hc
  exact_mod_cast hc

theorem Agrees.empty (h : Agrees cap q a) (hc : q.queueCount ≤ 0) : a.pending = [] := by
  rw [h.count] at hc
  exact List.eq_nil_of_length_eq_zero (by omega)

theorem Agrees.closed (h : Agrees cap q a) (hf : q.queueToBeDestroyed = 1) : a.closed = true := by
  have := h.flag
  split_ifs at this with hc
  · exact hc
  · omega

/-- A slot that is not counted yet is written. -/
theorem Agrees.write (h : Agrees cap q a) (hc : q.queueCount < q.capacity) (d : α) :
    Agrees cap { q with data := Function.update q.data q.prodPointer d } a := by
  refine ⟨?_, h.capacity, ?_, h.flag, h.amount⟩
  · exact ⟨h.valid.capacity, h.valid.cons_nonneg, h.valid.cons_lt, h.valid.count_nonneg, h.valid.count_le,
      h.valid.prod⟩
  · show Ring.contents (Function.update q.data q.prodPointer d) _ _ _ = _
    rw [h.valid.prod, Ring.contents_update _ _ hc]
    exact h.jobs

/-- The slot is counted in. -/
theorem Agrees.push (h : Agrees cap q a) (hc : q.queueCount < q.capacity) (asked : T → Option α) :
    Agrees cap (settle { q with queueCount := q.queueCount + 1 } .pushPointer)
      { a with asked := asked, pending := a.pending ++ [q.data q.prodPointer] } := by
  have hq : settle { q with queueCount := q.queueCount + 1 } .pushPointer = produce q (q.data q.prodPointer) := by
    simp only [settle, produce, Function.update_eq_self, Ring.next]
  obtain ⟨hv, hj⟩ := produce_spec h.valid hc (q.data q.prodPointer)
  rw [hq]
  exact ⟨hv, h.capacity, by rw [hj, h.jobs], h.flag, h.amount⟩

/-- The queue is closed. -/
theorem Agrees.close (h : Agrees cap q a) : Agrees cap (destroyEnter q) { a with closed := true } :=
  ⟨⟨h.valid.capacity, h.valid.cons_nonneg, h.valid.cons_lt, h.valid.count_nonneg, h.valid.count_le, h.valid.prod⟩,
    h.capacity, h.jobs, rfl, h.amount⟩

/-- Consumers come and go. -/
theorem Agrees.amount_of (h : Agrees cap q a) {n : ℤ} {inside : Finset T} (hn : n = inside.card) :
    Agrees cap { q with consAmount := n } { a with inside := inside } :=
  ⟨⟨h.valid.capacity, h.valid.cons_nonneg, h.valid.cons_lt, h.valid.count_nonneg, h.valid.count_le, h.valid.prod⟩,
    h.capacity, h.jobs, h.flag, hn⟩

end Agrees

theorem Agrees.enter (h : Agrees cap q a) (ht : t ∉ a.inside) :
    Agrees cap (popEnter q) { a with inside := insert t a.inside } :=
  h.amount_of (by rw [Finset.card_insert_of_notMem ht, h.amount]; push_cast; rfl)

theorem card_erase (h : Agrees cap q a) (ht : t ∈ a.inside) :
    q.consAmount - 1 = ((a.inside.erase t).card : ℤ) := by
  have := Finset.card_erase_add_one ht
  rw [h.amount]
  omega

theorem Agrees.refuse (h : Agrees cap q a) (ht : t ∈ a.inside) :
    Agrees cap { q with consAmount := q.consAmount - 1 } { a with inside := a.inside.erase t } :=
  h.amount_of (card_erase h ht)

/-- The first job is taken. -/
theorem Agrees.pop (h : Agrees cap q a) (hc : 0 < q.queueCount) (ht : t ∈ a.inside) :
    ∃ rest, a.pending = q.data q.consPointer :: rest ∧
      Agrees cap (consume q) { a with pending := rest, inside := a.inside.erase t } := by
  obtain ⟨hv, hj⟩ := consume_spec h.valid hc
  exact ⟨(consume q).jobs, by rw [← h.jobs, hj], hv, h.capacity, rfl, h.flag, card_erase h ht⟩

/-! ### The statements -/

section Statements

omit [DecidableEq T]

/-- A statement that the abstract queue does not see leaves the thread in its place. -/
theorem Place.quiet (h : Place q a t pc) (hr : Ready q next) (ha : asks q next = asks q pc)
    (he : entered next = entered pc) : Place q a t next :=
  ⟨hr, by rw [ha, h.asked], by rw [he, h.inside]⟩

/-- What a thread outside knows is not lost by what the others do: the flag stays set. -/
theorem Place.outside (h : Place q a t pc) (hin : pc.inside = false)
    (hf : q.queueToBeDestroyed = 1 → q'.queueToBeDestroyed = 1) {a' : ClosableQueue.State T α}
    (ha : a'.asked t = a.asked t) (hi : t ∈ a'.inside ↔ t ∈ a.inside) : Place q' a' t pc := by
  obtain ⟨hr, hask, hins⟩ := h
  refine ⟨?_, ?_, by rw [hi, hins]⟩
  · cases pc <;> first | trivial | exact hf hr
  · rw [ha, hask]
    cases pc <;> first | rfl | cases hin

/-- Locks, unlocks and waits are not seen. -/
theorem stmt_mutex (h : stmt q pc = .lock next ∨ stmt q pc = .unlock next ∨ stmt q pc = .wait next ∨
      stmt q pc = .sleep next) (hpc : pc ≠ .pushStrayUnlock) :
    label q t pc next = none ∧ asks q next = asks q pc ∧ entered next = entered pc ∧
      (Ready q pc → Ready q next) ∧ settle q pc = q ∧ settle q next = q := by
  cases pc <;> simp only [stmt, reduceCtorEq, Effect.lock.injEq, Effect.unlock.injEq, Effect.wait.injEq,
    Effect.sleep.injEq, false_or, or_false, or_self] at h
  all_goals
    first
      | exact absurd rfl hpc
      | (obtain rfl := h
         refine ⟨rfl, rfl, rfl, ?_, rfl, rfl⟩
         first | exact fun _ => trivial | exact fun hr => hr)

end Statements

/-- A statement outside reads the fields only. -/
theorem stmt_outside (cap : ℕ) (hs : stmt q pc = .run q' next) (hin : pc.inside = false) (hp : Place q a t pc)
    (hpush : ∀ d, pc = .pushTest d → q.queueToBeDestroyed = 0) (hclosed : q.queueToBeDestroyed = 1 → a.closed = true)
    (hempty : q.queueCount = 0 → a.pending = []) :
    q' = q ∧ Matches (ClosableQueue.Step cap) a (label q t pc next) a ∧ Place q a t next := by
  cases pc <;> simp only [stmt, Effect.run.injEq, reduceCtorEq] at hs <;> obtain ⟨rfl, rfl⟩ := hs
  case pushTest d =>
    rw [if_neg (not_not_intro (hpush d rfl))]
    exact ⟨rfl, Or.inl ⟨rfl, rfl⟩, hp.quiet trivial rfl rfl⟩
  case popTestAmount =>
    split_ifs
    · exact ⟨rfl, Or.inl ⟨rfl, rfl⟩, hp.quiet trivial rfl rfl⟩
    · exact ⟨rfl, Or.inl ⟨rfl, rfl⟩, hp.quiet trivial rfl rfl⟩
  case popTestFlag =>
    split_ifs with hf
    · exact ⟨rfl, Or.inl ⟨rfl, rfl⟩, hp.quiet hf rfl rfl⟩
    · exact ⟨rfl, Or.inl ⟨rfl, rfl⟩, hp.quiet trivial rfl rfl⟩
  case popTestCount =>
    split_ifs with hc
    · -- the flag was read before the count, and it is still set
      have hout : t ∉ a.inside := fun h => by cases hp.inside.mp h
      exact ⟨rfl, Or.inr (.turnAway t hout (hclosed hp.ready) (hempty hc)), hp.quiet hp.ready rfl rfl⟩
    · exact ⟨rfl, Or.inl ⟨rfl, rfl⟩, hp.quiet trivial rfl rfl⟩
  all_goals first | exact ⟨rfl, Or.inl ⟨rfl, rfl⟩, hp.quiet trivial rfl rfl⟩ | cases hin

/-- Nothing changes for the other threads. -/
def Others (t : T) (a a' : ClosableQueue.State T α) : Prop :=
  ∀ u, u ≠ t → a'.asked u = a.asked u ∧ (u ∈ a'.inside ↔ u ∈ a.inside)

/-- What a statement inside does: a step of the abstract queue, or none. -/
def Follows (cap : ℕ) (q : Queue α) (a : ClosableQueue.State T α) (t : T) (pc : Pc α) (q' : Queue α)
    (next : Pc α) : Prop :=
  ∃ a', Matches (ClosableQueue.Step cap) a (label q t pc next) a' ∧ Agrees cap (settle q' next) a' ∧
    Place q' a' t next ∧ Others t a a'

theorem Follows.quiet (hA : Agrees cap (settle q pc) a) (hp : Place q a t pc) (hl : label q t pc next = none)
    (hset : settle q' next = settle q pc) (hr : Ready q' next) (ha : asks q' next = asks q pc)
    (he : entered next = entered pc) : Follows cap q a t pc q' next :=
  ⟨a, Or.inl ⟨hl, rfl⟩, by rw [hset]; exact hA, ⟨hr, by rw [ha, hp.asked], by rw [he, hp.inside]⟩,
    fun _ _ => ⟨rfl, Iff.rfl⟩⟩

theorem follows_pushData {d : α} (hA : Agrees cap q a) (hp : Place q a t (.pushData d)) :
    Follows cap q a t (.pushData d) { q with data := Function.update q.data q.prodPointer d } .pushCount := by
  have hc : q.queueCount < q.capacity := hp.ready
  refine ⟨a, Or.inl ⟨rfl, rfl⟩, hA.write hc d, ⟨hc, ?_, hp.inside⟩, fun _ _ => ⟨rfl, Iff.rfl⟩⟩
  rw [hp.asked]
  exact (congrArg some (Function.update_self q.prodPointer d q.data)).symm

theorem follows_pushCount (hA : Agrees cap q a) (hp : Place q a t .pushCount) :
    Follows cap q a t .pushCount { q with queueCount := q.queueCount + 1 } .pushPointer := by
  have hc : q.queueCount < q.capacity := hp.ready
  refine ⟨_, Or.inr (.push t _ hp.asked (hA.room hc)), hA.push hc _, ⟨trivial, ?_, hp.inside⟩, fun u hu => ?_⟩
  · show Function.update a.asked t none t = none
    exact Function.update_self ..
  · exact ⟨Function.update_of_ne hu _ _, Iff.rfl⟩

theorem follows_popEnter (hA : Agrees cap q a) (hp : Place q a t .popEnter) :
    Follows cap q a t .popEnter (popEnter q) .popWhile := by
  have hout : t ∉ a.inside := fun h => by cases hp.inside.mp h
  refine ⟨_, Or.inr (.enter t hout), hA.enter hout, ⟨trivial, hp.asked, ?_⟩, fun u hu => ⟨rfl, ?_⟩⟩
  · exact iff_of_true (Finset.mem_insert_self _ _) rfl
  · exact ⟨fun h => Finset.mem_of_mem_insert_of_ne h hu, Finset.mem_insert_of_mem⟩

/-- A consumer leaves. -/
theorem others_erase (a : ClosableQueue.State T α) (t : T) (pending : List α) :
    Others t a { a with pending := pending, inside := a.inside.erase t } :=
  fun _ hu => ⟨rfl, ⟨Finset.mem_of_mem_erase, Finset.mem_erase_of_ne_of_mem hu⟩⟩

theorem follows_popTestKilled (hA : Agrees cap q a) (hp : Place q a t .popTestKilled)
    (hc : q.queueCount ≤ 0 ∧ q.queueToBeDestroyed = 1) :
    Follows cap q a t .popTestKilled q .popKilledAmount := by
  have hin : t ∈ a.inside := hp.inside.mpr rfl
  refine ⟨_, Or.inr (.refuse t hin (hA.closed hc.2) (hA.empty hc.1)), hA.refuse hin, ⟨trivial, hp.asked, ?_⟩,
    others_erase a t a.pending⟩
  exact iff_of_false (Finset.notMem_erase _ _) Bool.false_ne_true

theorem follows_popData {c : Cond} (hA : Agrees cap q a) (hp : Place q a t (.popData c)) :
    Follows cap q a t (.popData c) q (.popCount c) := by
  have hc : 0 < q.queueCount := hp.ready
  have hin : t ∈ a.inside := hp.inside.mpr rfl
  obtain ⟨rest, hrest, hA'⟩ := hA.pop hc hin
  refine ⟨_, Or.inr (.pop t _ rest hin hrest), hA', ⟨hc, hp.asked, ?_⟩, others_erase a t rest⟩
  exact iff_of_false (Finset.notMem_erase _ _) Bool.false_ne_true

theorem follows_destroyFlag (hA : Agrees cap q a) (hp : Place q a t .destroyFlag) :
    Follows cap q a t .destroyFlag (destroyEnter q) .destroyWhile :=
  ⟨_, Or.inr (.close t), hA.close, ⟨rfl, hp.asked, hp.inside⟩, fun _ _ => ⟨rfl, Iff.rfl⟩⟩

theorem follows_destroyWhile (hA : Agrees cap q a) (hp : Place q a t .destroyWhile) (hw : ¬ mustWait q) :
    Follows cap q a t .destroyWhile q .destroyUnlock := by
  have hw' : q.queueCount ≤ 0 ∧ q.consAmount ≤ 0 := by simpa [mustWait] using hw
  have hin : a.inside = ∅ := by
    rw [hA.amount] at hw'
    exact Finset.card_eq_zero.mp (by omega)
  exact ⟨a, Or.inr (.finish t (hA.closed hp.ready) (hA.empty hw'.1) hin), hA, hp.quiet trivial rfl rfl,
    fun _ _ => ⟨rfl, Iff.rfl⟩⟩

/-- **A statement inside** is a step of the abstract queue, or none. -/
theorem stmt_inside (hs : stmt q pc = .run q' next) (hin : pc.inside = true) (hA : Agrees cap (settle q pc) a)
    (hp : Place q a t pc) : Follows cap q a t pc q' next := by
  cases pc <;> simp only [stmt, Effect.run.injEq, reduceCtorEq] at hs <;> obtain ⟨rfl, rfl⟩ := hs
  case pushWhile d =>
    split_ifs with hc
    · exact .quiet hA hp rfl rfl trivial rfl rfl
    · exact .quiet hA hp rfl rfl (not_le.mp hc) rfl rfl
  case pushData d => exact follows_pushData hA hp
  case pushCount => exact follows_pushCount hA hp
  case popEnter => exact follows_popEnter hA hp
  case popWhile =>
    split_ifs with hc
    · exact .quiet hA hp rfl rfl trivial rfl rfl
    · refine .quiet hA hp rfl rfl ?_ rfl rfl
      have hflag := hA.flag
      rcases not_and_or.mp hc with h | h
      · exact Or.inl (not_le.mp h)
      · refine Or.inr ?_
        change q.queueToBeDestroyed = _ at hflag
        split_ifs at hflag
        · exact hflag
        · exact absurd hflag h
  case popTestKilled =>
    split_ifs with hc
    · exact follows_popTestKilled hA hp hc
    · refine .quiet hA hp rfl rfl ?_ rfl rfl
      rcases hp.ready with h | h
      · exact h
      · exact not_le.mp fun h0 => hc ⟨h0, h⟩
  case popTestDraining =>
    split_ifs
    · exact .quiet hA hp rfl rfl hp.ready rfl rfl
    · exact .quiet hA hp rfl rfl hp.ready rfl rfl
  case popTestDrainingAgain =>
    split_ifs
    · exact .quiet hA hp rfl rfl hp.ready rfl rfl
    · exact .quiet hA hp rfl rfl hp.ready rfl rfl
  case popData c => exact follows_popData hA hp
  case destroyFlag => exact follows_destroyFlag hA hp
  case destroyWhile =>
    split_ifs with hw
    · exact .quiet hA hp rfl rfl hp.ready rfl rfl
    · exact follows_destroyWhile hA hp hw
  all_goals first | exact .quiet hA hp rfl rfl trivial rfl rfl | cases hin

/-! ### Runs -/

/-- The flag stays set. -/
theorem stmt_flag (hs : stmt q pc = .run q' next) (hf : q.queueToBeDestroyed = 1) : q'.queueToBeDestroyed = 1 := by
  cases pc <;> simp only [stmt, Effect.run.injEq, reduceCtorEq] at hs <;> obtain ⟨rfl, -⟩ := hs
  all_goals first | exact hf | rfl

/-- `settle` changes neither the flag nor, where it makes the count smaller, a count of zero. -/
theorem settle_flag (q : Queue α) (pc : Pc α) : (settle q pc).queueToBeDestroyed = q.queueToBeDestroyed := by
  cases pc <;> rfl

theorem settle_count (hr : Ready q pc) (hc : q.queueCount = 0) : (settle q pc).queueCount = 0 := by
  cases pc
  case popCount c => exact absurd hc (ne_of_gt hr)
  all_goals exact hc

omit [DecidableEq T] in
/-- What the settled fields say about those that a thread reads. -/
theorem Linked.reads (h : Linked cap s a) :
    (s.queue.queueToBeDestroyed = 1 → a.closed = true) ∧ (s.queue.queueCount = 0 → a.pending = []) := by
  cases ho : s.owner with
  | none =>
    have hA : Agrees cap s.queue a := by simpa only [settled, ho, Option.elim_none] using h.agrees
    exact ⟨hA.closed, fun hc => hA.empty hc.le⟩
  | some t =>
    have hA : Agrees cap (settle s.queue (s.pc t)) a := by
      simpa only [settled, ho, Option.elim_some] using h.agrees
    exact ⟨fun hf => hA.closed (by rwa [settle_flag]), fun hc => hA.empty (settle_count (h.place t).ready hc).le⟩

/-- A step outside: the mutex and the fields stay. -/
theorem Linked.outside (h : Linked cap s a) (hc : Careful t s s') (hq : s'.queue = s.queue) (ho : s'.owner = s.owner)
    (hpc : s'.pc = Function.update s.pc t next) (hout : (s.pc t).inside = false) {a' : ClosableQueue.State T α}
    (hA : ∀ q, Agrees cap q a → Agrees cap q a') (hp : Place s.queue a' t next) (ha : Others t a a') :
    Linked cap s' a' := by
  have hset : settled s' = settled s := by
    unfold settled
    rw [ho, hq]
    cases hown : s.owner with
    | none => rfl
    | some u =>
      have hu : u ≠ t := by
        rintro rfl
        rw [(h.inv.inside u).mpr hown] at hout
        cases hout
      rw [Option.elim_some, Option.elim_some, hpc, Function.update_of_ne hu]
  refine ⟨h.inv.step hc, by rw [hset]; exact hA _ h.agrees, ?_⟩
  rw [hpc, hq]
  refine (Function.forall_update_iff s.pc fun u pc => Place s.queue a' u pc).mpr ⟨hp, fun u hu => ?_⟩
  obtain ⟨h1, h2⟩ := ha u hu
  exact ⟨(h.place u).ready, by rw [h1, (h.place u).asked], by rw [h2, (h.place u).inside]⟩

/-- A step while the other threads are outside. -/
theorem Linked.alone (h : Linked cap s a) (hc : Careful t s s') (hpc : s'.pc = Function.update s.pc t next)
    (hout : ∀ u, u ≠ t → (s.pc u).inside = false)
    (hf : s.queue.queueToBeDestroyed = 1 → s'.queue.queueToBeDestroyed = 1) {a' : ClosableQueue.State T α}
    (hA : Agrees cap (settled s') a') (hp : Place s'.queue a' t next) (ha : Others t a a') : Linked cap s' a' := by
  refine ⟨h.inv.step hc, hA, ?_⟩
  rw [hpc]
  refine (Function.forall_update_iff s.pc fun u pc => Place s'.queue a' u pc).mpr ⟨hp, fun u hu => ?_⟩
  exact (h.place u).outside (hout u hu) hf (ha u hu).1 (ha u hu).2

omit [DecidableEq T] in
/-- The thread that owns the mutex is alone inside. -/
theorem outside_of_owner (h : Inv s) (ho : ∀ u, s.owner = some u → u = t) (u : T) (hu : u ≠ t) :
    (s.pc u).inside = false := by
  rw [Bool.eq_false_iff, Ne, h.inside u]
  exact fun hown => hu (ho u hown)

/-- A call. -/
theorem Linked.call (h : Linked cap s a) (hidle : s.pc t = .idle) (hn : Entry next) (hc : Careful t s s')
    (hs' : s' = { s with pc := Function.update s.pc t next }) :
    ∃ a', Matches (ClosableQueue.Step cap) a (label s.queue t .idle next) a' ∧ Linked cap s' a' := by
  have hp := h.place t
  rw [hidle] at hp
  have hout : (s.pc t).inside = false := by rw [hidle]; rfl
  have hquiet (hr : Ready s.queue next) (ha : asks s.queue next = none) (he : entered next = false) : Linked cap s' a :=
    h.outside hc (by rw [hs']) (by rw [hs']) (by rw [hs']) hout (fun _ hA => hA) (hp.quiet hr ha he)
      fun _ _ => ⟨rfl, Iff.rfl⟩
  cases hn with
  | push d =>
    have hp' : Place s.queue { a with asked := Function.update a.asked t (some d) } t (.pushTest d) :=
      ⟨trivial, Function.update_self t (some d) a.asked, hp.inside⟩
    refine ⟨_, Or.inr (.ask t d hp.asked), ?_⟩
    refine h.outside hc (by rw [hs']) (by rw [hs']) (by rw [hs']) hout (fun q hA => ?_) hp' fun u hu => ?_
    · exact ⟨hA.valid, hA.capacity, hA.jobs, hA.flag, hA.amount⟩
    · exact ⟨Function.update_of_ne hu _ _, Iff.rfl⟩
  | pop => exact ⟨a, Or.inl ⟨rfl, rfl⟩, hquiet trivial rfl rfl⟩
  | destroy => exact ⟨a, Or.inl ⟨rfl, rfl⟩, hquiet trivial rfl rfl⟩

/-- A statement on the fields. -/
theorem Linked.run (h : Linked cap s a) (hr : stmt s.queue (s.pc t) = .run q next) (hc : Careful t s s')
    (hs' : s' = { s with queue := q, pc := Function.update s.pc t next }) :
    ∃ a', Matches (ClosableQueue.Step cap) a (label s.queue t (s.pc t) next) a' ∧ Linked cap s' a' := by
  cases hin : (s.pc t).inside with
  | false =>
    obtain ⟨hclosed, hempty⟩ := h.reads
    obtain ⟨hq, hm, hp⟩ := stmt_outside cap hr hin (h.place t) hc.flag hclosed hempty
    exact ⟨a, hm, h.outside hc (by rw [hs', hq]) (by rw [hs']) (by rw [hs']) hin (fun _ hA => hA) hp
      fun _ _ => ⟨rfl, Iff.rfl⟩⟩
  | true =>
    have hown : s.owner = some t := (h.inv.inside t).mp hin
    have hA : Agrees cap (settle s.queue (s.pc t)) a := by
      simpa only [settled, hown, Option.elim_some] using h.agrees
    obtain ⟨a', hm, hA', hp, ha⟩ := stmt_inside hr hin hA (h.place t)
    refine ⟨a', hm, h.alone hc (by rw [hs']) ?_ ?_ ?_ (by rw [hs']; exact hp) ha⟩
    · exact outside_of_owner h.inv fun u hu => by rw [hown] at hu; exact (Option.some.inj hu).symm
    · rw [hs']
      exact stmt_flag hr
    · rw [hs']
      simpa only [settled, hown, Option.elim_some, Function.update_self] using hA'

/-- A statement that lets go of the mutex. -/
theorem Linked.frees (h : Linked cap s a) (hin : (s.pc t).inside = true)
    (hu : stmt s.queue (s.pc t) = .unlock next ∨ stmt s.queue (s.pc t) = .wait next) (hc : Careful t s s')
    (hs' : s' = { s with owner := none, pc := Function.update s.pc t next }) :
    ∃ a', Matches (ClosableQueue.Step cap) a (label s.queue t (s.pc t) next) a' ∧ Linked cap s' a' := by
  have hown : s.owner = some t := (h.inv.inside t).mp hin
  obtain ⟨hlab, hask, hent, hready, hset, -⟩ :=
    stmt_mutex (t := t) (Or.inr (hu.imp_right Or.inl)) (h.inv.stray t)
  have hp := (h.place t).quiet (hready (h.place t).ready) hask hent
  refine ⟨a, Or.inl ⟨hlab, rfl⟩, h.alone hc (by rw [hs']) ?_ (by rw [hs']; exact id) ?_ (by rw [hs']; exact hp)
    fun _ _ => ⟨rfl, Iff.rfl⟩⟩
  · exact outside_of_owner h.inv fun u hu => by rw [hown] at hu; exact (Option.some.inj hu).symm
  · rw [hs']
    simpa only [settled, hown, Option.elim_some, Option.elim_none, hset] using h.agrees

/-- **Every careful step** is a step of the abstract queue, or none. -/
theorem Linked.step (h : Linked cap s a) {e : Option (ClosableQueue.Event T α)} (hs : Seen s e s') :
    ∃ a', Matches (ClosableQueue.Step cap) a e a' ∧ Linked cap s' a' := by
  obtain ⟨t, hc, rfl⟩ := hs
  have hstray := h.inv.stray t
  cases hc.step with
  | call hidle hn =>
    simp only [Function.update_self, hidle]
    exact h.call hidle hn hc rfl
  | run hr =>
    simp only [Function.update_self]
    exact h.run hr hc rfl
  | @lock next hl ho =>
    obtain ⟨hlab, hask, hent, hready, -, hset⟩ := stmt_mutex (t := t) (Or.inl hl) hstray
    simp only [Function.update_self]
    have hp := (h.place t).quiet (hready (h.place t).ready) hask hent
    refine ⟨a, Or.inl ⟨hlab, rfl⟩, h.alone hc rfl ?_ id ?_ hp fun _ _ => ⟨rfl, Iff.rfl⟩⟩
    · exact outside_of_owner h.inv fun u hu => by rw [ho] at hu; cases hu
    · simpa only [settled, ho, Option.elim_none, Option.elim_some, Function.update_self, hset] using h.agrees
  | unlock hu =>
    simp only [Function.update_self]
    exact h.frees ((stmt_unlock hu).1.resolve_right hstray) (Or.inl hu) hc rfl
  | wait hw =>
    simp only [Function.update_self]
    exact h.frees (stmt_wait hw).1 (Or.inr hw) hc rfl
  | wake hw =>
    obtain ⟨hlab, hask, hent, hready, -, -⟩ := stmt_mutex (t := t) (Or.inr (Or.inr (Or.inr hw))) hstray
    simp only [Function.update_self]
    exact ⟨a, Or.inl ⟨hlab, rfl⟩, h.outside hc rfl rfl rfl (stmt_sleep hw).1 (fun _ hA => hA)
      ((h.place t).quiet (hready (h.place t).ready) hask hent) fun _ _ => ⟨rfl, Iff.rfl⟩⟩

omit [DecidableEq T] in
/-- The new queue. -/
theorem linked_start (data : ℤ → α) {capacity : ℤ} (hcap : 1 ≤ capacity) :
    Linked capacity.toNat (start T data capacity) .empty := by
  refine ⟨inv_start data capacity, ?_, fun t => ⟨trivial, rfl, by simp [ClosableQueue.State.empty, start, entered]⟩⟩
  refine ⟨valid_init data hcap, ?_, rfl, rfl, rfl⟩
  show capacity = capacity.toNat
  omega

variable {es : List (ClosableQueue.Event T α)} {data : ℤ → α} {capacity : ℤ}

/-- A producer stores a job and counts it in, and a consumer reads it. -/
theorem run_push_pop : ∃ s : State Bool ℕ, Run Seen (start Bool (fun _ => 0) 1)
    [.ask false 7, .push false 7, .enter true, .pop true 7] s := by
  have h1 : Run Seen (start Bool (fun _ => (0 : ℕ)) 1) ([] ++ [.ask false 7]) _ :=
    .seen .nil ⟨false, ⟨.call rfl (.push 7), nofun⟩, rfl⟩
  have h2 := h1.silent ⟨false, ⟨.run (show _ = Effect.run _ (.pushLock 7) from rfl), fun _ _ => rfl⟩, rfl⟩
  have h3 := h2.silent ⟨false, ⟨.lock rfl rfl, nofun⟩, rfl⟩
  have h4 := h3.silent ⟨false, ⟨.run (show _ = Effect.run _ (.pushData 7) from rfl), nofun⟩, rfl⟩
  have h5 := h4.silent ⟨false, ⟨.run rfl, nofun⟩, rfl⟩
  have h6 := h5.seen (e := .push false 7) ⟨false, ⟨.run rfl, nofun⟩, rfl⟩
  have h7 := h6.silent ⟨true, ⟨.call rfl .pop, nofun⟩, rfl⟩
  have h8 := h7.silent ⟨true, ⟨.run (show _ = Effect.run _ .popTestFlag from rfl), nofun⟩, rfl⟩
  have h9 := h8.silent ⟨true, ⟨.run (show _ = Effect.run _ .popLock from rfl), nofun⟩, rfl⟩
  have h10 := h9.silent ⟨false, ⟨.run rfl, nofun⟩, rfl⟩
  have h11 := h10.silent ⟨false, ⟨.run rfl, nofun⟩, rfl⟩
  have h12 := h11.silent ⟨false, ⟨.unlock rfl, nofun⟩, rfl⟩
  have h13 := h12.silent ⟨true, ⟨.lock rfl rfl, nofun⟩, rfl⟩
  have h14 := h13.seen (e := .enter true) ⟨true, ⟨.run rfl, nofun⟩, rfl⟩
  have h15 := h14.silent ⟨true, ⟨.run (show _ = Effect.run _ .popTestKilled from rfl), nofun⟩, rfl⟩
  have h16 := h15.silent ⟨true, ⟨.run (show _ = Effect.run _ .popTestDraining from rfl), nofun⟩, rfl⟩
  have h17 := h16.silent ⟨true, ⟨.run (show _ = Effect.run _ .popTestDrainingAgain from rfl), nofun⟩, rfl⟩
  have h18 := h17.silent ⟨true, ⟨.run (show _ = Effect.run _ (.popData .prodCond) from rfl), nofun⟩, rfl⟩
  exact ⟨_, h18.seen (e := .pop true 7) ⟨true, ⟨.run rfl, nofun⟩, rfl⟩⟩

end CompSys.A2.Linearization
