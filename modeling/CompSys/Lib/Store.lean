import Mathlib.Tactic

/-! # Flat stores and histories of writes

A store is a function from addresses to values. A *history* is the list of the writes made so far,
oldest first; `lastWrite? ws a` is the value of the latest write to `a`, if there was one. Running a
history on a store (`applyWrites`) and reading at `a` gives that value, or what the store held
before (`applyWrites_apply`). -/

namespace CompSys.Lib.Store

variable {α β : Type*} [DecidableEq α]

/-- The value of the latest write to `a`. -/
def lastWrite? : List (α × β) → α → Option β
  | [], _ => none
  | w :: ws, a => (lastWrite? ws a).or (if w.1 = a then some w.2 else none)

/-- The value of the latest write to `a`, `d` if there was none. -/
def lastWritten (d : β) (ws : List (α × β)) (a : α) : β := (lastWrite? ws a).getD d

/-- The store after the writes of a history. -/
def applyWrites (s : α → β) (ws : List (α × β)) : α → β :=
  ws.foldl (fun s w => Function.update s w.1 w.2) s

@[simp] theorem lastWrite?_nil (a : α) : lastWrite? ([] : List (α × β)) a = none := rfl

theorem lastWrite?_cons (w : α × β) (ws : List (α × β)) (a : α) :
    lastWrite? (w :: ws) a = (lastWrite? ws a).or (if w.1 = a then some w.2 else none) := rfl

theorem lastWrite?_append (ws vs : List (α × β)) (a : α) :
    lastWrite? (ws ++ vs) a = (lastWrite? vs a).or (lastWrite? ws a) := by
  induction ws with
  | nil => simp
  | cons w ws ih => rw [List.cons_append, lastWrite?_cons, ih, lastWrite?_cons, Option.or_assoc]

@[simp] theorem lastWrite?_singleton (x a : α) (v : β) :
    lastWrite? [(x, v)] a = if x = a then some v else none := by
  simp [lastWrite?_cons]

theorem lastWrite?_eq_none {ws : List (α × β)} {a : α} :
    lastWrite? ws a = none ↔ ∀ w ∈ ws, w.1 ≠ a := by
  induction ws with
  | nil => simp
  | cons w ws ih =>
    rw [lastWrite?_cons, Option.or_eq_none_iff, ih]
    simp [and_comm]

theorem mem_of_lastWrite? {ws : List (α × β)} {a : α} {v : β} (h : lastWrite? ws a = some v) :
    (a, v) ∈ ws := by
  induction ws with
  | nil => simp at h
  | cons w ws ih =>
    rw [lastWrite?_cons, Option.or_eq_some_iff] at h
    rcases h with h | ⟨-, h⟩
    · exact List.mem_cons_of_mem _ (ih h)
    · split_ifs at h with hw
      simp only [Option.some.injEq] at h
      subst hw h
      exact List.mem_cons_self

theorem lastWritten_append (d : β) (ws vs : List (α × β)) (a : α) :
    lastWritten d (ws ++ vs) a = (lastWrite? vs a).getD (lastWritten d ws a) := by
  unfold lastWritten
  rw [lastWrite?_append]
  cases lastWrite? vs a <;> simp

@[simp] theorem lastWritten_nil (d : β) (a : α) : lastWritten d [] a = d := rfl

@[simp] theorem applyWrites_nil (s : α → β) : applyWrites s [] = s := rfl

@[simp] theorem applyWrites_cons (s : α → β) (w : α × β) (ws : List (α × β)) :
    applyWrites s (w :: ws) = applyWrites (Function.update s w.1 w.2) ws := rfl

theorem applyWrites_append (s : α → β) (ws vs : List (α × β)) :
    applyWrites s (ws ++ vs) = applyWrites (applyWrites s ws) vs := by
  unfold applyWrites; rw [List.foldl_append]

/-- **Reading after a history** gives the latest write, or the old value. -/
theorem applyWrites_apply (s : α → β) (ws : List (α × β)) (a : α) :
    applyWrites s ws a = (lastWrite? ws a).getD (s a) := by
  induction ws generalizing s with
  | nil => rfl
  | cons w ws ih =>
    rw [applyWrites_cons, ih, lastWrite?_cons]
    cases lastWrite? ws a with
    | some v => simp
    | none =>
      by_cases hw : w.1 = a
      · subst hw; simp
      · simp [hw, Function.update_of_ne (Ne.symm hw)]

theorem applyWrites_const (d : β) (ws : List (α × β)) :
    applyWrites (fun _ => d) ws = lastWritten d ws := by
  funext a; exact applyWrites_apply _ _ _

end CompSys.Lib.Store
