import CompSys.Lib.Runs

/-! # A list sent through a queue

The abstract picture of a bounded buffer between one producer and many consumers: `todo` is what the
producer still has to send, `pending` what waits in the queue. In every run the items taken, followed
by those waiting, are the items sent, and these, followed by the rest, are the list
(`sent_append_todo`, `taken_append_pending`). -/

namespace CompSys.Lib.Fifo

open CompSys.Lib.Runs

/-- An item enters the queue, or consumer `w` takes it out. -/
inductive Event (ι α : Type*)
  | push (v : α)
  | pop (w : ι) (v : α)

structure Channel (α : Type*) where
  todo : List α
  pending : List α

variable {ι α : Type*}

/-- One transfer. -/
inductive Step : Channel α → Option (Event ι α) → Channel α → Prop
  | push (v : α) (todo pending : List α) :
    Step ⟨v :: todo, pending⟩ (some (.push v)) ⟨todo, pending ++ [v]⟩
  | pop (w : ι) (v : α) (todo pending : List α) :
    Step ⟨todo, v :: pending⟩ (some (.pop w v)) ⟨todo, pending⟩

/-- The items that entered the queue, oldest first. -/
def sent (es : List (Event ι α)) : List α :=
  es.filterMap fun | .push v => some v | .pop _ _ => none

/-- The items that were taken, oldest first. -/
def taken (es : List (Event ι α)) : List α :=
  es.filterMap fun | .push _ => none | .pop _ v => some v

@[simp] theorem sent_push (es : List (Event ι α)) (v : α) : sent (es ++ [.push v]) = sent es ++ [v] := by
  simp [sent]

@[simp] theorem sent_pop (es : List (Event ι α)) (w : ι) (v : α) :
    sent (es ++ [.pop w v]) = sent es := by
  simp [sent]

@[simp] theorem taken_push (es : List (Event ι α)) (v : α) : taken (es ++ [.push v]) = taken es := by
  simp [taken]

@[simp] theorem taken_pop (es : List (Event ι α)) (w : ι) (v : α) :
    taken (es ++ [.pop w v]) = taken es ++ [v] := by
  simp [taken]

/-- What holds of the events seen so far and the channel. -/
structure Ordered (jobs : List α) (es : List (Event ι α)) (c : Channel α) : Prop where
  sent_append_todo : sent es ++ c.todo = jobs
  taken_append_pending : taken es ++ c.pending = sent es

theorem Ordered.step {jobs : List α} {es : List (Event ι α)} {c c' : Channel α} {e : Event ι α}
    (h : Ordered jobs es c) (hs : Step c (some e) c') : Ordered jobs (es ++ [e]) c' := by
  obtain ⟨h1, h2⟩ := h
  cases hs with
  | push v todo pending => exact ⟨by simpa using h1, by simp [← h2]⟩
  | pop w v todo pending => exact ⟨by simpa using h1, by simpa using h2⟩

/-- **Everything goes through in order.** -/
theorem ordered_of_run {jobs : List α} {es : List (Event ι α)} {c : Channel α}
    (h : Run Step ⟨jobs, []⟩ es c) : Ordered jobs es c := by
  induction h with
  | nil => exact ⟨rfl, rfl⟩
  | silent _ hs _ => cases hs
  | seen _ hs ih => exact ih.step hs

end CompSys.Lib.Fifo
