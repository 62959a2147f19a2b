import CompSys.Lib.Runs
import CompSys.Lib.Totals

/-! # A bounded queue that can be closed

The atomic object behind a buffer of `cap` places between any threads. A thread asks for an item to be pushed, and
the item gets into the queue later, in one step. A thread enters to take an item; it leaves with the oldest one, or
with none when the queue is closed and empty, and in that case it may as well be turned away at the door. The thread
that closes the queue gets an answer as soon as nothing is pending and nobody is inside.

In every run the items taken, followed by those pending, are the items pushed, and those that a thread has pushed are
those that it asked for, in its order (`kept_of_run`). Who is refused is refused after everything has been taken
(`taken_of_refused`), and so is the thread that closes the queue, when everybody has left (`taken_of_finished`).
For finitely many threads `stock` is what the queue has been asked to hold and still has, in no order. -/

namespace CompSys.Lib.ClosableQueue

open CompSys.Lib.Runs CompSys.Lib.Totals

inductive Event (T α : Type*)
  | ask (t : T) (v : α)
  | push (t : T) (v : α)
  | enter (t : T)
  | pop (t : T) (v : α)
  | refuse (t : T)
  | turnAway (t : T)
  | close (t : T)
  | finish (t : T)

structure State (T α : Type*) where
  /-- What a thread has asked to push and is not yet in the queue. -/
  asked : T → Option α
  pending : List α
  inside : Finset T
  closed : Bool

variable {T α : Type*}

/-- The new queue. -/
def State.empty : State T α := ⟨fun _ => none, [], ∅, false⟩

variable [DecidableEq T]

/-- **One step** of a thread. -/
inductive Step (cap : ℕ) (q : State T α) : Option (Event T α) → State T α → Prop
  | ask (t : T) (v : α) (h : q.asked t = none) :
    Step cap q (some (.ask t v)) { q with asked := Function.update q.asked t (some v) }
  | push (t : T) (v : α) (h : q.asked t = some v) (hroom : q.pending.length < cap) :
    Step cap q (some (.push t v))
      { q with asked := Function.update q.asked t none, pending := q.pending ++ [v] }
  | enter (t : T) (h : t ∉ q.inside) :
    Step cap q (some (.enter t)) { q with inside := insert t q.inside }
  | pop (t : T) (v : α) (rest : List α) (h : t ∈ q.inside) (hp : q.pending = v :: rest) :
    Step cap q (some (.pop t v)) { q with pending := rest, inside := q.inside.erase t }
  | refuse (t : T) (h : t ∈ q.inside) (hc : q.closed = true) (hp : q.pending = []) :
    Step cap q (some (.refuse t)) { q with inside := q.inside.erase t }
  | turnAway (t : T) (h : t ∉ q.inside) (hc : q.closed = true) (hp : q.pending = []) :
    Step cap q (some (.turnAway t)) q
  | close (t : T) : Step cap q (some (.close t)) { q with closed := true }
  | finish (t : T) (hc : q.closed = true) (hp : q.pending = []) (hi : q.inside = ∅) :
    Step cap q (some (.finish t)) q

/-! ### Histories -/

section Histories

omit [DecidableEq T]

/-- The items pushed, oldest first. -/
def pushed (es : List (Event T α)) : List α :=
  es.filterMap fun | .push _ v => some v | _ => none

/-- The items taken, oldest first. -/
def taken (es : List (Event T α)) : List α :=
  es.filterMap fun | .pop _ v => some v | _ => none

@[simp] theorem pushed_append (es es' : List (Event T α)) : pushed (es ++ es') = pushed es ++ pushed es' :=
  List.filterMap_append

@[simp] theorem taken_append (es es' : List (Event T α)) : taken (es ++ es') = taken es ++ taken es' :=
  List.filterMap_append

end Histories

/-- What `t` has asked to push. -/
def askedBy (t : T) (es : List (Event T α)) : List α :=
  es.filterMap fun | .ask u v => if u = t then some v else none | _ => none

/-- What `t` has pushed. -/
def pushedBy (t : T) (es : List (Event T α)) : List α :=
  es.filterMap fun | .push u v => if u = t then some v else none | _ => none

/-- How often `t` has come in. -/
def visits (t : T) (es : List (Event T α)) : ℕ :=
  es.countP fun | .enter u => u = t | _ => false

/-- How often `t` has left, with or without an item. -/
def leaves (t : T) (es : List (Event T α)) : ℕ :=
  es.countP fun | .pop u _ => u = t | .refuse u => u = t | _ => false

@[simp] theorem askedBy_append (t : T) (es es' : List (Event T α)) :
    askedBy t (es ++ es') = askedBy t es ++ askedBy t es' :=
  List.filterMap_append

@[simp] theorem pushedBy_append (t : T) (es es' : List (Event T α)) :
    pushedBy t (es ++ es') = pushedBy t es ++ pushedBy t es' :=
  List.filterMap_append

@[simp] theorem visits_append (t : T) (es es' : List (Event T α)) :
    visits t (es ++ es') = visits t es + visits t es' :=
  List.countP_append

@[simp] theorem leaves_append (t : T) (es es' : List (Event T α)) :
    leaves t (es ++ es') = leaves t es + leaves t es' :=
  List.countP_append

/-- What the events so far say about the queue. -/
structure Kept (cap : ℕ) (es : List (Event T α)) (q : State T α) : Prop where
  order : taken es ++ q.pending = pushed es
  asked : ∀ t, pushedBy t es ++ (q.asked t).toList = askedBy t es
  room : q.pending.length ≤ cap
  closed : q.closed = true → ∃ t, .close t ∈ es
  inside : ∀ t, visits t es = leaves t es + if t ∈ q.inside then 1 else 0

variable {cap : ℕ} {es : List (Event T α)} {q q' : State T α} {e : Event T α} {t u : T}

theorem kept_empty : Kept cap ([] : List (Event T α)) .empty :=
  ⟨rfl, fun _ => rfl, Nat.zero_le _, by simp [State.empty], by simp [State.empty, visits, leaves]⟩

/-! ### What one step adds -/

theorem order_step (h : taken es ++ q.pending = pushed es) (hs : Step cap q (some e) q') :
    taken (es ++ [e]) ++ q'.pending = pushed (es ++ [e]) := by
  rw [taken_append, pushed_append, ← h]
  cases hs with
  | push t v _ _ => simp [taken, pushed]
  | pop t v rest _ hp => simp [taken, pushed, hp]
  | ask | enter | refuse | turnAway | close | finish => simp [taken, pushed]

theorem asked_step (h : pushedBy u es ++ (q.asked u).toList = askedBy u es) (hs : Step cap q (some e) q') :
    pushedBy u (es ++ [e]) ++ (q'.asked u).toList = askedBy u (es ++ [e]) := by
  rw [pushedBy_append, askedBy_append, ← h]
  cases hs with
  | ask t v ht =>
    rcases eq_or_ne t u with rfl | htu
    · simp [pushedBy, askedBy, ht]
    · simp [pushedBy, askedBy, htu, Function.update_of_ne htu.symm]
  | push t v ht _ =>
    rcases eq_or_ne t u with rfl | htu
    · simp [pushedBy, askedBy, ht]
    · simp [pushedBy, askedBy, htu, Function.update_of_ne htu.symm]
  | enter | pop | refuse | turnAway | close | finish => simp [pushedBy, askedBy]

theorem inside_step (h : visits u es = leaves u es + if u ∈ q.inside then 1 else 0)
    (hs : Step cap q (some e) q') :
    visits u (es ++ [e]) = leaves u (es ++ [e]) + if u ∈ q'.inside then 1 else 0 := by
  rw [visits_append, leaves_append, h]
  cases hs with
  | enter t ht =>
    rcases eq_or_ne t u with rfl | htu
    · simp [visits, leaves, ht]
    · simp [visits, leaves, htu, htu.symm]
  | pop t v rest ht _ =>
    rcases eq_or_ne t u with rfl | htu
    · simp [visits, leaves, ht]
    · simp [visits, leaves, htu, htu.symm]
  | refuse t ht _ _ =>
    rcases eq_or_ne t u with rfl | htu
    · simp [visits, leaves, ht]
    · simp [visits, leaves, htu, htu.symm]
  | ask | push | turnAway | close | finish => simp [visits, leaves]

theorem room_step (h : q.pending.length ≤ cap) (hs : Step cap q (some e) q') : q'.pending.length ≤ cap := by
  cases hs with
  | push t v _ hroom => simpa using hroom
  | pop t v rest _ hp => exact (Nat.le_succ _).trans (by simpa [hp] using h)
  | ask | enter | refuse | turnAway | close | finish => exact h

theorem closed_step (h : q.closed = true → ∃ t, .close t ∈ es) (hs : Step cap q (some e) q')
    (hc : q'.closed = true) : ∃ t, .close t ∈ es ++ [e] := by
  cases hs with
  | close t => exact ⟨t, by simp⟩
  | ask | push | enter | pop | refuse | turnAway | finish =>
    obtain ⟨t, ht⟩ := h hc
    exact ⟨t, List.mem_append_left _ ht⟩

theorem Kept.step (h : Kept cap es q) (hs : Step cap q (some e) q') : Kept cap (es ++ [e]) q' :=
  ⟨order_step h.order hs, fun t => asked_step (h.asked t) hs, room_step h.room hs, closed_step h.closed hs,
    fun t => inside_step (h.inside t) hs⟩

/-! ### Runs -/

/-- **Nothing is lost, doubled or overtaken**, in any run. -/
theorem kept_of_run (h : Run (Step cap) .empty es q) : Kept cap es q := by
  refine h.history kept_empty fun es q e q' hk hs => ?_
  cases e with
  | none => cases hs
  | some e => exact hk.step hs

/-- Who is refused or turned away has not missed anything. -/
theorem taken_of_refused {es' : List (Event T α)} (h : Run (Step cap) .empty (es ++ e :: es') q)
    (he : e = .refuse t ∨ e = .turnAway t) : taken es = pushed es ∧ ∃ u, .close u ∈ es := by
  obtain ⟨q₁, q₂, h₁, hs⟩ := h.at_event
  have hk := kept_of_run h₁
  obtain ⟨hc, hp⟩ : q₁.closed = true ∧ q₁.pending = [] := by
    rcases he with rfl | rfl
    · cases hs with | refuse _ _ hc hp => exact ⟨hc, hp⟩
    · cases hs with | turnAway _ _ hc hp => exact ⟨hc, hp⟩
  exact ⟨by simpa [hp] using hk.order, hk.closed hc⟩

/-- **The end**: the thread that closes the queue is told when everything has been taken and everybody has left. -/
theorem taken_of_finished {es' : List (Event T α)}
    (h : Run (Step cap) .empty (es ++ .finish t :: es') q) :
    taken es = pushed es ∧ (∃ u, .close u ∈ es) ∧ ∀ u, visits u es = leaves u es := by
  obtain ⟨q₁, q₂, h₁, hs⟩ := h.at_event
  have hk := kept_of_run h₁
  cases hs with
  | finish _ hc hp hi =>
    exact ⟨by simpa [hp] using hk.order, hk.closed hc, fun u => by simpa [hi] using hk.inside u⟩

/-! ### The items on hand -/

section Stock
variable [Fintype T]

/-- What one event asks to push. -/
def asked (e : Option (Event T α)) : List α :=
  match e with
  | some (.ask _ v) => [v]
  | _ => []

/-- The items asked to be pushed or pending. -/
def stock (q : State T α) : Multiset α := ↑q.pending + ∑ t, ↑(q.asked t).toList

/-- **What comes in and what goes out.** -/
theorem stock_step {e : Option (Event T α)} (hs : Step cap q e q') :
    stock q' + ↑(taken e.toList) = stock q + ↑(asked e) := by
  have hask (t : T) (x : Option α) := total_update q.asked (fun x => (x.toList : Multiset α)) t x
  cases hs with
  | ask t v ht =>
    have hsum := hask t (some v)
    rw [ht, Option.toList_none, Multiset.coe_nil, add_zero] at hsum
    show ↑q.pending + _ + (0 : Multiset α) = ↑q.pending + _ + ↑[v]
    rw [hsum, add_zero, add_assoc]
    rfl
  | push t v ht _ =>
    have hsum := hask t none
    rw [ht, Option.toList_none, Multiset.coe_nil, add_zero] at hsum
    show ↑(q.pending ++ [v]) + _ + (0 : Multiset α) = ↑q.pending + _ + 0
    rw [← hsum, ← Multiset.coe_add, add_zero, add_zero, add_assoc, add_comm (↑[v] : Multiset α)]
    rfl
  | pop t v rest _ hp =>
    have hp' : (q.pending : Multiset α) = ↑[v] + ↑rest := by rw [hp, Multiset.coe_add]; rfl
    show ↑rest + _ + (↑[v] : Multiset α) = ↑q.pending + _ + 0
    rw [hp']
    abel
  | enter | refuse | turnAway | close | finish => simp [stock, taken, asked]

/-- An abstract step, or none. -/
theorem stock_matches {e : Option (Event T α)} (h : Matches (Step cap) q e q') :
    stock q' + ↑(taken e.toList) = stock q + ↑(asked e) := by
  rcases h with ⟨rfl, rfl⟩ | hs
  · rfl
  · exact stock_step hs

end Stock

/-- Only a push makes the queue longer. -/
theorem pending_matches {e : Option (Event T α)} (h : Matches (Step cap) q e q') (hp : q.pending = [])
    (he : pushed e.toList = []) : q'.pending = [] := by
  rcases h with ⟨-, rfl⟩ | hs
  · exact hp
  · cases hs with
    | push t v _ _ => exact absurd he (List.cons_ne_nil v [])
    | pop t v rest _ hpop => rw [hp] at hpop; cases hpop
    | ask | enter | refuse | turnAway | close | finish => exact hp

end CompSys.Lib.ClosableQueue
