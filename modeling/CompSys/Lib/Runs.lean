import Mathlib.Tactic

/-! # Runs of a step relation

`Steps R s n t`: the relation `R` leads from `s` to `t` in `n` steps. An invariant of the single step
holds along a run (`Steps.invariant`), and a quantity every step moves in the same way is moved so by
the run as often (`Steps.iterate`). A relation whose steps make a number smaller leads to a state without
a step (`exists_final`), and one that always has a step that comes closer to a goal gets there
(`exists_reaches`).

`Run step s es t`: the labelled relation `step` leads from `s` to `t`, and `es` are the labels seen on
the way; a step labelled `none` is not seen. A map of states under which every step is a step of an
abstract system takes runs to runs (`Run.simulates`), and so does a relation that every step keeps with an
abstract one (`Run.forward`). -/

namespace CompSys.Lib.Runs

variable {σ : Type*}

/-- `n` steps of `R`. -/
inductive Steps (R : σ → σ → Prop) (s : σ) : ℕ → σ → Prop
  | refl : Steps R s 0 s
  | tail {n : ℕ} {t u : σ} : Steps R s n t → R t u → Steps R s (n + 1) u

/-- `t` is reached from `s` in some number of steps. -/
def Reaches (R : σ → σ → Prop) (s t : σ) : Prop := ∃ n, Steps R s n t

variable {R R' : σ → σ → Prop} {s t : σ} {n : ℕ}

theorem Steps.mono (h : ∀ s t, R s t → R' s t) (hs : Steps R s n t) : Steps R' s n t := by
  induction hs with
  | refl => exact .refl
  | tail _ hr ih => exact .tail ih (h _ _ hr)

/-- **An invariant of the step** is an invariant of the run. -/
theorem Steps.invariant {I : σ → Prop} (hstep : ∀ s t, I s → R s t → I t)
    (hs : Steps R s n t) (h0 : I s) : I t := by
  induction hs with
  | refl => exact h0
  | tail _ hr ih => exact hstep _ _ ih hr

theorem Reaches.invariant {I : σ → Prop} (hstep : ∀ s t, I s → R s t → I t)
    (hs : Reaches R s t) (h0 : I s) : I t :=
  hs.elim fun _ h => h.invariant hstep h0

/-- A quantity that every step moves by `g` is moved by `g` as often as there are steps. -/
theorem Steps.iterate {A : Type*} {f : σ → A} {g : A → A}
    (hstep : ∀ s t, R s t → f t = g (f s)) (hs : Steps R s n t) : f t = g^[n] (f s) := by
  induction hs with
  | refl => rfl
  | tail _ hr ih => rw [hstep _ _ hr, ih, Function.iterate_succ_apply']

/-- A run with one more step in front. -/
theorem Reaches.head {u : σ} (hr : R s t) (h : Reaches R t u) : Reaches R s u := by
  obtain ⟨k, hk⟩ := h
  refine ⟨k + 1, ?_⟩
  induction hk with
  | refl => exact .tail .refl hr
  | tail _ hu ih => exact .tail ih hu

/-- **A run gets there** if there is always a step that comes closer. -/
theorem exists_reaches {P Q : σ → Prop} (μ : σ → ℕ)
    (hstep : ∀ s, P s → Q s ∨ ∃ t, R s t ∧ P t ∧ μ t < μ s) (hs : P s) : ∃ t, Reaches R s t ∧ Q t := by
  induction hn : μ s using Nat.strong_induction_on generalizing s with
  | _ n ih =>
    rcases hstep s hs with hQ | ⟨u, hu, hP, hlt⟩
    · exact ⟨s, ⟨0, .refl⟩, hQ⟩
    · obtain ⟨t, ht, hQ⟩ := ih (μ u) (hn ▸ hlt) hP rfl
      exact ⟨t, .head hu ht, hQ⟩

/-- **A run comes to an end** if every step makes something smaller. -/
theorem exists_final {μ : σ → ℕ} (hstep : ∀ s t, R s t → μ t < μ s) (s : σ) :
    ∃ t, Reaches R s t ∧ ∀ u, ¬ R t u := by
  refine exists_reaches μ (fun s (_ : True) => ?_) trivial
  by_cases hend : ∃ u, R s u
  · obtain ⟨u, hu⟩ := hend
    exact Or.inr ⟨u, hu, trivial, hstep s u hu⟩
  · exact Or.inl fun u hu => hend ⟨u, hu⟩

/-! ### Labelled steps -/

variable {τ ε : Type*}

/-- A run and the labels of its steps, oldest first. -/
inductive Run (step : σ → Option ε → σ → Prop) (s : σ) : List ε → σ → Prop
  | nil : Run step s [] s
  | silent {es : List ε} {t u : σ} : Run step s es t → step t none u → Run step s es u
  | seen {es : List ε} {e : ε} {t u : σ} :
    Run step s es t → step t (some e) u → Run step s (es ++ [e]) u

/-- **An invariant of states and of what was seen** on the way to them. -/
theorem Run.history {step : σ → Option ε → σ → Prop} {es : List ε} {I : List ε → σ → Prop}
    (h : Run step s es t) (h0 : I [] s)
    (hstep : ∀ es t e u, I es t → step t e u → I (es ++ e.toList) u) : I es t := by
  induction h with
  | nil => exact h0
  | silent _ hs ih => simpa using hstep _ _ _ _ ih hs
  | seen _ hs ih => exact hstep _ _ _ _ ih hs

/-- The step at which an event of a run was seen. -/
theorem Run.at_event {step : σ → Option ε → σ → Prop} {es es' : List ε} {e : ε}
    (h : Run step s (es ++ e :: es') t) : ∃ u v, Run step s es u ∧ step u (some e) v := by
  obtain ⟨l, hl⟩ : ∃ l, l = es ++ e :: es' := ⟨_, rfl⟩
  rw [← hl] at h
  induction h generalizing es' with
  | nil => simp at hl
  | silent _ _ ih => exact ih hl
  | @seen fs f u v hr hs ih =>
    -- the last event is `e` itself, or `e` is in front of it
    rcases List.eq_nil_or_concat es' with rfl | ⟨es₁, f', rfl⟩
    · obtain ⟨rfl, hf⟩ := List.append_inj' hl rfl
      obtain rfl : f = e := List.singleton_inj.mp hf
      exact ⟨u, v, hr, hs⟩
    · have hl' : fs ++ [f] = (es ++ e :: es₁) ++ [f'] := by simpa using hl
      exact ih (List.append_inj' hl' rfl).1

/-- An abstract step for a concrete one: the same label, and no change where nothing is seen. -/
def Matches (astep : τ → Option ε → τ → Prop) (t : τ) (e : Option ε) (t' : τ) : Prop :=
  (e = none ∧ t' = t) ∨ astep t e t'

variable {step : σ → Option ε → σ → Prop} {astep : τ → Option ε → τ → Prop} {es : List ε}

/-- **Simulation**: under an invariant of the steps, `f` takes a run to an abstract run with the same
labels. -/
theorem Run.simulates {I : σ → Prop} {f : σ → τ}
    (hstep : ∀ s e s', I s → step s e s' → I s' ∧ Matches astep (f s) e (f s'))
    (h : Run step s es t) (h0 : I s) : I t ∧ Run astep (f s) es (f t) := by
  induction h with
  | nil => exact ⟨h0, .nil⟩
  | silent _ hs ih =>
    obtain ⟨hI, hr⟩ := ih
    obtain ⟨hI', hm⟩ := hstep _ _ _ hI hs
    rcases hm with ⟨-, he⟩ | hm
    · exact ⟨hI', by rw [he]; exact hr⟩
    · exact ⟨hI', .silent hr hm⟩
  | seen _ hs ih =>
    obtain ⟨hI, hr⟩ := ih
    obtain ⟨hI', hm⟩ := hstep _ _ _ hI hs
    rcases hm with ⟨he, -⟩ | hm
    · exact absurd he (by simp)
    · exact ⟨hI', .seen hr hm⟩

/-- **Forward simulation** by a relation: every step of a related state is matched by an abstract one. -/
theorem Run.forward {R : σ → τ → Prop}
    (hstep : ∀ s a e s', R s a → step s e s' → ∃ a', Matches astep a e a' ∧ R s' a')
    (h : Run step s es t) {a : τ} (h0 : R s a) : ∃ b, Run astep a es b ∧ R t b := by
  induction h with
  | nil => exact ⟨a, .nil, h0⟩
  | silent _ hs ih =>
    obtain ⟨b, hb, hR⟩ := ih
    obtain ⟨b', hm, hR'⟩ := hstep _ _ _ _ hR hs
    rcases hm with ⟨-, rfl⟩ | hm
    · exact ⟨b', hb, hR'⟩
    · exact ⟨b', .silent hb hm, hR'⟩
  | seen _ hs ih =>
    obtain ⟨b, hb, hR⟩ := ih
    obtain ⟨b', hm, hR'⟩ := hstep _ _ _ _ hR hs
    rcases hm with ⟨he, -⟩ | hm
    · cases he
    · exact ⟨b', .seen hb hm, hR'⟩

end CompSys.Lib.Runs
