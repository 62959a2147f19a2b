import Mathlib.Tactic

/-! # Fuel

A loop that need not end is a function of the number of rounds it may take, `f : ℕ → Option α`. It yields
`a` if all large numbers give `a` and no number gives anything else (`Yields`), and hangs if none gives a
value (`Hangs`). Both are decided one round at a time (`Yields.next`, `Hangs.next`), and a set of states that
no round leaves hangs (`hangs_of_closed`). -/

namespace CompSys.Lib.Fuel

variable {α β σ : Type*} {f : ℕ → Option α}

/-- With enough fuel, `f` gives `a`. -/
structure Yields (f : ℕ → Option α) (a : α) : Prop where
  only : ∀ fuel, f fuel = none ∨ f fuel = some a
  enough : ∃ enough, ∀ fuel ≥ enough, f fuel = some a

/-- No fuel is enough. -/
def Hangs (f : ℕ → Option α) : Prop := ∀ fuel, f fuel = none

theorem Yields.unique {a b : α} (ha : Yields f a) (hb : Yields f b) : a = b := by
  obtain ⟨n, hn⟩ := ha.enough
  rcases hb.only n with h | h
  · rw [hn n le_rfl] at h
    exact nomatch h
  · rw [hn n le_rfl] at h
    exact Option.some.inj h

theorem Hangs.not_yields {a : α} (h : Hangs f) : ¬ Yields f a := by
  intro ha
  obtain ⟨n, hn⟩ := ha.enough
  have hsome := hn n le_rfl
  rw [h n] at hsome
  exact nomatch hsome

theorem yields_some (a : α) : Yields (fun _ => some a) a := ⟨fun _ => Or.inr rfl, 0, fun _ _ => rfl⟩

/-- A result that more fuel does not change. -/
theorem yields_of_mono (hmono : ∀ fuel a, f fuel = some a → f (fuel + 1) = some a) {n : ℕ} {a : α} (h : f n = some a) :
    Yields f a := by
  have hmore : ∀ m, f (n + m) = some a := by
    intro m
    induction m with
    | zero => exact h
    | succ m ih => exact hmono _ _ ih
  refine ⟨fun fuel => ?_, n, fun fuel hfuel => ?_⟩
  · rcases Nat.le_total n fuel with hle | hle
    · exact Or.inr (by rw [← Nat.add_sub_cancel' hle]; exact hmore _)
    · -- with less fuel there is no other result, since it would be one with `n` as well
      cases hf : f fuel with
      | none => exact Or.inl rfl
      | some b =>
        have hb : f (fuel + (n - fuel)) = some b := by
          generalize n - fuel = m
          induction m with
          | zero => exact hf
          | succ m ih => exact hmono _ _ ih
        rw [Nat.add_sub_cancel' hle, h] at hb
        exact Or.inr hb.symm
  · rw [← Nat.add_sub_cancel' hfuel]
    exact hmore _

/-- A loop that goes on with `g`. -/
theorem Yields.next {g : ℕ → Option α} {a : α} (h0 : f 0 = none) (h : ∀ fuel, f (fuel + 1) = g fuel)
    (hg : Yields g a) : Yields f a := by
  constructor
  · rintro (_ | fuel)
    · exact Or.inl h0
    · rw [h fuel]
      exact hg.only fuel
  · obtain ⟨n, hn⟩ := hg.enough
    refine ⟨n + 1, fun fuel hfuel => ?_⟩
    obtain ⟨k, rfl⟩ := Nat.exists_eq_add_of_le' (show 1 ≤ fuel by omega)
    rw [h k]
    exact hn k (by omega)

/-- One round gives what the rest of the rounds give. -/
theorem yields_next_iff {g : ℕ → Option α} {a : α} (h0 : f 0 = none) (h : ∀ fuel, f (fuel + 1) = g fuel) :
    Yields f a ↔ Yields g a := by
  refine ⟨fun hf => ⟨fun fuel => ?_, ?_⟩, .next h0 h⟩
  · rw [← h fuel]
    exact hf.only (fuel + 1)
  · obtain ⟨n, hn⟩ := hf.enough
    exact ⟨n, fun fuel hfuel => by rw [← h fuel, hn _ (by omega)]⟩

/-- A loop that ends in its first round. -/
theorem Yields.now {a : α} (h0 : f 0 = none) (h : ∀ fuel, f (fuel + 1) = some a) : Yields f a :=
  (yields_some a).next h0 h

theorem Hangs.next {g : ℕ → Option α} (h0 : f 0 = none) (h : ∀ fuel, f (fuel + 1) = g fuel) (hg : Hangs g) :
    Hangs f := by
  rintro (_ | fuel)
  · exact h0
  · exact (h fuel).trans (hg fuel)

/-- **One computation after another.** -/
theorem Yields.bind {g : α → ℕ → Option β} {a : α} {b : β} (hf : Yields f a) (hg : Yields (g a) b) :
    Yields (fun fuel => (f fuel).bind fun x => g x fuel) b := by
  constructor
  · intro fuel
    rcases hf.only fuel with h | h
    · exact Or.inl (by simp only [h, Option.bind_none])
    · simp only [h, Option.bind_some]
      exact hg.only fuel
  · obtain ⟨m, hm⟩ := hf.enough
    obtain ⟨n, hn⟩ := hg.enough
    refine ⟨max m n, fun fuel hfuel => ?_⟩
    simp only [hm fuel (le_trans (le_max_left m n) hfuel), Option.bind_some]
    exact hn fuel (le_trans (le_max_right m n) hfuel)

theorem Yields.map {a : α} (hf : Yields f a) (g : α → β) : Yields (fun fuel => (f fuel).map g) (g a) := by
  constructor
  · exact fun fuel => (hf.only fuel).imp (fun h => by rw [h, Option.map_none]) fun h => by rw [h, Option.map_some]
  · obtain ⟨n, hn⟩ := hf.enough
    exact ⟨n, fun fuel hfuel => by rw [hn fuel hfuel, Option.map_some]⟩

/-- The first of two computations hangs. -/
theorem Hangs.bind {g : α → ℕ → Option β} (hf : Hangs f) : Hangs fun fuel => (f fuel).bind fun x => g x fuel := by
  intro fuel
  simp only [hf fuel, Option.bind_none]

/-- The second of two computations hangs. -/
theorem Yields.bind_hangs {g : α → ℕ → Option β} {a : α} (hf : Yields f a) (hg : Hangs (g a)) :
    Hangs fun fuel => (f fuel).bind fun x => g x fuel := by
  intro fuel
  rcases hf.only fuel with h | h
  · simp only [h, Option.bind_none]
  · simp only [h, Option.bind_some, hg fuel]

/-- **States that no round leaves.** -/
theorem hangs_of_closed {run : σ → ℕ → Option α} {T : σ → Prop} (h0 : ∀ s, T s → run s 0 = none)
    (hnext : ∀ s, T s → ∃ t, T t ∧ ∀ fuel, run s (fuel + 1) = run t fuel) {s : σ} (hs : T s) : Hangs (run s) := by
  intro fuel
  induction fuel generalizing s with
  | zero => exact h0 s hs
  | succ fuel ih =>
    obtain ⟨t, ht, hrun⟩ := hnext s hs
    rw [hrun fuel]
    exact ih ht

end CompSys.Lib.Fuel
