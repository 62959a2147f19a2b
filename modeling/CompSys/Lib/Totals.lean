import Mathlib.Tactic

/-! # Sums over threads

A total over finitely many threads, when one of them moves. -/

namespace CompSys.Lib.Totals

variable {T σ M : Type*} [Fintype T] [DecidableEq T] [AddCommMonoid M]

/-- **One thread moves**: the total changes by what it had and has. -/
theorem total_update (f : T → σ) (g : σ → M) (t : T) (x : σ) :
    ∑ i, g (Function.update f t x i) + g (f t) = ∑ i, g (f i) + g x := by
  have hrest : ∑ i ∈ Finset.univ.erase t, g (Function.update f t x i) =
      ∑ i ∈ Finset.univ.erase t, g (f i) :=
    Finset.sum_congr rfl fun i hi => by rw [Function.update_of_ne (Finset.ne_of_mem_erase hi)]
  rw [← Finset.add_sum_erase _ _ (Finset.mem_univ t), hrest, Function.update_self,
    ← Finset.add_sum_erase Finset.univ (fun i => g (f i)) (Finset.mem_univ t)]
  abel

/-- A total that a move does not change. -/
theorem total_update_eq {f : T → σ} {g : σ → M} {t : T} {x : σ} (h : g x = g (f t)) :
    ∑ i, g (Function.update f t x i) = ∑ i, g (f i) :=
  Finset.sum_congr rfl fun i _ => by
    by_cases hi : i = t
    · rw [hi, Function.update_self, h]
    · rw [Function.update_of_ne hi]

/-- An account of what the threads have and what is elsewhere, after a move. -/
theorem total_moves [IsCancelAdd M] {f : T → σ} {g : σ → M} {t : T} {x : σ} {m m' a b : M}
    (h : m = ∑ i, g (f i) + a) (hx : m' + a + g (f t) = m + b + g x) :
    m' = ∑ i, g (Function.update f t x i) + b := by
  refine add_right_cancel (b := a + g (f t)) ?_
  calc m' + (a + g (f t)) = m + b + g x := by rw [← add_assoc, hx]
    _ = (∑ i, g (f i) + g x) + (a + b) := by rw [h]; abel
    _ = (∑ i, g (Function.update f t x i) + g (f t)) + (a + b) := by rw [total_update]
    _ = ∑ i, g (Function.update f t x i) + b + (a + g (f t)) := by abel

end CompSys.Lib.Totals
