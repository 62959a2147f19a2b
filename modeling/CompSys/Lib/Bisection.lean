import Mathlib.Tactic

/-! # Halving an interval of a sorted sequence

Two bounds enclose a key if all its occurrences lie between them. The whole sequence encloses every key
(`Encloses.start`); a smaller element moves the left bound past it (`Encloses.above`), a larger one the right
bound before it (`Encloses.below`); bounds that have crossed enclose nothing (`Encloses.notMem`). -/

namespace CompSys.Lib.Bisection

variable {α : Type*} {keys : List α} {needle k : α} {left right : ℤ} {m : ℕ}

/-- **The occurrences of the needle lie in `[left, right]`**, and the bounds in the sequence. -/
structure Encloses (keys : List α) (needle : α) (left right : ℤ) : Prop where
  left_nonneg : 0 ≤ left
  right_lt : right < keys.length
  between : ∀ i : ℕ, keys[i]? = some needle → left ≤ i ∧ i ≤ right

theorem Encloses.start : Encloses keys needle 0 (keys.length - 1) := by
  refine ⟨le_rfl, by omega, fun i hi => ?_⟩
  have hlt := (List.getElem?_eq_some_iff.mp hi).1
  omega

theorem Encloses.notMem (h : Encloses keys needle left right) (hcrossed : right < left) : needle ∉ keys := by
  intro hmem
  obtain ⟨i, hi⟩ := List.mem_iff_getElem?.mp hmem
  obtain ⟨hleft, hright⟩ := h.between i hi
  omega

variable [LinearOrder α]

/-- Elements of a sorted sequence stand in order. -/
theorem le_of_sorted {i j : ℕ} {a b : α} (hsorted : keys.Pairwise (· ≤ ·)) (hij : i ≤ j)
    (hi : keys[i]? = some a) (hj : keys[j]? = some b) : a ≤ b := by
  obtain ⟨hilt, rfl⟩ := List.getElem?_eq_some_iff.mp hi
  obtain ⟨hjlt, rfl⟩ := List.getElem?_eq_some_iff.mp hj
  rcases Nat.lt_or_ge i j with hlt | hge
  · exact List.pairwise_iff_getElem.mp hsorted i j hilt hjlt hlt
  · obtain rfl : i = j := le_antisymm hij hge
    exact le_rfl

theorem Encloses.above (h : Encloses keys needle left right) (hsorted : keys.Pairwise (· ≤ ·))
    (hm : keys[m]? = some k) (hk : k < needle) : Encloses keys needle (m + 1) right := by
  refine ⟨by omega, h.right_lt, fun i hi => ⟨?_, (h.between i hi).2⟩⟩
  by_contra hle
  exact absurd (le_of_sorted hsorted (show i ≤ m by omega) hi hm) (not_le.mpr hk)

theorem Encloses.below (h : Encloses keys needle left right) (hsorted : keys.Pairwise (· ≤ ·))
    (hm : keys[m]? = some k) (hk : needle < k) : Encloses keys needle left (m - 1) := by
  have hlt := (List.getElem?_eq_some_iff.mp hm).1
  refine ⟨h.left_nonneg, by omega, fun i hi => ⟨(h.between i hi).1, ?_⟩⟩
  by_contra hle
  exact absurd (le_of_sorted hsorted (show m ≤ i by omega) hm hi) (not_le.mpr hk)

end CompSys.Lib.Bisection
