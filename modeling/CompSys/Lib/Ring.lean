import Mathlib.Tactic

/-! # Ring buffers

An array of `cap` slots, a position `first` and a number `count` of used slots, as C code has them:
`contents` reads the used slots from `first` on, around the end of the array. Writing behind the last
used slot appends (`contents_write`), and dropping the first slot removes the head
(`contents_eq_cons`). -/

namespace CompSys.Lib.Ring

variable {α : Type*}

/-- The used slots in order. -/
def contents (data : ℤ → α) (cap first count : ℤ) : List α :=
  (List.range count.toNat).map fun i : ℕ => data ((first + i) % cap)

/-- The position after `p`. -/
def next (cap p : ℤ) : ℤ := if p + 1 ≥ cap then 0 else p + 1

variable {cap first count : ℤ}

theorem next_eq {p : ℤ} (h0 : 0 ≤ p) (h1 : p < cap) : next cap p = (p + 1) % cap := by
  unfold next
  split_ifs with h
  · rw [show p + 1 = cap by omega, Int.emod_self]
  · rw [Int.emod_eq_of_lt (by omega) (by omega)]

theorem next_nonneg {p : ℤ} (h0 : 0 ≤ p) : 0 ≤ next cap p := by
  unfold next; split_ifs <;> omega

theorem next_lt {p : ℤ} (h0 : 0 < cap) : next cap p < cap := by
  unfold next; split_ifs <;> omega

@[simp] theorem contents_zero (data : ℤ → α) (cap first : ℤ) : contents data cap first 0 = [] := rfl

/-- Two used slots have different positions. -/
theorem slot_ne {i : ℤ} (h0 : 0 ≤ i) (hi : i < count) (hc : count < cap) :
    (first + i) % cap ≠ (first + count) % cap := by
  intro h
  have hd : cap ∣ count - i := by
    have hz : (first + count - (first + i)) % cap = 0 := Int.emod_eq_emod_iff_emod_sub_eq_zero.mp h.symm
    rw [show first + count - (first + i) = count - i by ring] at hz
    exact Int.dvd_of_emod_eq_zero hz
  have := Int.le_of_dvd (by omega) hd
  omega

/-- **Writing behind the last used slot** appends. -/
theorem contents_write (data : ℤ → α) (v : α) (h0 : 0 ≤ count) (hc : count < cap) :
    contents (Function.update data ((first + count) % cap) v) cap first (count + 1) =
      contents data cap first count ++ [v] := by
  unfold contents
  rw [show (count + 1).toNat = count.toNat + 1 by omega, List.range_succ, List.map_append]
  congr 1
  · refine List.map_congr_left fun i hi => ?_
    have hi' : (i : ℤ) < count := by have := List.mem_range.mp hi; omega
    exact Function.update_of_ne (slot_ne (by omega) hi' hc) _ _
  · rw [List.map_singleton, Int.toNat_of_nonneg h0, Function.update_self]

/-- The slot behind the last used one may be written before it is counted. -/
theorem contents_update (data : ℤ → α) (v : α) (hc : count < cap) :
    contents (Function.update data ((first + count) % cap) v) cap first count = contents data cap first count := by
  refine List.map_congr_left fun i hi => ?_
  have hi' : (i : ℤ) < count := by have := List.mem_range.mp hi; omega
  exact Function.update_of_ne (slot_ne (by omega) hi' hc) _ _

/-- **Dropping the first slot** removes the head. -/
theorem contents_eq_cons (data : ℤ → α) (h0 : 0 ≤ first) (h1 : first < cap) (hc : 0 < count) :
    contents data cap first count = data first :: contents data cap (next cap first) (count - 1) := by
  obtain ⟨k, hk⟩ : ∃ k : ℕ, count = k + 1 := ⟨(count - 1).toNat, by omega⟩
  unfold contents
  rw [hk, show ((k : ℤ) + 1).toNat = k + 1 by omega, show ((k : ℤ) + 1 - 1).toNat = k by omega,
    List.range_succ_eq_map, List.map_cons, List.map_map, next_eq h0 h1]
  congr 1
  · rw [Nat.cast_zero, add_zero, Int.emod_eq_of_lt h0 h1]
  · refine List.map_congr_left fun i _ => ?_
    show data ((first + (i + 1 : ℕ)) % cap) = data (((first + 1) % cap + i) % cap)
    rw [Int.emod_add_emod, show first + ((i + 1 : ℕ) : ℤ) = first + 1 + i by push_cast; ring]

end CompSys.Lib.Ring
