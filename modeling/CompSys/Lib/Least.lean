import Mathlib.Tactic

/-! # The first of the least

A comparison `lt` that is only known to order some of its arguments, as comparisons of floating-point numbers are.
`FirstLeast lt ds i d`: at place `i` of `ds` stands `d`, nothing in `ds` is below it, and it is below everything in
front of it. A scan that keeps the best so far keeps this (`FirstLeast.next`). -/

namespace CompSys.Lib.Least

variable {β : Type*} {lt : β → β → Bool} {ds : List β} {i : ℕ} {d e : β}

/-- `lt` is a strict weak order on `s`. -/
structure Orders (lt : β → β → Bool) (s : List β) : Prop where
  irrefl : ∀ a ∈ s, lt a a = false
  trans : ∀ a ∈ s, ∀ b ∈ s, ∀ c ∈ s, lt a b = true → lt b c = true → lt a c = true
  split : ∀ a ∈ s, ∀ b ∈ s, ∀ c ∈ s, lt a c = true → lt a b = true ∨ lt b c = true

structure FirstLeast (lt : β → β → Bool) (ds : List β) (i : ℕ) (d : β) : Prop where
  place : ds[i]? = some d
  least : ∀ a ∈ ds, lt a d = false
  first : ∀ j < i, ∀ a, ds[j]? = some a → lt d a = true

theorem firstLeast_singleton (h : lt d d = false) : FirstLeast lt [d] 0 d :=
  ⟨rfl, fun a ha => by rw [List.mem_singleton.mp ha]; exact h, fun _ hj => absurd hj (Nat.not_lt_zero _)⟩

/-- **One more element**: it is the new one if it is below the best so far. -/
theorem FirstLeast.next (h : FirstLeast lt ds i d) (horders : Orders lt (ds ++ [e])) :
    FirstLeast lt (ds ++ [e]) (if lt e d then ds.length else i) (if lt e d then e else d) := by
  have hd : d ∈ ds ++ [e] := List.mem_append_left _ (List.mem_of_getElem? h.place)
  have he : e ∈ ds ++ [e] := List.mem_append_right _ (List.mem_singleton_self e)
  by_cases hlt : lt e d = true
  · rw [if_pos hlt, if_pos hlt]
    refine ⟨List.getElem?_concat_length, fun a ha => ?_, fun j hj a ha => ?_⟩
    · rcases List.mem_append.mp ha with hold | hnew
      · rw [Bool.eq_false_iff]
        intro hae
        exact absurd (horders.trans a ha e he d hd hae hlt) (by rw [h.least a hold]; exact Bool.false_ne_true)
      · rw [List.mem_singleton.mp hnew]
        exact horders.irrefl e he
    · rw [List.getElem?_append_left hj] at ha
      have hmem := List.mem_of_getElem? ha
      rcases horders.split e he a (List.mem_append_left _ hmem) d hd hlt with hea | had
      · exact hea
      · exact absurd had (by rw [h.least a hmem]; exact Bool.false_ne_true)
  · rw [if_neg hlt, if_neg hlt]
    have hi : i < ds.length := (List.getElem?_eq_some_iff.mp h.place).1
    refine ⟨by rw [List.getElem?_append_left hi, h.place], fun a ha => ?_, fun j hj a ha => ?_⟩
    · rcases List.mem_append.mp ha with hold | hnew
      · exact h.least a hold
      · rw [List.mem_singleton.mp hnew]
        exact Bool.eq_false_iff.mpr hlt
    · rw [List.getElem?_append_left (hj.trans hi)] at ha
      exact h.first j hj a ha

theorem Orders.mono {s s' : List β} (h : Orders lt s) (hsub : ∀ a ∈ s', a ∈ s) : Orders lt s' :=
  ⟨fun a ha => h.irrefl a (hsub a ha),
    fun a ha b hb c hc => h.trans a (hsub a ha) b (hsub b hb) c (hsub c hc),
    fun a ha b hb c hc => h.split a (hsub a ha) b (hsub b hb) c (hsub c hc)⟩

end CompSys.Lib.Least
