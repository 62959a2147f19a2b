import Mathlib.Tactic
import Mathlib.Data.Multiset.Sort

/-! # A bag with ordered removal

A multiset to which members are added and from which the smallest are taken. `Removes k M l M'`: of
`M`, the `k` smallest members (all, if there are no more than `k`) are the list `l`, in order, and `M'`
is what remains. That determines `l` and `M'` (`Removes.unique`), and taking in pieces is taking at
once (`Removes.append`). -/

namespace CompSys.Lib.Bag

variable {α : Type*} [LinearOrder α]

/-- `l` are the `k` smallest members of `M`, in order; `M'` are the others. -/
structure Removes (k : ℕ) (M : Multiset α) (l : List α) (M' : Multiset α) : Prop where
  length : l.length = min k (Multiset.card M)
  sorted : l.Pairwise (· ≤ ·)
  split : (l : Multiset α) + M' = M
  smallest : ∀ x ∈ l, ∀ y ∈ M', x ≤ y

variable {k j : ℕ} {M M' M'' : Multiset α} {l l' : List α}

/-- From the sorted list of a bag, the first `k` are taken. -/
theorem removes_of_sorted (h : l.Pairwise (· ≤ ·)) (k : ℕ) :
    Removes k (l : Multiset α) (l.take k) (l.drop k) := by
  have happ := List.take_append_drop k l
  refine ⟨by simp, h.sublist (List.take_sublist k l), ?_, fun x hx y hy => ?_⟩
  · rw [Multiset.coe_add, happ]
  · rw [← happ] at h
    exact (List.pairwise_append.mp h).2.2 x hx y (by simpa using hy)

/-- What is taken, then the rest in order, is the bag in order. -/
theorem Removes.append_sort (h : Removes k M l M') :
    l ++ M'.sort (· ≤ ·) = M.sort (· ≤ ·) := by
  refine List.Perm.eq_of_pairwise' (r := (· ≤ ·)) ?_ (Multiset.pairwise_sort M (· ≤ ·)) ?_
  · refine List.pairwise_append.mpr ⟨h.sorted, Multiset.pairwise_sort M' (· ≤ ·), fun x hx y hy => ?_⟩
    exact h.smallest x hx y ((Multiset.mem_sort _).mp hy)
  · rw [← Multiset.coe_eq_coe, ← Multiset.coe_add, Multiset.sort_eq, Multiset.sort_eq, h.split]

/-- **The members taken and the rest are determined.** -/
theorem Removes.unique (h : Removes k M l M') (h' : Removes k M l' M'') : l = l' ∧ M' = M'' := by
  have hl : l = l' := by
    have happ := h.append_sort.trans h'.append_sort.symm
    exact (List.append_inj happ (h.length.trans h'.length.symm)).1
  refine ⟨hl, ?_⟩
  have hs := h.split.trans h'.split.symm
  rw [hl] at hs
  exact add_left_cancel hs

/-- **Taking in pieces** is taking at once. -/
theorem Removes.append (h : Removes k M l M') (h' : Removes j M' l' M'') :
    Removes (k + j) M (l ++ l') M'' := by
  have hM : Multiset.card M = l.length + Multiset.card M' := by rw [← h.split]; simp
  have hsub : ∀ y ∈ l', y ∈ M' := fun y hy => by rw [← h'.split]; simp [hy]
  have hsub' : ∀ y ∈ M'', y ∈ M' := fun y hy => by rw [← h'.split]; simp [hy]
  refine ⟨?_, ?_, ?_, ?_⟩
  · have h1 := h.length
    have h2 := h'.length
    rw [List.length_append]
    omega
  · exact List.pairwise_append.mpr ⟨h.sorted, h'.sorted, fun x hx y hy => h.smallest x hx y (hsub y hy)⟩
  · rw [← Multiset.coe_add, add_assoc, h'.split, h.split]
  · intro x hx y hy
    rcases List.mem_append.mp hx with hx | hx
    · exact h.smallest x hx y (hsub' y hy)
    · exact h'.smallest x hx y hy

/-- As many were asked for as were taken. -/
theorem Removes.exact (h : Removes k M l M') : Removes l.length M l M' := by
  refine ⟨?_, h.sorted, h.split, h.smallest⟩
  have := h.length
  omega

/-- When nothing can be taken although something is asked for, the bag is empty. -/
theorem Removes.eq_zero (h : Removes k M [] M') (hk : 0 < k) : M = 0 := by
  have h1 := h.length
  rw [List.length_nil] at h1
  exact Multiset.card_eq_zero.mp (by omega)

/-- Nothing is taken from an empty bag. -/
theorem removes_zero (k : ℕ) : Removes k (0 : Multiset α) [] 0 :=
  ⟨by simp, .nil, rfl, fun x hx => by simp at hx⟩

/-! ### The machine -/

/-- Add a member, or take the `k` smallest. -/
inductive Call (α : Type*)
  | add (x : α)
  | take (k : ℕ)

def Call.isAdd : Call α → Bool
  | add _ => true
  | take _ => false

/-- `Run M cs outs M'`: the calls `cs` lead from `M` to `M'`, and each `take` put out a list. -/
inductive Run : Multiset α → List (Call α) → List (List α) → Multiset α → Prop
  | nil (M : Multiset α) : Run M [] [] M
  | add {M M' : Multiset α} {x : α} {cs : List (Call α)} {outs : List (List α)} :
    Run (x ::ₘ M) cs outs M' → Run M (.add x :: cs) outs M'
  | take {M M' M'' : Multiset α} {k : ℕ} {l : List α} {cs : List (Call α)} {outs : List (List α)} :
    Removes k M l M' → Run M' cs outs M'' → Run M (.take k :: cs) (l :: outs) M''

/-- **The machine is deterministic.** -/
theorem Run.unique {cs : List (Call α)} {outs outs' : List (List α)} (h : Run M cs outs M')
    (h' : Run M cs outs' M'') : outs = outs' ∧ M' = M'' := by
  induction h generalizing outs' with
  | nil M => cases h'; exact ⟨rfl, rfl⟩
  | add _ ih => cases h' with | add h' => exact ih h'
  | take hr _ ih =>
    cases h' with
    | take hr' h' =>
      obtain ⟨rfl, rfl⟩ := hr.unique hr'
      obtain ⟨rfl, rfl⟩ := ih h'
      exact ⟨rfl, rfl⟩

/-- A bag has no more members than were added. -/
theorem Run.card_le_adds {cs : List (Call α)} {outs : List (List α)} (h : Run M cs outs M') :
    Multiset.card M' ≤ Multiset.card M + cs.countP Call.isAdd := by
  induction h with
  | nil M => exact Nat.le_add_right _ _
  | add _ ih =>
    rw [Multiset.card_cons] at ih
    rw [List.countP_cons_of_pos rfl]
    omega
  | take hr _ ih =>
    have hs := congrArg Multiset.card hr.split
    rw [Multiset.card_add] at hs
    rw [List.countP_cons_of_neg Bool.false_ne_true]
    omega

theorem Run.card_le {cs : List (Call α)} {outs : List (List α)} (h : Run M cs outs M') :
    Multiset.card M' ≤ Multiset.card M + cs.length :=
  h.card_le_adds.trans (Nat.add_le_add_left List.countP_le_length _)

theorem Run.append {cs cs' : List (Call α)} {outs outs' : List (List α)} (h : Run M cs outs M')
    (h' : Run M' cs' outs' M'') : Run M (cs ++ cs') (outs ++ outs') M'' := by
  induction h with
  | nil M => exact h'
  | add _ ih => exact .add (ih h')
  | take hr _ ih => exact .take hr (ih h')

end CompSys.Lib.Bag
