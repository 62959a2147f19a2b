import Mathlib.Tactic

/-! # Linked lists threaded through a memory

`next x` is the link stored at `x`. `Chain next null x l`: following the links from `x` gives exactly
the members of `l`, up to `null`. The list is determined by the links (`Chain.unique`), and so has no
member twice (`Chain.nodup`). -/

namespace CompSys.Lib.Links

variable {α : Type*} {next next' : α → α} {null x y : α} {l l' : List α}

/-- From `x` the links lead through `l` to `null`. -/
def Chain (next : α → α) (null : α) : α → List α → Prop
  | x, [] => x = null
  | x, y :: l => x = y ∧ x ≠ null ∧ Chain next null (next x) l

theorem chain_null (next : α → α) (null : α) : Chain next null null [] := rfl

theorem Chain.tail (h : Chain next null x (y :: l)) : Chain next null (next y) l := by
  obtain ⟨rfl, -, ht⟩ := h
  exact ht

theorem Chain.head (h : Chain next null x (y :: l)) : x = y := h.1

/-- Only the links of the members matter. -/
theorem Chain.congr (h : Chain next null x l) (hl : ∀ y ∈ l, next' y = next y) :
    Chain next' null x l := by
  induction l generalizing x with
  | nil => exact h
  | cons y l ih =>
    obtain ⟨rfl, hx, ht⟩ := h
    refine ⟨rfl, hx, ?_⟩
    rw [hl x List.mem_cons_self]
    exact ih ht fun z hz => hl z (List.mem_cons_of_mem _ hz)

/-- **A new first member** whose link is the old head. -/
theorem Chain.push (h : Chain next null x l) (hy : y ≠ null) (hyx : next' y = x)
    (hl : ∀ z ∈ l, next' z = next z) : Chain next' null y (y :: l) :=
  ⟨rfl, hy, by rw [hyx]; exact h.congr hl⟩

/-- **The links determine the list.** -/
theorem Chain.unique (h : Chain next null x l) (h' : Chain next null x l') : l = l' := by
  induction l generalizing x l' with
  | nil =>
    obtain rfl : x = null := h
    rcases l' with _ | ⟨y, l'⟩
    · rfl
    · exact absurd rfl h'.2.1
  | cons y l ih =>
    obtain ⟨rfl, hx, ht⟩ := h
    rcases l' with _ | ⟨z, l'⟩
    · exact absurd h' hx
    · obtain ⟨rfl, -, ht'⟩ := h'
      rw [ih ht ht']

theorem Chain.eq_nil_iff (h : Chain next null x l) : l = [] ↔ x = null := by
  constructor
  · rintro rfl
    exact h
  · rintro rfl
    exact h.unique (chain_null next x)

theorem Chain.drop (h : Chain next null x (l ++ y :: l')) : Chain next null y (y :: l') := by
  induction l generalizing x with
  | nil =>
    obtain rfl := h.head
    exact h
  | cons z l ih => exact ih h.tail

/-- **No member twice.** -/
theorem Chain.nodup (h : Chain next null x l) : l.Nodup := by
  induction l generalizing x with
  | nil => exact List.nodup_nil
  | cons y l ih =>
    refine List.nodup_cons.mpr ⟨fun hy => ?_, ih h.tail⟩
    obtain ⟨l1, l2, rfl⟩ := List.append_of_mem hy
    have hy1 : Chain next null y (y :: (l1 ++ y :: l2)) := by
      obtain rfl := h.head
      exact h
    have hlen := congrArg List.length (hy1.unique (h.tail.drop))
    simp only [List.length_cons, List.length_append] at hlen
    omega

end CompSys.Lib.Links
