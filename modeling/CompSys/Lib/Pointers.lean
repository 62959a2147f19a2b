import Mathlib.Tactic

/-! # Arrays of pointers

A table is an array of `slots` pointers, each to a cell of its own, of which the first `count` are in use.
It is resized like `realloc` does it: what fits of the pointers is kept (`resize`). An entry is appended
by pointing slot `count` to a new cell (`place`) and then copying a value there and counting it (`fill`).
`t.Holds l` says that the entries of `t` are `l`; the three operations keep and extend it under the
conditions of `Holds.resize`, `Holds.place` and `Holds.fill`. -/

namespace CompSys.Lib.Pointers

structure Table (α : Type*) where
  slots : ℕ
  /-- The pointers, as numbers of cells; `none` is an uninitialised one. -/
  slot : ℕ → Option ℕ
  cell : ℕ → Option α
  /-- The next cell to be allocated. -/
  fresh : ℕ
  count : ℕ

variable {α : Type*}

/-- The array is made `m` slots long. -/
def Table.resize (t : Table α) (m : ℕ) : Table α :=
  { t with slots := m, slot := fun i => if i < min t.slots m then t.slot i else none }

/-- Slot `count` points to a new cell. -/
def Table.place (t : Table α) : Table α :=
  { t with slot := Function.update t.slot t.count (some t.fresh)
           cell := Function.update t.cell t.fresh none
           fresh := t.fresh + 1 }

/-- The value goes to the cell of slot `count`, if the slot points to one, and is counted. -/
def Table.fill (t : Table α) (a : α) : Table α :=
  { t with cell := (match t.slot t.count with
             | some c => Function.update t.cell c (some a)
             | none => t.cell)
           count := t.count + 1 }

/-- What is found through slot `i`. -/
def Table.entry (t : Table α) (i : ℕ) : Option α :=
  if i < t.slots then (t.slot i).bind t.cell else none

/-- The entries in use are `l`. -/
structure Table.Holds (t : Table α) (l : List α) : Prop where
  count : t.count = l.length
  entry : ∀ i < l.length, t.entry i = l[i]?

/-- Slots of the array point to different cells, all allocated. -/
structure Table.Valid (t : Table α) : Prop where
  allocated : ∀ i c, t.slot i = some c → c < t.fresh
  apart : ∀ i j c, t.slot i = some c → t.slot j = some c → i = j
  inside : ∀ i c, t.slot i = some c → i < t.slots

/-- A table with entries `l` and some slots more. -/
def ofList (l : List α) (spare : ℕ) : Table α where
  slots := l.length + spare
  slot := fun i => if i < l.length then some i else none
  cell := fun i => l[i]?
  fresh := l.length
  count := l.length

variable {t : Table α} {l : List α} {m : ℕ} {a : α}

theorem valid_ofList (l : List α) (spare : ℕ) : (ofList l spare).Valid := by
  have hslot : ∀ i c, (ofList l spare).slot i = some c → i = c ∧ i < l.length := by
    intro i c h
    unfold ofList at h
    simp only at h
    split_ifs at h with hi
    exact ⟨Option.some.inj h, hi⟩
  refine ⟨fun i c h => ?_, fun i j c hi hj => ?_, fun i c h => ?_⟩
  · obtain ⟨rfl, hi⟩ := hslot i c h
    exact hi
  · exact (hslot i c hi).1.trans (hslot j c hj).1.symm
  · have := (hslot i c h).2
    show i < l.length + spare
    omega

theorem holds_ofList (l : List α) (spare : ℕ) : (ofList l spare).Holds l := by
  refine ⟨rfl, fun i hi => ?_⟩
  unfold Table.entry ofList
  simp only
  rw [if_pos (by omega), if_pos hi]
  rfl

/-! ### Resizing -/

theorem Table.Valid.resize (h : t.Valid) (m : ℕ) : (t.resize m).Valid := by
  have hslot : ∀ i c, (t.resize m).slot i = some c → i < m ∧ t.slot i = some c := by
    intro i c hi
    simp only [Table.resize] at hi
    split_ifs at hi with hlt
    exact ⟨by omega, hi⟩
  exact ⟨fun i c hi => h.allocated i c (hslot i c hi).2,
    fun i j c hi hj => h.apart i j c (hslot i c hi).2 (hslot j c hj).2, fun i c hi => (hslot i c hi).1⟩

/-- **The entries survive** if there is room for them. -/
theorem Table.Holds.resize (h : t.Holds l) (hm : l.length ≤ m) : (t.resize m).Holds l := by
  refine ⟨h.count, fun i hi => ?_⟩
  have hentry := h.entry i hi
  rw [List.getElem?_eq_getElem hi] at hentry ⊢
  unfold Table.entry at hentry
  split_ifs at hentry with hs
  show (if i < m then (if i < min t.slots m then t.slot i else none).bind t.cell else none) = _
  rw [if_pos (by omega), if_pos (by omega)]
  exact hentry

/-- Entries that there is no room for are lost. -/
theorem not_holds_resize {l' : List α} (hm : m < t.count) : ¬ (t.resize m).Holds l' := by
  intro h
  have hlen : t.count = l'.length := h.count
  have hentry := h.entry m (by omega)
  have hnone : (t.resize m).entry m = none := if_neg (lt_irrefl m)
  rw [List.getElem?_eq_getElem (by omega), hnone] at hentry
  cases hentry

/-! ### Appending -/

theorem Table.Valid.place (h : t.Valid) (hc : t.count < t.slots) : t.place.Valid := by
  have hslot : ∀ i c, t.place.slot i = some c →
      (i = t.count ∧ c = t.fresh) ∨ (i ≠ t.count ∧ t.slot i = some c) := by
    intro i c hi
    by_cases hn : i = t.count
    · subst hn
      simp only [Table.place, Function.update_self, Option.some.injEq] at hi
      exact Or.inl ⟨rfl, hi.symm⟩
    · simp only [Table.place, Function.update_of_ne hn] at hi
      exact Or.inr ⟨hn, hi⟩
  refine ⟨fun i c hi => ?_, fun i j c hi hj => ?_, fun i c hi => ?_⟩
  · rcases hslot i c hi with ⟨-, rfl⟩ | ⟨-, hi⟩
    · exact Nat.lt_succ_self _
    · exact Nat.lt_succ_of_lt (h.allocated i c hi)
  · rcases hslot i c hi with ⟨rfl, rfl⟩ | ⟨-, hi'⟩ <;> rcases hslot j _ hj with ⟨rfl, hc'⟩ | ⟨-, hj'⟩
    · rfl
    · exact absurd (h.allocated j _ hj') (lt_irrefl _)
    · exact absurd (h.allocated i c hi') (by omega)
    · exact h.apart i j c hi' hj'
  · rcases hslot i c hi with ⟨rfl, -⟩ | ⟨-, hi⟩
    · exact hc
    · exact h.inside i c hi

theorem Table.Holds.place (h : t.Holds l) (ht : t.Valid) : t.place.Holds l := by
  refine ⟨h.count, fun i hi => ?_⟩
  have hne : i ≠ t.count := by
    rw [h.count]
    omega
  rw [← h.entry i hi]
  simp only [Table.entry, Table.place, Function.update_of_ne hne]
  cases hc : t.slot i with
  | none => rfl
  | some c =>
    have hfresh : c ≠ t.fresh := (ht.allocated i c hc).ne
    simp only [Option.bind_some, Function.update_of_ne hfresh]

theorem Table.Valid.fill (h : t.Valid) (a : α) : (t.fill a).Valid :=
  ⟨h.allocated, h.apart, h.inside⟩

/-- **A value is appended** where slot `count` points to a cell. -/
theorem Table.Holds.fill (h : t.Holds l) (ht : t.Valid) {c : ℕ} (hc : t.slot t.count = some c) (a : α) :
    (t.fill a).Holds (l ++ [a]) := by
  refine ⟨by rw [List.length_append, List.length_singleton, ← h.count]; rfl, fun i hi => ?_⟩
  rw [List.length_append, List.length_singleton] at hi
  by_cases hl : i < l.length
  · rw [List.getElem?_append_left hl, ← h.entry i hl]
    simp only [Table.entry, Table.fill, hc]
    cases hi' : t.slot i with
    | none => rfl
    | some c' =>
      have hne : c' ≠ c := by
        rintro rfl
        have := ht.apart i t.count c' hi' hc
        rw [h.count] at this
        omega
      simp only [Option.bind_some, Function.update_of_ne hne]
  · obtain rfl : i = l.length := by omega
    rw [List.getElem?_concat_length, ← h.count]
    simp only [Table.entry, Table.fill, hc, if_pos (ht.inside _ _ hc), Option.bind_some,
      Function.update_self]

/-- Without a cell the value is lost. -/
theorem not_holds_fill {l' : List α} (hc : t.slot t.count = none) : ¬ (t.fill a).Holds l' := by
  intro h
  have hlen : t.count + 1 = l'.length := h.count
  have hentry := h.entry t.count (by omega)
  rw [List.getElem?_eq_getElem (by omega)] at hentry
  simp only [Table.entry, Table.fill, hc, Option.bind_none, ite_self] at hentry
  cases hentry

end CompSys.Lib.Pointers
