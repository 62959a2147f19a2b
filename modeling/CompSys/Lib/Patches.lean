import Mathlib.Tactic

/-! # Pieces of a file

A piece is written into a file at an offset; a gap before it is filled. If all pieces are taken from one
content, then what is left of them does not depend on their order: the content where a piece covers it, and
what the file held elsewhere (`getD_patches`). `patches_eq_iff` says when that is the content. -/

namespace CompSys.Lib.Patches

variable {α : Type*} (zero : α)

/-- A piece is written at an offset; `zero` fills a gap. -/
def patch (file : List α) (offset : ℕ) (piece : List α) : List α :=
  if piece = [] then file
  else (file ++ List.replicate (offset - file.length) zero).take offset ++ piece ++ file.drop (offset + piece.length)

/-- Pieces one after another. -/
def patches (file : List α) (pieces : List (ℕ × List α)) : List α :=
  pieces.foldl (fun file piece => patch zero file piece.1 piece.2) file

/-- A piece lies over the place `p`. -/
def Covered (pieces : List (ℕ × List α)) (p : ℕ) : Prop :=
  ∃ piece ∈ pieces, piece.1 ≤ p ∧ p < piece.1 + piece.2.length

/-- All pieces are taken from the content. -/
def Agree (content : List α) (pieces : List (ℕ × List α)) : Prop :=
  ∀ piece ∈ pieces, ∀ j < piece.2.length, content[piece.1 + j]? = piece.2[j]?

variable {zero} {file content piece : List α} {pieces : List (ℕ × List α)} {offset p : ℕ}

/-! ### One piece -/

theorem length_gap : ((file ++ List.replicate (offset - file.length) zero).take offset).length = offset := by
  rw [List.length_take, List.length_append, List.length_replicate]
  omega

theorem lt_length_patch : p < (patch zero file offset piece).length ↔
    p < file.length ∨ piece ≠ [] ∧ p < offset + piece.length := by
  unfold patch
  split_ifs with h
  · simp only [h, ne_eq, not_true_eq_false, false_and, or_false]
  · rw [List.length_append, List.length_append, length_gap, List.length_drop]
    simp only [ne_eq, h, not_false_eq_true, true_and]
    omega

/-- **A place of a patched file.** -/
theorem getD_patch : (patch zero file offset piece).getD p zero =
    if offset ≤ p ∧ p < offset + piece.length then piece.getD (p - offset) zero else file.getD p zero := by
  unfold patch
  by_cases h : piece = []
  · subst h
    rw [if_pos rfl, List.length_nil, if_neg (by omega)]
  rw [if_neg h, List.append_assoc]
  simp only [List.getD_eq_getElem?_getD]
  rcases Nat.lt_or_ge p offset with hbefore | hbefore
  · -- in front of the piece: the file, or the gap behind it
    rw [if_neg (by omega), List.getElem?_append_left (by rwa [length_gap]), List.getElem?_take_of_lt hbefore]
    rcases Nat.lt_or_ge p file.length with hfile | hfile
    · rw [List.getElem?_append_left hfile]
    · rw [List.getElem?_append_right hfile, List.getElem?_replicate, if_pos (by omega),
        List.getElem?_eq_none_iff.mpr hfile]
      rfl
  rw [List.getElem?_append_right (by rwa [length_gap]), length_gap]
  rcases Nat.lt_or_ge p (offset + piece.length) with hin | hin
  · rw [if_pos ⟨hbefore, hin⟩, List.getElem?_append_left (by omega)]
  · rw [if_neg (by omega), List.getElem?_append_right (by omega), List.getElem?_drop,
      show offset + piece.length + (p - offset - piece.length) = p by omega]

/-! ### All pieces -/

theorem covered_nil : ¬ Covered ([] : List (ℕ × List α)) p := fun ⟨_, h, _⟩ => List.not_mem_nil h

theorem covered_cons : Covered ((offset, piece) :: pieces) p ↔
    (offset ≤ p ∧ p < offset + piece.length) ∨ Covered pieces p := by
  simp only [Covered, List.exists_mem_cons_iff]

theorem agree_cons : Agree content ((offset, piece) :: pieces) ↔
    (∀ j < piece.length, content[offset + j]? = piece[j]?) ∧ Agree content pieces := by
  simp only [Agree, List.forall_mem_cons]

/-- A place that is covered lies in the content. -/
theorem Agree.covered_lt (h : Agree content pieces) (hp : Covered pieces p) : p < content.length := by
  obtain ⟨⟨offset, piece⟩, hmem, hle, hlt⟩ := hp
  dsimp only at hle hlt
  have hget := h _ hmem (p - offset) (by dsimp only; omega)
  dsimp only at hget
  rw [List.getElem?_eq_getElem (l := piece) (by omega), show offset + (p - offset) = p by omega] at hget
  exact (List.getElem?_eq_some_iff.mp hget).1

/-- **The length of the file** reaches behind every place that was there or is covered. -/
theorem lt_length_patches (zero : α) (file : List α) : p < (patches zero file pieces).length ↔
    p < file.length ∨ ∃ q, p ≤ q ∧ Covered pieces q := by
  induction pieces generalizing file with
  | nil => exact ⟨Or.inl, fun h => h.resolve_right fun ⟨q, _, hq⟩ => covered_nil hq⟩
  | cons first pieces ih =>
    obtain ⟨offset, piece⟩ := first
    have hnext : p < (patches zero file ((offset, piece) :: pieces)).length ↔ _ :=
      ih (patch zero file offset piece)
    rw [hnext, lt_length_patch]
    simp only [covered_cons]
    constructor
    · rintro ((hfile | ⟨hne, hlt⟩) | ⟨q, hle, hq⟩)
      · exact Or.inl hfile
      · have hpos := List.length_pos_iff.mpr hne
        exact Or.inr ⟨offset + piece.length - 1, by omega, Or.inl ⟨by omega, by omega⟩⟩
      · exact Or.inr ⟨q, hle, Or.inr hq⟩
    · rintro (hfile | ⟨q, hle, ⟨hge, hlt⟩ | hq⟩)
      · exact Or.inl (Or.inl hfile)
      · refine Or.inl (Or.inr ⟨?_, by omega⟩)
        rintro rfl
        simp at hlt
        omega
      · exact Or.inr ⟨q, hle, hq⟩

open Classical in
/-- **A place of the file** is the content's if a piece covers it, and the file's otherwise. -/
theorem getD_patches (h : Agree content pieces) (zero : α) (file : List α) (p : ℕ) :
    (patches zero file pieces).getD p zero = if Covered pieces p then content.getD p zero else file.getD p zero := by
  induction pieces generalizing file with
  | nil => rw [if_neg covered_nil]; rfl
  | cons first pieces ih =>
    obtain ⟨offset, piece⟩ := first
    obtain ⟨hpiece, hrest⟩ := agree_cons.mp h
    have hnext : (patches zero file ((offset, piece) :: pieces)).getD p zero = _ :=
      ih hrest (patch zero file offset piece)
    rw [hnext, getD_patch]
    simp only [covered_cons]
    by_cases hlater : Covered pieces p
    · rw [if_pos hlater, if_pos (Or.inr hlater)]
    rw [if_neg hlater]
    by_cases hin : offset ≤ p ∧ p < offset + piece.length
    · rw [if_pos hin, if_pos (Or.inl hin), List.getD_eq_getElem?_getD, List.getD_eq_getElem?_getD,
        ← hpiece (p - offset) (by omega), show offset + (p - offset) = p by omega]
    · rw [if_neg hin, if_neg (not_or.mpr ⟨hin, hlater⟩)]

/-- **The pieces make up the content** if and only if the file is not longer, holds the content where no piece
covers it, and either is as long already or has its last place covered. -/
theorem patches_eq_iff (h : Agree content pieces) : patches zero file pieces = content ↔
    file.length ≤ content.length ∧
      (∀ p < content.length, ¬ Covered pieces p → file.getD p zero = content.getD p zero) ∧
      (content.length ≤ file.length ∨ Covered pieces (content.length - 1)) := by
  constructor
  · intro heq
    have hlength : ∀ p, p < content.length ↔ _ := fun p => heq ▸ lt_length_patches zero file
    refine ⟨?_, fun p _ hp => ?_, ?_⟩
    · by_contra hlt
      exact absurd ((hlength content.length).mpr (Or.inl (by omega))) (lt_irrefl _)
    · have hget := getD_patches h zero file p
      rw [heq, if_neg hp] at hget
      exact hget.symm
    · rcases Nat.eq_zero_or_pos content.length with hzero | hpos
      · exact Or.inl (by omega)
      rcases (hlength (content.length - 1)).mp (by omega) with hfile | ⟨q, hle, hq⟩
      · exact Or.inl (by omega)
      · have hlt := h.covered_lt hq
        rw [show content.length - 1 = q by omega]
        exact Or.inr hq
  · rintro ⟨hle, hget, hlast⟩
    have hlength : (patches zero file pieces).length = content.length := by
      refine le_antisymm (not_lt.mp fun hlt => ?_) (not_lt.mp fun hlt => ?_)
      · rcases (lt_length_patches zero file).mp hlt with hfile | ⟨q, hq, hcovered⟩
        · omega
        · have := h.covered_lt hcovered
          omega
      · refine absurd ((lt_length_patches zero file).mpr ?_) (lt_irrefl (patches zero file pieces).length)
        rcases hlast with hfile | hcovered
        · exact Or.inl (by omega)
        · exact Or.inr ⟨content.length - 1, by omega, hcovered⟩
    refine List.ext_getElem hlength fun p hp hp' => ?_
    have heq := getD_patches h zero file p
    have hsame : (patches zero file pieces).getD p zero = content.getD p zero := by
      split_ifs at heq with hcovered
      · exact heq
      · exact heq.trans (hget p hp' hcovered)
    rwa [List.getD_eq_getElem?_getD, List.getD_eq_getElem?_getD, List.getElem?_eq_getElem hp,
      List.getElem?_eq_getElem hp'] at hsame

end CompSys.Lib.Patches
