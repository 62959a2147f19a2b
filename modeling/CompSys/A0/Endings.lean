import CompSys.A0.Classification

/-! # Files on which the scanners end

`find_format` returns on a file unless the count of multi-byte characters meets one that breaks off before
its last byte; then the count goes back too far and never gets past it (`ends_iff`). -/

namespace CompSys.A0.Endings

open CompSys.Lib.Fuel CompSys.A0.FindFormat CompSys.A0.Grammar CompSys.A0.Counting
open CompSys.A0.Classification

variable {fd : ℕ} {bytes : List Grammar.Byte}

/-- No byte comes from descriptor 2. -/
theorem count_closed (h : fd = 2) : Yields (countUtfMultiByteCharacters ⟨fd, bytes, 0⟩) (0, ⟨fd, bytes, 0⟩) := by
  refine .now rfl fun fuel => ?_
  simp only [countUtfMultiByteCharacters, countLoop, protectiveGetC, if_pos h]
  rfl

/-- **The count ends** unless a character breaks off. -/
theorem count_ends_iff : (∃ r, Yields (countUtfMultiByteCharacters ⟨fd, bytes, 0⟩) r) ↔
    fd = 2 ∨ ¬ Somewhere Breaks (body bytes) := by
  by_cases hfd : fd = 2
  · exact iff_of_true ⟨_, count_closed hfd⟩ (Or.inl hfd)
  rw [or_iff_right hfd]
  constructor
  · rintro ⟨r, hr⟩ hbreaks
    exact (count_hangs (s := ⟨fd, bytes, 0⟩) hfd rfl hbreaks).not_yields hr
  · intro hbreaks
    obtain ⟨t, ht, -⟩ := count_yields (s := ⟨fd, bytes, 0⟩) hfd rfl hbreaks
    exact ⟨_, ht⟩

theorem verdict_eq_none_iff : verdict bytes = none ↔
    ¬ (∀ b ∈ bytes, Text b) ∧ Somewhere Breaks (body bytes) := by
  unfold verdict
  split_ifs <;> simp_all

/-- **`find_format` ends** on a file, and the count of its characters, exactly where no character breaks off;
a text of single bytes is told before it is counted. -/
theorem ends_iff (fd : ℕ) (bytes : List Grammar.Byte) :
    ((∃ type, Yields (findFormat ⟨fd, bytes, 0⟩) type) ↔
      fd = 2 ∨ (∀ b ∈ bytes, Text b) ∨ ¬ Somewhere Breaks (body bytes)) ∧
    ((∃ r, Yields (countUtfMultiByteCharacters ⟨fd, bytes, 0⟩) r) ↔
      fd = 2 ∨ ¬ Somewhere Breaks (body bytes)) := by
  refine ⟨?_, count_ends_iff⟩
  by_cases hfd : fd = 2
  · refine iff_of_true ⟨.empty, ?_⟩ (Or.inl hfd)
    rw [findFormat_empty (by rw [protectiveGetC, if_pos hfd])]
    exact yields_some _
  rw [or_iff_right hfd]
  by_cases hne : bytes = []
  · subst hne
    refine iff_of_true ⟨.empty, ?_⟩ (Or.inl fun b hb => absurd hb List.not_mem_nil)
    rw [findFormat_empty (getC_nil rfl)]
    exact yields_some _
  obtain ⟨hhangs, hyields⟩ := findFormat_verdict (s := ⟨fd, bytes, 0⟩) hfd rfl hne
  have hnone : (∀ b ∈ bytes, Text b) ∨ ¬ Somewhere Breaks (body bytes) ↔ verdict bytes ≠ none := by
    rw [Ne, verdict_eq_none_iff]
    tauto
  rw [hnone, Option.ne_none_iff_exists']
  constructor
  · rintro ⟨type, htype⟩
    cases hverdict : verdict bytes with
    | none => exact absurd htype (hhangs hverdict).not_yields
    | some type => exact ⟨type, rfl⟩
  · rintro ⟨type, htype⟩
    exact ⟨type, hyields type htype⟩

/-- **An ISO text of two letters**, `0xe2` and `A`: the count goes back from behind the `A` to the start. -/
theorem two_letters_hang : ¬ ∃ type, Yields (findFormat ⟨3, [0xE2#8, 0x41#8], 0⟩) type := by
  rw [(ends_iff 3 [0xE2#8, 0x41#8]).1]
  have hbreaks : Breaks [0xE2#8, 0x41#8] := (breaks_lead (k := 2) (by decide)).mpr (by decide)
  have hbody : body [0xE2#8, 0x41#8] = [0xE2#8, 0x41#8] := by decide
  rw [hbody]
  rintro (hfd | htext | hends)
  · omega
  · exact absurd htext (by decide)
  · exact hends (somewhere_cons.mpr (Or.inl hbreaks))

end CompSys.A0.Endings
