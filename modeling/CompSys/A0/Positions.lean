import CompSys.A0.Classification

/-! # Where the scans start

`find_format` goes through the file up to five times, and each scan is to start where the file starts. The
count of multi-byte characters does not go back if the file ends within a character; the scan behind it
starts at the end of the file then, and judges an empty remainder (`all_scans_whole_iff`). -/

namespace CompSys.A0.Positions

open CompSys.Lib.Fuel CompSys.A0.FindFormat CompSys.A0.Grammar CompSys.A0.Counting
open CompSys.A0.Classification

/-- The scans of `find_format`; `is_iso` is the count and, where it is zero, a loop of its own. -/
inductive Scan
  | isEmpty
  | isAscii
  | count
  | isoLoop
  | isUtf
deriving DecidableEq, Repr

/-- **In `find_format s` the scan starts on the stream `t`**: the scan before it has returned, and what it
has returned makes the classification go on. -/
inductive StartsOn (s : Stream) : Scan → Stream → Prop
  | isEmpty : StartsOn s .isEmpty s
  | isAscii {t u : Stream} (h : StartsOn s .isEmpty t) (hempty : FindFormat.isEmpty t = (false, u)) :
      StartsOn s .isAscii u
  | count {t u : Stream} (h : StartsOn s .isAscii t) (hascii : Yields (FindFormat.isAscii t) (false, u)) :
      StartsOn s .count u
  | isoLoop {t u : Stream} (h : StartsOn s .count t) (hcount : Yields (countUtfMultiByteCharacters t) (0, u)) :
      StartsOn s .isoLoop u
  | isUtf {t u : Stream} (h : StartsOn s .count t) (hiso : Yields (isIso t) (false, u)) : StartsOn s .isUtf u

/-- Every scan that starts does so on the whole file. -/
def AllScansWhole (s : Stream) : Prop := ∀ scan t, StartsOn s scan t → t = s

variable {s t : Stream} {fd : ℕ} {bytes : List Grammar.Byte}

/-! ### The scans one by one -/

theorem startsOn_isEmpty (h : StartsOn s .isEmpty t) : t = s := by
  cases h
  rfl

/-- Nothing is scanned behind `is_empty` if no byte can be read. -/
theorem isEmpty_closed (hfd : s.fd = 2) : FindFormat.isEmpty s = (true, s) := by
  simp only [FindFormat.isEmpty, protectiveGetC, if_pos hfd]

theorem startsOn_isAscii (h : StartsOn ⟨fd, bytes, 0⟩ .isAscii t) : t = ⟨fd, bytes, 0⟩ ∧ fd ≠ 2 := by
  rcases h with _ | ⟨h, hempty⟩
  obtain rfl := startsOn_isEmpty h
  by_cases hfd : fd = 2
  · rw [isEmpty_closed hfd] at hempty
    exact absurd (Prod.mk.inj hempty).1 Bool.noConfusion
  refine ⟨?_, hfd⟩
  rcases bytes with _ | ⟨c, r⟩
  · simp only [FindFormat.isEmpty, getC_nil (show rest ⟨fd, [], 0⟩ = [] from rfl)] at hempty
    exact absurd (Prod.mk.inj hempty).1 Bool.noConfusion
  · rw [isEmpty_cons hfd (show rest ⟨fd, c :: r, 0⟩ = c :: r from rfl)] at hempty
    exact (Prod.mk.inj hempty).2.symm

theorem startsOn_count (h : StartsOn ⟨fd, bytes, 0⟩ .count t) : t = ⟨fd, bytes, 0⟩ ∧ fd ≠ 2 := by
  rcases h with _ | _ | ⟨h, hascii⟩
  obtain ⟨rfl, hfd⟩ := startsOn_isAscii h
  refine ⟨?_, hfd⟩
  have hrest : rest ⟨fd, bytes, 0⟩ = bytes := rfl
  by_cases htext : ∀ b ∈ bytes, Text b
  · obtain ⟨u, hu⟩ := isAscii_text (s := ⟨fd, bytes, 0⟩) hfd (hrest ▸ htext)
    exact absurd (Prod.mk.inj (hascii.unique hu)).1 Bool.noConfusion
  · have hother := isAscii_other (s := ⟨fd, bytes, 0⟩) hfd (hrest ▸ htext)
    exact (Prod.mk.inj (hascii.unique hother)).2

/-- **A file that is not a text of single bytes** is scanned by the count. -/
theorem count_starts (hfd : fd ≠ 2) (htext : ¬ ∀ b ∈ bytes, Text b) :
    StartsOn ⟨fd, bytes, 0⟩ .count ⟨fd, bytes, 0⟩ := by
  have hrest : rest ⟨fd, bytes, 0⟩ = bytes := rfl
  have hempty : FindFormat.isEmpty ⟨fd, bytes, 0⟩ = (false, ⟨fd, bytes, 0⟩) := by
    rcases bytes with _ | ⟨c, r⟩
    · exact absurd (fun b hb => absurd hb List.not_mem_nil) htext
    · exact isEmpty_cons hfd rfl
  exact .count (.isAscii .isEmpty hempty) (isAscii_other (s := ⟨fd, bytes, 0⟩) hfd (hrest ▸ htext))

/-- A file that ends in a character is no text of single bytes. -/
theorem not_text_of_truncated (h : Somewhere Truncated (body bytes)) : ¬ ∀ b ∈ bytes, Text b := by
  intro htext
  have hstray : ∀ b ∈ bytes, Stray b := fun b hb => (htext b hb).stray
  have hbody : body bytes = bytes := by
    refine body_of_not_slips ?_
    rintro ⟨b, x, r, rfl, hb, -⟩
    exact hstray b List.mem_cons_self 3 hb
  rw [hbody] at h
  exact (places_of_stray hstray).2.1 h

/-- `is_iso` ends at the start of the file if the count does. -/
theorem isIso_stays {answer : Bool} (hfd : fd ≠ 2) (hbreaks : ¬ Somewhere Breaks (body bytes))
    (htrunc : ¬ Somewhere Truncated (body bytes)) (h : Yields (isIso ⟨fd, bytes, 0⟩) (answer, t)) :
    t = ⟨fd, bytes, 0⟩ := by
  obtain ⟨v, hv, -, -, hstart⟩ := count_yields (s := ⟨fd, bytes, 0⟩) hfd rfl hbreaks
  obtain rfl := hstart htrunc
  by_cases hnone : BitVec.ofNat 32 (characters (body bytes)) = 0
  · rw [hnone] at hv
    have hloop : Yields (isIso ⟨fd, bytes, 0⟩) _ := hv.bind (isoLoop_yields (s := ⟨fd, bytes, 0⟩) hfd)
    exact (Prod.mk.inj (h.unique hloop)).2
  · have hiso : Yields (isIso ⟨fd, bytes, 0⟩) (false, ⟨fd, bytes, 0⟩) := by
      refine hv.bind ?_
      simp only [ne_eq, hnone, not_false_eq_true, if_true]
      exact yields_some _
    exact (Prod.mk.inj (h.unique hiso)).2

/-- **Every scan of a file sees the whole of it** if and only if the file does not end within a character,
or the scans do not come that far: no byte can be read, or the count never ends. -/
theorem all_scans_whole_iff (fd : ℕ) (bytes : List Grammar.Byte) : AllScansWhole ⟨fd, bytes, 0⟩ ↔
    fd = 2 ∨ Somewhere Breaks (body bytes) ∨ ¬ Somewhere Truncated (body bytes) := by
  classical
  constructor
  · intro hall
    by_contra hnot
    simp only [not_or, not_not] at hnot
    obtain ⟨hfd, hbreaks, htrunc⟩ := hnot
    have htext := not_text_of_truncated htrunc
    have hcount := count_starts hfd htext
    -- a stream with nothing left is not the stream at the start of the file
    have hend : ∀ {t : Stream}, rest t = [] → t ≠ ⟨fd, bytes, 0⟩ := by
      rintro t ht rfl
      have hbytes : bytes = [] := ht
      exact htext (hbytes ▸ fun b hb => absurd hb List.not_mem_nil)
    by_cases hnone : CountsNone (body bytes)
    · obtain ⟨t, ht, -, hrest, -⟩ := count_yields (s := ⟨fd, bytes, 0⟩) hfd rfl hbreaks
      rw [countsNone_iff.mp hnone] at ht
      exact hend (hrest htrunc) (hall .isoLoop t (.isoLoop hcount ht))
    · obtain ⟨t, ht, -, hrest, -⟩ := isIso_yields (s := ⟨fd, bytes, 0⟩) hfd rfl hbreaks
      rw [decide_eq_false (fun h => hnone h.1)] at ht
      exact hend (hrest htrunc hnone) (hall .isUtf t (.isUtf hcount ht))
  · intro hcond scan t ht
    rcases scan with _ | _ | _ | _ | _
    · exact startsOn_isEmpty ht
    · exact (startsOn_isAscii ht).1
    · exact (startsOn_count ht).1
    · rcases ht with _ | _ | _ | ⟨h, hcount⟩
      obtain ⟨rfl, hfd⟩ := startsOn_count h
      by_cases hbreaks : Somewhere Breaks (body bytes)
      · exact absurd hcount (count_hangs (s := ⟨fd, bytes, 0⟩) hfd rfl hbreaks).not_yields
      have htrunc : ¬ Somewhere Truncated (body bytes) := (hcond.resolve_left hfd).resolve_left hbreaks
      obtain ⟨v, hv, -, -, hstart⟩ := count_yields (s := ⟨fd, bytes, 0⟩) hfd rfl hbreaks
      exact (Prod.mk.inj (hcount.unique hv)).2.trans (hstart htrunc)
    · rcases ht with _ | _ | _ | _ | ⟨h, hiso⟩
      obtain ⟨rfl, hfd⟩ := startsOn_count h
      by_cases hbreaks : Somewhere Breaks (body bytes)
      · exact absurd hiso (isIso_hangs (s := ⟨fd, bytes, 0⟩) hfd rfl hbreaks).not_yields
      have htrunc : ¬ Somewhere Truncated (body bytes) := (hcond.resolve_left hfd).resolve_left hbreaks
      exact (isIso_stays hfd hbreaks htrunc hiso)

/-- **A byte that is in no ISO text, and a cut off character**: `is_iso` on its own would say no, but its loop
starts at the end of the file, where it says yes. -/
theorem cut_off_scanned_as_empty : ¬ AllScansWhole ⟨3, [0x80#8, 0xC3#8], 0⟩ ∧
    StartsOn ⟨3, [0x80#8, 0xC3#8], 0⟩ .isoLoop ⟨3, [0x80#8, 0xC3#8], 2⟩ ∧
    Yields (isoLoop ⟨3, [0x80#8, 0xC3#8], 2⟩) (true, ⟨3, [0x80#8, 0xC3#8], 0⟩) ∧
    Yields (isoLoop ⟨3, [0x80#8, 0xC3#8], 0⟩) (false, ⟨3, [0x80#8, 0xC3#8], 0⟩) := by
  have hcount : Yields (countUtfMultiByteCharacters ⟨3, [0x80#8, 0xC3#8], 0⟩) (0, ⟨3, [0x80#8, 0xC3#8], 2⟩) :=
    .next rfl (fun _ => rfl) (.now rfl fun _ => rfl)
  have hstart : StartsOn ⟨3, [0x80#8, 0xC3#8], 0⟩ .isoLoop ⟨3, [0x80#8, 0xC3#8], 2⟩ :=
    .isoLoop (count_starts (by omega) (by decide)) hcount
  refine ⟨fun hall => ?_, hstart, .now rfl fun _ => rfl, .now rfl fun _ => rfl⟩
  have hpos := congrArg Stream.position (hall _ _ hstart)
  exact absurd hpos (by decide)

end CompSys.A0.Positions
