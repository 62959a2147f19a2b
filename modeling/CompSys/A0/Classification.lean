import CompSys.A0.Counting

/-! # The classification of a file

`classify` is the type of a file by the grammar, `verdict` what `find_format` makes of it
(`findFormat_verdict`). They agree on empty files, on texts of single bytes and on nearly all texts of
characters. On other files they agree only as far as no character breaks off too early for the count, and
as the count of characters happens to be right (`classified_iff`). -/

namespace CompSys.A0.Classification

open CompSys.Lib.Fuel CompSys.A0.FindFormat CompSys.A0.Grammar CompSys.A0.Counting

variable {s t : Stream} {b c : Grammar.Byte} {bytes r : List Grammar.Byte}

/-! ### The scanners -/

theorem asciiByte_iff (c : Grammar.Byte) : asciiByte c = true ↔ Text c := by
  revert c
  decide +kernel

theorem isoByte_iff (c : Grammar.Byte) : isoByte c = true ↔ IsoText c := by
  revert c
  decide +kernel

theorem isEmpty_cons (hfd : s.fd ≠ 2) (h : rest s = c :: r) : isEmpty s = (false, s.rewind) := by
  simp only [isEmpty, getC_cons hfd h]
  rfl

/-- **`is_ascii`** on a text. -/
theorem isAscii_text (hfd : s.fd ≠ 2) (h : ∀ b ∈ rest s, Text b) : ∃ t, Yields (isAscii s) (true, t) := by
  induction hn : rest s generalizing s with
  | nil => exact ⟨s, .now rfl fun fuel => by simp only [isAscii, getC_nil hn]⟩
  | cons c r ih =>
    rw [hn, List.forall_mem_cons] at h
    have hr := rest_forward_one hn
    obtain ⟨t, ht⟩ := ih (s := forward s 1) hfd (hr ▸ h.2) hr
    refine ⟨t, ht.next rfl fun fuel => ?_⟩
    simp only [isAscii, getC_cons hfd hn, (asciiByte_iff c).mpr h.1, if_true]

/-- **`is_ascii`** on anything else. -/
theorem isAscii_other (hfd : s.fd ≠ 2) (h : ¬ ∀ b ∈ rest s, Text b) : Yields (isAscii s) (false, s.rewind) := by
  induction hn : rest s generalizing s with
  | nil => exact absurd (fun b hb => by simp [hn] at hb) h
  | cons c r ih =>
    rw [hn, List.forall_mem_cons, not_and] at h
    by_cases hc : Text c
    · have hr := rest_forward_one hn
      refine .next rfl (fun fuel => ?_) (ih (s := forward s 1) hfd (hr ▸ h hc) hr)
      simp only [isAscii, getC_cons hfd hn, (asciiByte_iff c).mpr hc, if_true]
    · refine .now rfl fun fuel => ?_
      simp only [isAscii, getC_cons hfd hn, (asciiByte_iff c).not.mpr hc, Bool.false_eq_true, if_false]
      rfl

/-- **The loop of `is_iso`.** -/
theorem isoLoop_yields (hfd : s.fd ≠ 2) :
    Yields (isoLoop s) (decide (∀ b ∈ rest s, IsoText b), s.rewind) := by
  induction hn : rest s generalizing s with
  | nil => exact .now rfl fun fuel => by simp [isoLoop, getC_nil hn]
  | cons c r ih =>
    have hr := rest_forward_one hn
    by_cases hc : IsoText c
    · have hround : ∀ fuel, isoLoop s (fuel + 1) = isoLoop (forward s 1) fuel := fun fuel => by
        simp only [isoLoop, getC_cons hfd hn, (isoByte_iff c).mpr hc, if_true]
      have h := (ih (s := forward s 1) hfd hr).next rfl hround
      simp only [List.forall_mem_cons, hc, true_and]
      exact h
    · refine .now rfl fun fuel => ?_
      simp only [isoLoop, getC_cons hfd hn, (isoByte_iff c).not.mpr hc, Bool.false_eq_true, if_false,
        List.forall_mem_cons, hc, false_and, decide_false]
      rfl

/-- One round of `is_utf`. -/
theorem isUtf_round {k : ℕ} (hfd : s.fd ≠ 2) (h : rest s = c :: r) (hk : expecting c = k) :
    (k ≤ conts r → ∀ fuel, isUtf s (fuel + 1) = isUtf (forward s (k + 1)) fuel) ∧
      (conts r < k → ∃ t, ∀ fuel, isUtf s (fuel + 1) = some (false, t)) := by
  have hread : readRest (forward s 1) k = _ := readRest_eq (by exact hfd)
  rw [rest_forward_one h] at hread
  constructor
  · intro hle fuel
    simp only [isUtf, getC_cons hfd h, hk, hread, if_pos hle, forward_forward, Nat.add_comm 1]
  · intro hlt
    rw [if_neg (by omega)] at hread
    by_cases hr : conts r < r.length
    · exact ⟨_, fun fuel => by simp only [isUtf, getC_cons hfd h, hk, hread, if_pos hr]; rfl⟩
    · exact ⟨_, fun fuel => by simp only [isUtf, getC_cons hfd h, hk, hread, if_neg hr]; rfl⟩

open Classical in
/-- **`is_utf`** takes every byte that is no lead byte for a character of its own. -/
theorem isUtf_yields (hfd : s.fd ≠ 2) : ∃ t, Yields (isUtf s) (decide (Chars Stray (rest s)), t) := by
  induction hn : (rest s).length using Nat.strong_induction_on generalizing s with
  | _ n ih =>
  subst hn
  rcases hs : rest s with _ | ⟨c, r⟩
  · refine ⟨s.rewind, .now rfl fun fuel => ?_⟩
    simp only [isUtf, getC_nil hs, Chars.nil, decide_true]
  have hnext : ∀ k, k ≤ conts r → ∃ t, Yields (isUtf (forward s (k + 1))) (decide (Chars Stray (r.drop k)), t) := by
    intro k hk
    have hrest : rest (forward s (k + 1)) = r.drop k := by
      rw [rest_forward, hs, List.drop_succ_cons]
    rw [← hrest]
    refine ih _ ?_ (by exact hfd) rfl
    rw [hrest, hs, List.length_drop, List.length_cons]
    omega
  rcases lead_or_stray c with ⟨k, hc⟩ | hc
  · obtain ⟨hwhole, hbroken⟩ := isUtf_round hfd hs (expecting_lead hc)
    have hlead : ¬ Stray c := fun hstray => hstray k hc
    simp only [chars_lead hc hlead]
    by_cases hk : k ≤ conts r
    · obtain ⟨t, ht⟩ := hnext k hk
      simp only [hk, true_and]
      exact ⟨t, ht.next rfl (hwhole hk)⟩
    · obtain ⟨t, ht⟩ := hbroken (by omega)
      simp only [hk, false_and, decide_false]
      exact ⟨t, .now rfl ht⟩
  · obtain ⟨hwhole, _⟩ := isUtf_round hfd hs (expecting_stray hc)
    obtain ⟨t, ht⟩ := hnext 0 (Nat.zero_le _)
    simp only [chars_stray hc, hc, true_and]
    exact ⟨t, ht.next rfl (hwhole (Nat.zero_le _))⟩

/-! ### The verdict -/

open Classical in
/-- The type by the grammar. -/
noncomputable def classify (bytes : List Grammar.Byte) : FileType :=
  if bytes = [] then .empty
  else if ∀ b ∈ bytes, Text b then .ascii
  else if Chars Text bytes then .utf
  else if ∀ b ∈ bytes, IsoText b then .iso
  else .data

/-- A counter of 32 bits ends at zero: no character, or far too many. -/
def CountsNone (bytes : List Grammar.Byte) : Prop := 2 ^ 32 ∣ characters bytes

theorem countsNone_iff : CountsNone bytes ↔ BitVec.ofNat 32 (characters bytes) = 0 := by
  rw [CountsNone, Nat.dvd_iff_mod_eq_zero, BitVec.toNat_eq, BitVec.toNat_ofNat]
  rfl

open Classical in
/-- The type of a file that is not empty and can be read; `none` if `find_format` never returns. -/
noncomputable def verdict (bytes : List Grammar.Byte) : Option FileType :=
  if ∀ b ∈ bytes, Text b then some .ascii
  else if Somewhere Breaks (body bytes) then none
  else if CountsNone (body bytes) ∧ (Somewhere Truncated (body bytes) ∨ ∀ b ∈ bytes, IsoText b) then some .iso
  else if Somewhere Truncated (body bytes) ∨ Chars Stray bytes then some .utf
  else some .data

theorem isIso_hangs (hfd : s.fd ≠ 2) (hpos : s.position = 0) (h : Somewhere Breaks (body s.bytes)) :
    Hangs (isIso s) := (count_hangs hfd hpos h).bind

open Classical in
/-- **`is_iso`**, and where the stream is when it says no. -/
theorem isIso_yields (hfd : s.fd ≠ 2) (hpos : s.position = 0) (h : ¬ Somewhere Breaks (body s.bytes)) :
    ∃ t, Yields (isIso s) (decide (CountsNone (body s.bytes) ∧
        (Somewhere Truncated (body s.bytes) ∨ ∀ b ∈ s.bytes, IsoText b)), t) ∧ t.fd = s.fd ∧
      (Somewhere Truncated (body s.bytes) → ¬ CountsNone (body s.bytes) → rest t = []) ∧
      (¬ Somewhere Truncated (body s.bytes) → rest t = s.bytes) := by
  have hrest : rest s = s.bytes := by rw [rest, hpos, List.drop_zero]
  have hrewind : s.rewind = s := by
    obtain ⟨fd, bytes, q⟩ := s
    obtain rfl : q = 0 := hpos
    rfl
  obtain ⟨t, ht, htfd, hend, hstart⟩ := count_yields hfd hpos h
  by_cases hzero : CountsNone (body s.bytes)
  · have hnone := countsNone_iff.mp hzero
    have hloop := isoLoop_yields (s := t) (htfd ▸ hfd)
    rw [hnone] at ht
    have hiso : Yields (isIso s) (decide (∀ b ∈ rest t, IsoText b), t.rewind) := ht.bind hloop
    by_cases htrunc : Somewhere Truncated (body s.bytes)
    · rw [hend htrunc] at hiso
      refine ⟨t.rewind, ?_, htfd, fun _ hnot => absurd hzero hnot, fun hnot => absurd htrunc hnot⟩
      simpa only [hzero, htrunc, true_or, true_and, List.not_mem_nil, false_implies, implies_true,
        decide_true] using hiso
    · obtain rfl := hstart htrunc
      rw [hrest] at hiso
      refine ⟨t.rewind, ?_, rfl, fun hyes => absurd hyes htrunc, fun _ => by rw [hrewind, hrest]⟩
      simpa only [hzero, htrunc, false_or, true_and] using hiso
  · have hnone := countsNone_iff.not.mp hzero
    have hiso : Yields (isIso s) (false, t) := by
      refine ht.bind ?_
      simp only [ne_eq, hnone, not_false_eq_true, if_true]
      exact yields_some _
    refine ⟨t, ?_, htfd, fun htrunc _ => hend htrunc, fun htrunc => (hstart htrunc) ▸ hrest⟩
    simpa only [hzero, false_and, decide_false] using hiso

theorem findFormat_scan (hfd : s.fd ≠ 2) (hpos : s.position = 0) (hne : s.bytes ≠ []) : findFormat s = fun fuel =>
    (isAscii s fuel).bind fun ascii => if ascii.1 then some .ascii
      else (isIso ascii.2 fuel).bind fun iso => if iso.1 then some .iso
        else (isUtf iso.2 fuel).bind fun utf => some (if utf.1 then .utf else .data) := by
  obtain ⟨fd, bytes, q⟩ := s
  obtain rfl : q = 0 := hpos
  obtain ⟨c, r, hbytes⟩ := List.exists_cons_of_ne_nil hne
  funext fuel
  simp only [findFormat, isEmpty_cons hfd (show rest ⟨fd, bytes, 0⟩ = c :: r from hbytes), Bool.false_eq_true,
    if_false]
  rfl

/-- Where no byte comes, the file is empty. -/
theorem findFormat_empty (h : protectiveGetC s = (none, s)) : findFormat s = fun _ => some .empty := by
  funext fuel
  simp only [findFormat, isEmpty, h, if_true]

open Classical in
/-- **What `find_format` does**: it returns the verdict, or never returns. -/
theorem findFormat_verdict (hfd : s.fd ≠ 2) (hpos : s.position = 0) (hne : s.bytes ≠ []) :
    (verdict s.bytes = none → Hangs (findFormat s)) ∧
      ∀ type, verdict s.bytes = some type → Yields (findFormat s) type := by
  have hrest : rest s = s.bytes := by rw [rest, hpos, List.drop_zero]
  have hrewind : s.rewind = s := by
    obtain ⟨fd, bytes, q⟩ := s
    obtain rfl : q = 0 := hpos
    rfl
  rw [findFormat_scan hfd hpos hne]
  unfold verdict
  by_cases htext : ∀ b ∈ s.bytes, Text b
  · rw [if_pos htext]
    refine ⟨fun h => absurd h (Option.some_ne_none _), fun type htype => ?_⟩
    obtain rfl := Option.some.inj htype
    obtain ⟨t, ht⟩ := isAscii_text hfd (hrest ▸ htext)
    exact ht.bind (yields_some _)
  rw [if_neg htext]
  have hascii : Yields (isAscii s) (false, s) := by
    have h := isAscii_other hfd (hrest ▸ htext)
    rwa [hrewind] at h
  by_cases hbreaks : Somewhere Breaks (body s.bytes)
  · rw [if_pos hbreaks]
    refine ⟨fun _ => hascii.bind_hangs ?_, fun _ h => absurd h.symm (Option.some_ne_none _)⟩
    exact (isIso_hangs hfd hpos hbreaks).bind
  rw [if_neg hbreaks]
  obtain ⟨t, hiso, htfd, hend, hstart⟩ := isIso_yields hfd hpos hbreaks
  obtain ⟨u, hutf⟩ := isUtf_yields (s := t) (htfd ▸ hfd)
  by_cases hyes : CountsNone (body s.bytes) ∧ (Somewhere Truncated (body s.bytes) ∨ ∀ b ∈ s.bytes, IsoText b)
  · rw [if_pos hyes]
    refine ⟨fun h => absurd h (Option.some_ne_none _), fun type htype => ?_⟩
    obtain rfl := Option.some.inj htype
    simp only [hyes, and_self, decide_true] at hiso
    exact hascii.bind (hiso.bind (yields_some _))
  · rw [if_neg hyes]
    refine ⟨fun h => by split_ifs at h, fun type htype => ?_⟩
    have hchars : Chars Stray (rest t) ↔ Somewhere Truncated (body s.bytes) ∨ Chars Stray s.bytes := by
      by_cases htrunc : Somewhere Truncated (body s.bytes)
      · rw [hend htrunc fun hnone => hyes ⟨hnone, Or.inl htrunc⟩]
        simp only [Chars.nil, htrunc, true_or]
      · rw [hstart htrunc, or_iff_right htrunc]
    have hlast : (if decide (Chars Stray (rest t)) = true then FileType.utf else .data) = type := by
      simp only [decide_eq_true_eq, hchars]
      split_ifs at htype ⊢
      · exact Option.some.inj htype
      · exact Option.some.inj htype
    rw [decide_eq_false hyes] at hiso
    rw [← hlast]
    exact hascii.bind (hiso.bind (hutf.bind (yields_some _)))

/-! ### Where the verdict is right -/

/-- Files that are classified by the grammar: texts of single bytes; texts of characters, but for those of
`2^32` characters that are an ISO text too; ISO texts and data in which no character breaks off, the former
without characters, the latter not cut off and with a lead byte that has too few continuation bytes. -/
def ScannedRight (bytes : List Grammar.Byte) : Prop :=
  (∀ b ∈ bytes, Text b) ∨
  (Chars Text bytes ∧ ¬ (CountsNone bytes ∧ ∀ b ∈ bytes, IsoText b)) ∨
  (¬ Chars Text bytes ∧ (∀ b ∈ bytes, IsoText b) ∧ ¬ Somewhere Breaks (body bytes) ∧ CountsNone (body bytes)) ∨
  (¬ (∀ b ∈ bytes, IsoText b) ∧ ¬ Chars Stray bytes ∧ ¬ Somewhere Breaks (body bytes) ∧
    ¬ Somewhere Truncated (body bytes))

theorem body_eq_of_chars (h : Chars Text bytes) : body bytes = bytes := by
  refine body_of_not_slips ?_
  rintro ⟨b, x, r, rfl, hb, hx⟩
  have hle := ((chars_lead hb hb.not_text).mp h).1
  rw [conts_cons_eq_zero hx] at hle
  omega

theorem classify_ne_empty (hne : bytes ≠ []) : classify bytes ≠ .empty := by
  unfold classify
  rw [if_neg hne]
  split_ifs
  all_goals exact nofun

/-- **The verdict and the grammar.** -/
theorem verdict_eq_classify_iff (hne : bytes ≠ []) : verdict bytes = some (classify bytes) ↔ ScannedRight bytes := by
  unfold verdict classify ScannedRight
  rw [if_neg hne]
  by_cases htext : ∀ b ∈ bytes, Text b
  · rw [if_pos htext, if_pos htext]
    exact iff_of_true rfl (Or.inl htext)
  rw [if_neg htext, if_neg htext, or_iff_right htext]
  by_cases hchars : Chars Text bytes
  · obtain ⟨hbreaks, htrunc, _⟩ := hchars.places
    have hstray : Chars Stray bytes := hchars.mono fun b hb => hb.stray
    rw [body_eq_of_chars hchars, if_neg hbreaks, if_pos hchars]
    by_cases hnone : CountsNone bytes ∧ ∀ b ∈ bytes, IsoText b
    · rw [if_pos ⟨hnone.1, Or.inr hnone.2⟩]
      refine iff_of_false nofun ?_
      tauto
    · rw [if_neg (by tauto), if_pos (Or.inr hstray)]
      exact iff_of_true rfl (Or.inl ⟨hchars, hnone⟩)
  rw [if_neg hchars]
  by_cases hbreaks : Somewhere Breaks (body bytes)
  · rw [if_pos hbreaks]
    refine iff_of_false nofun ?_
    tauto
  rw [if_neg hbreaks]
  by_cases hiso : ∀ b ∈ bytes, IsoText b
  · rw [if_pos hiso]
    by_cases hnone : CountsNone (body bytes)
    · rw [if_pos ⟨hnone, Or.inr hiso⟩]
      exact iff_of_true rfl (Or.inr (Or.inl ⟨hchars, hiso, hbreaks, hnone⟩))
    · rw [if_neg (by tauto)]
      refine iff_of_false ?_ (by tauto)
      split_ifs
      · exact nofun
      · exact nofun
  · rw [if_neg hiso]
    by_cases htrunc : Somewhere Truncated (body bytes)
    · refine iff_of_false ?_ (by tauto)
      rw [if_pos (Or.inl htrunc)]
      split_ifs
      · exact nofun
      · exact nofun
    rw [if_neg (by tauto)]
    by_cases hstray : Chars Stray bytes
    · rw [if_pos (Or.inr hstray)]
      exact iff_of_false nofun (by tauto)
    · rw [if_neg (by tauto)]
      exact iff_of_true rfl (Or.inr (Or.inr ⟨hiso, hstray, hbreaks, htrunc⟩))

/-- **`find_format` classifies a file by the grammar** if and only if the file is empty, or it can be read and
is `ScannedRight`. -/
theorem classified_iff (fd : ℕ) (bytes : List Grammar.Byte) :
    Yields (findFormat ⟨fd, bytes, 0⟩) (classify bytes) ↔ bytes = [] ∨ fd ≠ 2 ∧ ScannedRight bytes := by
  by_cases hne : bytes = []
  · subst hne
    refine iff_of_true ?_ (Or.inl rfl)
    rw [findFormat_empty (getC_nil rfl)]
    exact yields_some _
  rw [or_iff_right hne]
  by_cases hfd : fd = 2
  · refine iff_of_false ?_ fun h => h.1 hfd
    rw [findFormat_empty (by rw [protectiveGetC, if_pos hfd])]
    intro h
    exact classify_ne_empty hne (h.unique (yields_some _))
  rw [and_iff_right hfd, ← verdict_eq_classify_iff hne]
  obtain ⟨hhangs, hyields⟩ := findFormat_verdict (s := ⟨fd, bytes, 0⟩) hfd rfl hne
  constructor
  · intro h
    cases hverdict : verdict bytes with
    | none => exact absurd h (hhangs hverdict).not_yields
    | some type => rw [(hyields type hverdict).unique h]
  · exact hyields _

/-- The `data.input` of `test.sh`: `Hello,`, a zero byte and `World!`. -/
def dataInput : List Grammar.Byte :=
  [0x48, 0x65, 0x6C, 0x6C, 0x6F, 0x2C, 0x00, 0x57, 0x6F, 0x72, 0x6C, 0x64, 0x21, 0x0A]

/-- **A zero byte** makes a file data, and `find_format` calls it Unicode text. -/
theorem zero_byte_not_data : classify dataInput = .data ∧ Yields (findFormat ⟨3, dataInput, 0⟩) .utf ∧
    ¬ Yields (findFormat ⟨3, dataInput, 0⟩) (classify dataInput) := by
  have hstray : ∀ b ∈ dataInput, Stray b := by
    have hall : ∀ b ∈ dataInput, expecting b = 0 := by decide
    exact fun b hb => stray_of_expecting (hall b hb)
  have htext : ¬ ∀ b ∈ dataInput, Text b := by decide
  have hiso : ¬ ∀ b ∈ dataInput, IsoText b := by decide
  have hclassify : classify dataInput = .data := by
    rw [classify, if_neg (by decide), if_neg htext, if_neg ((chars_iff_of_stray hstray).not.mpr htext), if_neg hiso]
  have hverdict : verdict dataInput = some .utf := by
    have hbody : body dataInput = dataInput := by decide
    obtain ⟨hbreaks, htrunc, _⟩ := places_of_stray hstray
    rw [verdict, hbody, if_neg htext, if_neg hbreaks, if_neg (by tauto),
      if_pos (Or.inr ((chars_iff_of_stray hstray).mpr hstray))]
  have hutf : Yields (findFormat ⟨3, dataInput, 0⟩) .utf :=
    (findFormat_verdict (s := ⟨3, dataInput, 0⟩) (by decide) rfl (by decide)).2 _ hverdict
  refine ⟨hclassify, hutf, fun h => ?_⟩
  rw [hclassify] at h
  exact absurd (hutf.unique h) (by decide)

end CompSys.A0.Classification
