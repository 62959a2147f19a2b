import CompSys.A5.Objdump
import CompSys.A5.FlatMemory
import Mathlib.Data.List.TakeWhile

/-! # Loading a row of a dump

The four strings of a row are its groups of bytes, and where it has fewer than four, the words of the column of
characters. `count_hexes` stops at the first character that is no digit. So a row whose last group is not
complete is read as it is, and a row of 4, 8 or 12 bytes is followed by as many bytes as there are pairs of
digits in front of its first word (`readData_row`). -/

namespace CompSys.A5.LoadRows

open CompSys.Lib.Scanf CompSys.Lib.Store CompSys.Lib.Bytes CompSys.A5.PagedMemory CompSys.A5.ReadExec
open CompSys.A5.Objdump CompSys.A5.FlatMemory

variable {a : Word} {s t : List Char} {bytes row : List Byte} {tail : List (List Char)}

/-! ### Counting digits -/

/-- The number of digits in front of a string. -/
def lead (s : List Char) : ℕ := (s.takeWhile isHex).length

theorem countString_eq : ∀ (s : List Char) (n num : ℕ),
    countString s n num = if n ≤ lead s then .inl (num + n) else .inr ((num + lead s) / 2)
  | s, 0, num => by rw [countString, if_pos (Nat.zero_le _), Nat.add_zero]
  | [], n + 1, num => rfl
  | c :: s, n + 1, num => by
    by_cases hc : isHex c = true
    · have hlead : lead (c :: s) = lead s + 1 := by
        rw [lead, List.takeWhile_cons_of_pos hc, List.length_cons, lead]
      rw [countString, if_pos hc, countString_eq s n, hlead]
      simp only [Nat.add_le_add_iff_right, Nat.add_assoc, Nat.add_comm 1]
    · have hlead : lead (c :: s) = 0 := by
        rw [lead, List.takeWhile_cons_of_neg hc, List.length_nil]
      rw [countString, if_neg hc, hlead, if_neg (Nat.not_succ_le_zero n), Nat.add_zero]

theorem countLoop_cons (num : ℕ) : countLoop (s :: tail) num =
    if 8 ≤ lead s then countLoop tail (num + 8) else (num + lead s) / 2 := by
  rw [countLoop, countString_eq]
  by_cases h : 8 ≤ lead s
  · rw [if_pos h, if_pos h]
  · rw [if_neg h, if_neg h]

theorem isHex_digit : ∀ n < 16, isHex (digit n) = true ∧ toHex (digit n) = n := by decide

theorem lead_of_digits (h : ∀ c ∈ s, ∃ d < 16, c = digit d) : lead s = s.length := by
  have hall : s.takeWhile isHex = s := List.takeWhile_eq_self_iff.mpr fun c hc => by
    obtain ⟨d, hd, rfl⟩ := h c hc
    exact (isHex_digit d hd).1
  rw [lead, hall]

/-! ### Groups -/

/-- The groups of a row. -/
def groupTexts (bytes : List Byte) : List (List Char) :=
  if bytes = [] then [] else (bytes.take 4).flatMap byteText :: groupTexts (bytes.drop 4)
termination_by bytes.length
decreasing_by
  have : 0 < bytes.length := List.length_pos_iff.mpr ‹_›
  rw [List.length_drop]
  omega

@[simp] theorem groupTexts_nil : groupTexts [] = [] := by
  rw [groupTexts, if_pos rfl]

theorem groupTexts_cons (h : bytes ≠ []) :
    groupTexts bytes = (bytes.take 4).flatMap byteText :: groupTexts (bytes.drop 4) := by
  rw [groupTexts, if_neg h]

/-- Four bytes at a time. -/
theorem groups_induction {P : List Byte → Prop} (nil : P [])
    (step : ∀ bytes, bytes ≠ [] → P (bytes.drop 4) → P bytes) (bytes : List Byte) : P bytes := by
  induction hn : bytes.length using Nat.strong_induction_on generalizing bytes with
  | _ n ih =>
  by_cases h : bytes = []
  · rw [h]
    exact nil
  · have hpos : 0 < bytes.length := List.length_pos_iff.mpr h
    refine step bytes h (ih _ ?_ _ rfl)
    rw [List.length_drop]
    omega

theorem length_groupTexts (bytes : List Byte) : (groupTexts bytes).length = (bytes.length + 3) / 4 := by
  induction bytes using groups_induction with
  | nil => rw [groupTexts_nil]; rfl
  | step bytes h ih =>
    have hpos : 0 < bytes.length := List.length_pos_iff.mpr h
    rw [groupTexts_cons h, List.length_cons, ih, List.length_drop]
    omega

theorem length_byteTexts (bytes : List Byte) : (bytes.flatMap byteText).length = 2 * bytes.length := by
  induction bytes with
  | nil => rfl
  | cons b bytes ih =>
    rw [List.flatMap_cons, List.length_append, ih, byteText, length_hexField, List.length_cons]
    omega

theorem mem_byteTexts {c : Char} (h : c ∈ bytes.flatMap byteText) : ∃ d < 16, c = digit d := by
  obtain ⟨b, _, hc⟩ := List.mem_flatMap.mp h
  exact mem_hexField hc

/-- **The digits of the groups**: an incomplete group ends the count. -/
theorem countLoop_groups (bytes : List Byte) (tail : List (List Char)) (num : ℕ) :
    countLoop (groupTexts bytes ++ tail) num =
      if bytes.length % 4 = 0 then countLoop tail (num + 2 * bytes.length)
      else (num + 2 * bytes.length) / 2 := by
  induction bytes using groups_induction generalizing num with
  | nil => rw [groupTexts_nil]; rfl
  | step bytes h ih =>
    have hpos : 0 < bytes.length := List.length_pos_iff.mpr h
    have hlead : lead ((bytes.take 4).flatMap byteText) = 2 * min 4 bytes.length := by
      rw [lead_of_digits fun c hc => mem_byteTexts hc, length_byteTexts, List.length_take]
    rw [groupTexts_cons h, List.cons_append, countLoop_cons, hlead]
    rcases Nat.lt_or_ge bytes.length 4 with hlt | hge
    · rw [if_neg (by omega), if_neg (by omega), min_eq_right hlt.le]
    · rw [if_pos (by omega), ih, List.length_drop]
      have hmod : (bytes.length - 4) % 4 = bytes.length % 4 := by omega
      have hnum : num + 8 + 2 * (bytes.length - 4) = num + 2 * bytes.length := by omega
      rw [hmod, hnum]

/-! ### The bytes of the groups -/

theorem byteText_eq (b : Byte) : byteText b = [digit (b.toNat / 16), digit (b.toNat % 16)] := by
  have hb := b.isLt
  simp only [byteText, hexField, List.nil_append, List.singleton_append]
  rw [Nat.mod_eq_of_lt (show b.toNat / 16 < 16 by omega)]

theorem dataAt_zero (b : Byte) (r : List Char) : dataAt ((byteText b ++ r) :: tail) 0 = b.toNat := by
  have hb := b.isLt
  have hhigh := (isHex_digit (b.toNat / 16) (by omega)).2
  have hlow := (isHex_digit (b.toNat % 16) (Nat.mod_lt _ (by omega))).2
  simp only [dataAt, byteText_eq, Nat.zero_div, List.getD_cons_zero, Nat.zero_mod, Nat.zero_mul, List.cons_append,
    List.nil_append, Nat.zero_add, List.getD_cons_succ, toHex2, hhigh, hlow]
  omega

/-- The next byte of a group. -/
theorem dataAt_succ {i : ℕ} (b : Byte) (r : List Char) (hi : i < 3) :
    dataAt ((byteText b ++ r) :: tail) (i + 1) = dataAt (r :: tail) i := by
  have hdiv : (i + 1) / 4 = 0 := by omega
  have hdiv' : i / 4 = 0 := by omega
  have hmod : (i + 1) % 4 * 2 = i % 4 * 2 + 2 := by omega
  simp only [dataAt, byteText_eq, hdiv, hdiv', hmod, List.getD_cons_zero, List.cons_append, List.nil_append,
    List.getD_cons_succ]

/-- The next group. -/
theorem dataAt_add_four (i : ℕ) : dataAt (s :: tail) (i + 4) = dataAt tail i := by
  have hdiv : (i + 4) / 4 = i / 4 + 1 := by omega
  have hmod : (i + 4) % 4 = i % 4 := by omega
  simp only [dataAt, hdiv, hmod, List.getD_cons_succ]

theorem dataAt_group : ∀ {bytes : List Byte} {i : ℕ} (hi : i < bytes.length), i < 4 →
    dataAt (bytes.flatMap byteText :: tail) i = bytes[i].toNat
  | b :: bytes, 0, _, _ => dataAt_zero b _
  | b :: bytes, i + 1, hi, hlt => by
    rw [List.flatMap_cons, dataAt_succ b _ (by omega), List.getElem_cons_succ]
    exact dataAt_group (Nat.lt_of_succ_lt_succ hi) (by omega)

/-- **The bytes of the groups are read back.** -/
theorem dataAt_groups {i : ℕ} (hi : i < bytes.length) : dataAt (groupTexts bytes ++ tail) i = bytes[i].toNat := by
  induction bytes using groups_induction generalizing i with
  | nil => exact absurd hi (Nat.not_lt_zero i)
  | step bytes h ih =>
    rw [groupTexts_cons h, List.cons_append]
    rcases Nat.lt_or_ge i 4 with hlt | hge
    · rw [dataAt_group (by rw [List.length_take]; omega) hlt, List.getElem_take]
    · obtain ⟨j, rfl⟩ := Nat.exists_eq_add_of_le' hge
      rw [dataAt_add_four, ih (by rw [List.length_drop]; omega), List.getElem_drop]
      congr 2
      omega

theorem dataAt_behind {i : ℕ} (h4 : bytes.length % 4 = 0) :
    dataAt (groupTexts bytes ++ tail) (bytes.length + i) = dataAt tail i := by
  induction bytes using groups_induction with
  | nil => rw [groupTexts_nil, List.nil_append, List.length_nil, Nat.zero_add]
  | step bytes h ih =>
    have hpos : 0 < bytes.length := List.length_pos_iff.mpr h
    have hshift : bytes.length + i = (bytes.drop 4).length + i + 4 := by
      rw [List.length_drop]
      omega
    rw [groupTexts_cons h, List.cons_append, hshift, dataAt_add_four]
    exact ih (by rw [List.length_drop]; omega)

/-! ### The strings of a row -/

theorem groups_eq (bytes : List Byte) : groups bytes = (groupTexts bytes).flatMap fun g => ' ' :: g := by
  induction bytes using groups_induction with
  | nil => rw [groups, if_pos rfl, groupTexts_nil]; rfl
  | step bytes h ih => rw [groups, if_neg h, groupTexts_cons h, List.flatMap_cons, ih]

/-- What starts with a blank, if it has anything. -/
def StartsBlank (s : List Char) : Prop := ∀ c ∈ s.head?, isSpace c = true

theorem startsBlank_groups (bytes : List Byte) (h : StartsBlank s) : StartsBlank (groups bytes ++ s) := by
  rw [groups]
  split_ifs
  · exact h
  · intro c hc
    obtain rfl := Option.some.inj hc
    rfl

theorem isSpace_digit {d : ℕ} (hd : d < 16) : isSpace (digit d) = false := (digit_facts d hd).2.2.2.2.2

/-- **The groups are the first strings.** -/
theorem scan_groups (ds : List Directive) (hs : StartsBlank s) : ∀ (n : ℕ) (bytes : List Byte),
    (groupTexts bytes).length ≤ n →
    scan (List.replicate n (.str none) ++ ds) (groups bytes ++ s) = (groupTexts bytes).map .str ++
      scan (List.replicate (n - (groupTexts bytes).length) (.str none) ++ ds) s := by
  intro n bytes
  induction bytes using groups_induction generalizing n with
  | nil =>
    intro _
    rw [groups, if_pos rfl, groupTexts_nil]
    rfl
  | step bytes h ih =>
    rw [groupTexts_cons h, List.length_cons]
    intro hn
    obtain ⟨n, rfl⟩ := Nat.exists_eq_add_of_le' (show 1 ≤ n by omega)
    have hne : (bytes.take 4).flatMap byteText ≠ [] := by
      have hpos : 0 < bytes.length := List.length_pos_iff.mpr h
      rw [← List.length_pos_iff, length_byteTexts, List.length_take]
      omega
    have hword : ∀ c ∈ (bytes.take 4).flatMap byteText, isSpace c = false := fun c hc => by
      obtain ⟨d, hd, rfl⟩ := mem_byteTexts hc
      exact isSpace_digit hd
    have hscan : scan (.str none :: (List.replicate n (.str none) ++ ds))
        ([' '] ++ ((bytes.take 4).flatMap byteText ++ (groups (bytes.drop 4) ++ s))) = _ :=
      scan_str_word isSpace_blank hword hne (startsBlank_groups (bytes.drop 4) hs)
    rw [groups, if_neg h, List.replicate_succ, List.cons_append, List.cons_append, List.cons_append, List.append_assoc,
      Nat.add_sub_add_right, List.map_cons, List.cons_append]
    exact hscan.trans (congrArg _ (ih n (by omega)))

/-- The first word of a string. -/
def firstWord (s : List Char) : List Char := word (skip s)

theorem firstWord_spaces (n : ℕ) : firstWord (List.replicate n ' ' ++ s) = firstWord s := by
  rw [firstWord, skip_spaces, firstWord]

theorem skip_append_of_ne (h : skip s ≠ []) : skip (s ++ t) = skip s ++ t := by
  rw [skip, List.dropWhile_append, if_neg (by simpa [skip] using h), skip]

/-- Blanks behind a string add no word and nothing to its first word. -/
theorem firstWord_append_spaces (s : List Char) (n : ℕ) : firstWord (s ++ List.replicate n ' ') = firstWord s := by
  have hspaces : skip (List.replicate n ' ') = [] := by
    have := skip_spaces (s := []) n
    rwa [List.append_nil] at this
  by_cases h : skip s = []
  · have hskip : skip (s ++ List.replicate n ' ') = [] := by
      rw [skip, List.dropWhile_append, if_pos (by simpa [skip] using h)]
      exact hspaces
    rw [firstWord, firstWord, hskip, h]
  · have hword : (List.replicate n ' ').takeWhile (fun c => !isSpace c) = [] := by
      rcases n with _ | n
      · rfl
      · rfl
    rw [firstWord, firstWord, skip_append_of_ne h, Lib.Scanf.word, List.takeWhile_append, hword, List.append_nil]
    split_ifs with hall
    · exact (List.IsPrefix.eq_of_length (List.takeWhile_prefix _) hall).symm
    · rfl

/-- **The column of characters**: its first word, if there is one, is the next string. -/
theorem scan_first {ds : List Directive} : scan (.str none :: ds) s =
    if firstWord s = [] then [] else .str (firstWord s) :: scan ds ((skip s).drop (firstWord s).length) := by
  rw [scan, scanStr, firstWord]
  split_ifs with h
  · rfl
  · rfl

/-! ### Behind a row -/

/-- The row as characters. -/
def asText (row : List Byte) : List Char := row.map printable

/-- **What is written behind a row**: the pairs of digits in front of the first word of its characters. -/
def overrun (row : List Byte) : List Byte :=
  let w := firstWord (asText row)
  if row.length % 4 = 0 ∧ row.length < 16 then
    (List.range (min 8 (lead w) / 2)).map fun j =>
      BitVec.ofNat 8 (toHex2 (w.getD (2 * j) '\x00') (w.getD (2 * j + 1) '\x00'))
  else []

/-- The end of `dataFormat`. -/
def literals : List Directive :=
  [.lit '*', .lit 'c', .lit '[', .blank, .lit ']', .lit '*', .lit 'c', .lit '[', .lit ']']

theorem scan_literals (s : List Char) : scan literals s = [] :=
  scan_quiet (by simp [literals]) s

/-- What stands behind the groups of a row. -/
def column (row : List Byte) : List Char :=
  List.replicate (36 - (groups row).length) ' ' ++ ' ' :: ' ' :: padTo 16 (asText row)

/-- The characters stand between blanks. -/
theorem column_eq (row : List Byte) : column row = List.replicate (36 - (groups row).length + 2) ' ' ++
    (asText row ++ List.replicate (16 - (asText row).length) ' ') := by
  rw [column, padTo, List.replicate_add, List.append_assoc]
  rfl

theorem firstWord_column (row : List Byte) : firstWord (column row) = firstWord (asText row) := by
  rw [column_eq, firstWord_spaces, firstWord_append_spaces]

theorem startsBlank_column (row : List Byte) : StartsBlank (column row) := by
  intro c hc
  rw [column] at hc
  rcases h : 36 - (groups row).length with _ | n
  · rw [h] at hc
    obtain rfl := Option.some.inj hc
    rfl
  · rw [h] at hc
    obtain rfl := Option.some.inj hc
    rfl

/-- The strings behind the groups. -/
def behind (row : List Byte) : List (List Char) :=
  (scan (List.replicate (4 - (groupTexts row).length) (.str none) ++ literals) (column row)).map itemText

theorem lead_le (s : List Char) : lead s ≤ s.length := (List.takeWhile_prefix isHex).length_le

theorem length_firstWord_le (s : List Char) : (firstWord s).length ≤ s.length :=
  (List.takeWhile_prefix _).length_le.trans (List.dropWhile_suffix _).length_le

/-- Where the first word is all the characters, only blanks are behind it. -/
theorem drop_firstWord (hne : asText row ≠ []) (h : (firstWord (asText row)).length = (asText row).length) :
    ∃ n, (skip (column row)).drop (firstWord (asText row)).length = List.replicate n ' ' := by
  have hle : (skip (asText row)).length ≤ (asText row).length := (List.dropWhile_suffix _).length_le
  have hge : (firstWord (asText row)).length ≤ (skip (asText row)).length := (List.takeWhile_prefix _).length_le
  have hskip : skip (asText row) = asText row :=
    (List.dropWhile_suffix _).eq_of_length (show (skip (asText row)).length = _ by omega)
  have hcolumn : skip (column row) = asText row ++ List.replicate (16 - (asText row).length) ' ' := by
    rw [column_eq, skip_spaces, skip_append_of_ne (by rwa [hskip]), hskip]
  exact ⟨_, by rw [hcolumn, h, List.drop_left]⟩

/-- **The strings behind the groups**: the first word, if there is one, and nothing behind it if it can have eight
digits. -/
theorem behind_eq (hlen : row.length < 16) (h4 : row.length % 4 = 0) (hpos : 0 < row.length) :
    (firstWord (asText row) = [] ∧ behind row = []) ∨
      ∃ more, behind row = firstWord (asText row) :: more ∧ (8 ≤ lead (firstWord (asText row)) → more = []) := by
  obtain ⟨n, hn⟩ := Nat.exists_eq_add_of_le' (show 1 ≤ 4 - (groupTexts row).length by
    rw [length_groupTexts]; omega)
  have htext : (asText row).length = row.length := List.length_map _
  rw [behind, hn, List.replicate_succ, List.cons_append, scan_first, firstWord_column]
  split_ifs with h
  · exact Or.inl ⟨h, rfl⟩
  · refine Or.inr ⟨_, rfl, fun h8 => ?_⟩
    have hlead := lead_le (firstWord (asText row))
    have hword := length_firstWord_le (asText row)
    rw [length_groupTexts] at hn
    rcases n with _ | n
    · rw [List.replicate_zero, List.nil_append, scan_literals]
      rfl
    · have hne : asText row ≠ [] := List.length_pos_iff.mp (by omega)
      obtain ⟨k, hk⟩ := drop_firstWord hne (by omega)
      rw [hk, List.replicate_succ, List.cons_append,
        scan_str_nil fun c hc => by rw [List.eq_of_mem_replicate hc]; rfl]
      rfl

/-! ### A row -/

/-- The strings that are read from a row. -/
def rowStrings (row : List Byte) : List (List Char) := groupTexts row ++ behind row

theorem lead_nil : lead [] = 0 := rfl

/-- **`count_hexes` of a row**: the bytes of the row and those that are written behind it. -/
theorem countHexes_row (hpos : 0 < row.length) (hlen : row.length ≤ 16) :
    countHexes (rowStrings row) = row.length + (overrun row).length := by
  rw [countHexes, rowStrings, countLoop_groups, overrun]
  by_cases h4 : row.length % 4 = 0
  · rw [if_pos h4]
    by_cases h16 : row.length < 16
    · rw [if_pos ⟨h4, h16⟩, List.length_map, List.length_range]
      rcases behind_eq h16 h4 hpos with ⟨hword, hbehind⟩ | ⟨more, hbehind, hmore⟩
      · rw [hbehind, hword, lead_nil, countLoop]
        omega
      · rw [hbehind, countLoop_cons]
        split_ifs with h8
        · rw [hmore h8, countLoop]
          omega
        · omega
    · have hfull : row.length = 16 := by omega
      have hbehind : behind row = [] := by
        rw [behind, length_groupTexts, hfull, List.replicate_zero, List.nil_append, scan_literals]
        rfl
      rw [hbehind, countLoop, if_neg fun h => h16 h.2, List.length_nil]
      omega
  · rw [if_neg h4, if_neg fun h => h4 h.1, List.length_nil]
    omega

/-- **What is written**: the bytes of the row, and those behind it. -/
theorem data_row (hpos : 0 < row.length) :
    ((List.range (row.length + (overrun row).length)).map fun i => BitVec.ofNat 8 (dataAt (rowStrings row) i)) =
      row ++ overrun row := by
  rw [List.range_add, List.map_append, List.map_map]
  congr 1
  · refine List.ext_getElem (by simp) fun i hi hi' => ?_
    rw [List.getElem_map, List.getElem_range, rowStrings, dataAt_groups hi', BitVec.ofNat_toNat,
      BitVec.setWidth_eq]
  · by_cases h : row.length % 4 = 0 ∧ row.length < 16
    · have hoverrun : overrun row = _ := if_pos h
      rw [hoverrun, List.length_map, List.length_range]
      refine List.map_congr_left fun j hj => ?_
      rw [List.mem_range] at hj
      rcases behind_eq h.2 h.1 hpos with ⟨hword, _⟩ | ⟨more, hbehind, _⟩
      · rw [hword, lead_nil] at hj
        omega
      · have hdiv : j / 4 = 0 := by omega
        have hmod : j % 4 * 2 = 2 * j := by omega
        rw [Function.comp_apply, rowStrings, dataAt_behind h.1, hbehind]
        simp only [dataAt, hdiv, hmod, List.getD_cons_zero]
    · have hoverrun : overrun row = [] := if_neg h
      rw [hoverrun]
      rfl

theorem succ_add_ofNat (a : Word) (n : ℕ) : a + 1 + BitVec.ofNat 32 n = a + BitVec.ofNat 32 (n + 1) := by
  rw [BitVec.ofNat_add, BitVec.add_assoc, BitVec.add_comm (BitVec.ofNat 32 n)]
  rfl

/-- Values at consecutive addresses. -/
def stretch : Word → List Byte → List (Word × Byte)
  | _, [] => []
  | a, v :: vs => (a, v) :: stretch (a + 1) vs

theorem bytes_writeData (hexes : List (List Char)) (n i : ℕ) (mem : Memory) (a : Word) :
    FlatMemory.bytes (writeData hexes mem a i n) = applyWrites (FlatMemory.bytes mem)
      (stretch a ((List.range' i n).map fun j => BitVec.ofNat 8 (dataAt hexes j))) := by
  induction n generalizing i mem a with
  | zero => rfl
  | succ n ih =>
    have hbyte : byteOf (BitVec.ofNat 32 (dataAt hexes i)) 0 = BitVec.ofNat 8 (dataAt hexes i) := by
      unfold byteOf
      refine BitVec.eq_of_toNat_eq ?_
      simp only [Nat.mul_zero, BitVec.extractLsb'_toNat, BitVec.toNat_ofNat, Nat.shiftRight_zero]
      exact Nat.mod_mod_of_dvd _ (by decide)
    rw [writeData, ih, bytes_memoryWrB, List.range'_succ, List.map_cons, stretch, applyWrites_cons, writesB, hbyte,
      applyWrites_cons, applyWrites_nil]

theorem scan_row {width addr : ℕ} (hlen : row.length ≤ 16) (hwidth : 0 < width) (haddr : addr < 16 ^ width) :
    scan dataFormat (rowLine width addr row) = .hex (BitVec.ofNat 32 addr) :: ((groupTexts row).map .str ++
      scan (List.replicate (4 - (groupTexts row).length) (.str none) ++ literals) (column row)) := by
  have hline : rowLine width addr row = [' '] ++ (hexField width addr ++ (groups row ++ column row)) := by
    simp only [rowLine, padTo, column, asText, List.append_assoc, List.singleton_append]
  have hends : EndsNumber (groups row ++ column row) :=
    endsNumber_of_space (startsBlank_groups row (startsBlank_column row))
  have hgroups := scan_groups literals (startsBlank_column row) 4 row (by rw [length_groupTexts]; omega)
  have hformat : dataFormat = .blank :: .hex :: .blank :: (List.replicate 4 (.str none) ++ literals) := rfl
  rw [hline, hformat, scan_blank_hex, scan_hex_hexField isSpace_blank hwidth haddr hends, ← hgroups,
    List.replicate_succ, List.cons_append, scan_blank_str]

/-- **A row is loaded**, and what its characters add. -/
theorem readData_row (mem : Memory) {width addr : ℕ} (hpos : 0 < row.length) (hlen : row.length ≤ 16)
    (hwidth : 0 < width) (haddr : addr < 16 ^ width) : ∃ mem', readData mem (rowLine width addr row) = some mem' ∧
      FlatMemory.bytes mem' =
        applyWrites (FlatMemory.bytes mem) (stretch (BitVec.ofNat 32 addr) (row ++ overrun row)) := by
  have hstrings : ((groupTexts row).map Item.str ++
      scan (List.replicate (4 - (groupTexts row).length) (.str none) ++ literals) (column row)).map itemText =
        rowStrings row := by
    rw [List.map_append, List.map_map, rowStrings, behind]
    congr 1
    exact List.map_id'' (fun _ => rfl) _
  have hcount := countHexes_row hpos hlen
  refine ⟨writeData (rowStrings row) mem (BitVec.ofNat 32 addr) 0 (row.length + (overrun row).length), ?_, ?_⟩
  · simp only [readData, scan_row hlen hwidth haddr, hstrings, hcount]
    rw [if_neg (by omega)]
  · rw [bytes_writeData, ← List.range_eq_range', data_row hpos]

end CompSys.A5.LoadRows
