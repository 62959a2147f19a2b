import CompSys.A5.LoadLines

/-! # Loading the text

Every line of the text fits the buffer, so `fgets` returns the lines one after the other (`fgetsAll_lines`). The
loader then writes the sections in the order of the dump, each with what its last row adds, and after them the
instructions that are listed (`readLines_text`). -/

namespace CompSys.A5.LoadText

open CompSys.Lib.Scanf CompSys.Lib.Store CompSys.A5.PagedMemory CompSys.A5.AssemblyTable CompSys.A5.ReadExec
open CompSys.A5.Objdump CompSys.A5.LoadRows CompSys.A5.LoadLines CompSys.A5.FlatMemory

variable {st : Loaded} {l : List Char}

/-! ### Lines -/

/-- A line that `fgets` returns as it is. -/
structure Short (l : List Char) : Prop where
  line : '\n' ∉ l
  length : l.length ≤ 1022

theorem fgetsAll_line {room : ℕ} {cs : List Char} (hl : '\n' ∉ l) (hroom : l.length + 1 ≤ room) (pre : List Char) :
    fgetsAll room pre (l ++ '\n' :: cs) = (pre ++ l ++ ['\n']) :: fgetsAll 1023 [] cs := by
  induction l generalizing room pre with
  | nil => rw [List.nil_append, fgetsAll, if_pos (Or.inl rfl), List.append_nil]
  | cons c l ih =>
    rw [List.mem_cons, not_or] at hl
    rw [List.length_cons] at hroom
    rw [List.cons_append, fgetsAll, if_neg (by rintro (h | h); exacts [hl.1 h.symm, by omega]), ih hl.2 (by omega),
      List.append_assoc pre, List.singleton_append]

/-- **The buffers are the lines.** -/
theorem fgetsAll_lines {L : List (List Char)} (h : ∀ l ∈ L, Short l) :
    fgetsAll 1023 [] (L.flatMap (· ++ ['\n'])) = L.map (· ++ ['\n']) := by
  induction L with
  | nil => rfl
  | cons l L ih =>
    rw [List.forall_mem_cons] at h
    have hlen := h.1.length
    rw [List.flatMap_cons, List.append_assoc, List.singleton_append, fgetsAll_line h.1.line (by omega), ih h.2]
    rfl

theorem chomp_line (l : List Char) : chomp (l ++ ['\n']) = l := by
  rw [chomp, List.getLast?_concat, if_pos rfl, List.dropLast_concat]

/-- The lines of a text, one after the other. -/
def readAll (st : Loaded) : List (List Char) → Except Stop Loaded
  | [] => .ok st
  | l :: L => (readFormats st l).bind fun st => readAll st L

/-- The lines are loaded where no string runs over its room. -/
theorem readLines_ok_iff {room : ℕ} {st' : Loaded} (L : List (List Char)) (st : Loaded) :
    readLines room st (L.map (· ++ ['\n'])) = .ok st' ↔
      (∀ l ∈ L, fitsHexes room l = true) ∧ readAll st L = .ok st' := by
  induction L generalizing st with
  | nil => simp [readLines, readAll]
  | cons l L ih =>
    rw [List.map_cons, readLines, chomp_line, readAll, readLine, List.forall_mem_cons]
    by_cases hl : fitsHexes room l = true
    · rw [if_pos hl]
      rcases readFormats st l with e | st1
      · exact iff_of_false nofun fun h => nomatch h.2
      · simp only [Except.bind, hl, true_and]
        exact ih st1
    · rw [if_neg hl]
      exact iff_of_false nofun fun h => hl h.1.1

theorem readAll_append (K L : List (List Char)) (st : Loaded) :
    readAll st (K ++ L) = (readAll st K).bind fun st => readAll st L := by
  induction K generalizing st with
  | nil => rfl
  | cons l K ih =>
    rw [List.cons_append, readAll, readAll]
    rcases readFormats st l with e | st
    · rfl
    · exact ih st

theorem readAll_cons_ok {L : List (List Char)} {st' : Loaded} (h : readFormats st l = .ok st') :
    readAll st (l :: L) = readAll st' L := by
  rw [readAll, h]
  rfl

/-! ### The dump -/

/-- The last row of some bytes. -/
def lastRow (bytes : List Byte) : List Byte := bytes.drop ((bytes.length - 1) / 16 * 16)

/-- **What is written behind a section.** -/
def overrunOf (s : Section) : List Byte := overrun (lastRow s.bytes)

/-- The bytes of a section, and those behind it. -/
def sectionWrites (s : Section) : List (Word × Byte) := stretch s.start (s.bytes ++ overrunOf s)

theorem stretch_append (u v : List Byte) (a : Word) :
    stretch a (u ++ v) = stretch a u ++ stretch (a + BitVec.ofNat 32 u.length) v := by
  induction u generalizing a with
  | nil => rw [List.nil_append, List.length_nil, stretch, List.nil_append, BitVec.add_zero]
  | cons b u ih =>
    rw [List.cons_append, stretch, stretch, ih, List.length_cons, succ_add_ofNat, List.cons_append]

theorem rowLines_cons {bytes : List Byte} (h : bytes ≠ []) (width addr : ℕ) : rowLines width addr bytes =
    rowLine width addr (bytes.take 16) :: rowLines width (addr + 16) (bytes.drop 16) := by
  rw [rowLines, if_neg h]

theorem rowLines_nil (width addr : ℕ) : rowLines width addr [] = [] := by
  rw [rowLines, if_pos rfl]

/-- **The rows of a section.** -/
theorem readAll_rows (st : Loaded) {width addr : ℕ} {bytes : List Byte} (hwidth : 0 < width) (hne : bytes ≠ [])
    (haddr : addr + bytes.length ≤ 16 ^ width) : ∃ mem', readAll st (rowLines width addr bytes) =
      .ok { st with mem := mem' } ∧ FlatMemory.bytes mem' = applyWrites (FlatMemory.bytes st.mem)
        (stretch (BitVec.ofNat 32 addr) (bytes ++ overrun (lastRow bytes))) := by
  induction hn : bytes.length using Nat.strong_induction_on generalizing bytes addr st with
  | _ n ih =>
  subst hn
  have hpos : 0 < bytes.length := List.length_pos_iff.mpr hne
  have htake : (bytes.take 16).length = min 16 bytes.length := List.length_take
  have hrow : 0 < (bytes.take 16).length := by omega
  obtain ⟨mem1, hread, hbytes⟩ := readFormats_row st hrow (by omega) hwidth (show addr < 16 ^ width by omega)
  rw [rowLines_cons hne, readAll_cons_ok hread]
  rcases Nat.lt_or_ge 16 bytes.length with hlong | hshort
  · -- a full row adds nothing
    have hfull : overrun (bytes.take 16) = [] := if_neg (by omega)
    have hlast : lastRow bytes = lastRow (bytes.drop 16) := by
      rw [lastRow, lastRow, List.drop_drop, List.length_drop]
      congr 1
      omega
    have hrest : bytes.drop 16 ≠ [] := by
      rw [← List.length_pos_iff, List.length_drop]
      omega
    have hfit : addr + 16 + (bytes.drop 16).length ≤ 16 ^ width := by
      rw [List.length_drop]
      omega
    obtain ⟨mem2, hread2, hbytes2⟩ := ih (bytes.drop 16).length (by rw [List.length_drop]; omega)
      { st with mem := mem1 } hrest hfit rfl
    refine ⟨mem2, hread2, ?_⟩
    have hjoin : bytes ++ overrun (lastRow bytes) =
        bytes.take 16 ++ (bytes.drop 16 ++ overrun (lastRow (bytes.drop 16))) := by
      rw [hlast, ← List.append_assoc, List.take_append_drop]
    rw [hbytes2, hbytes, hfull, List.append_nil, hjoin, stretch_append (bytes.take 16), applyWrites_append, htake,
      min_eq_left hlong.le, BitVec.ofNat_add]
  · have hlast : lastRow bytes = bytes := by
      rw [lastRow, show (bytes.length - 1) / 16 = 0 by omega, Nat.zero_mul, List.drop_zero]
    rw [List.take_of_length_le hshort] at hbytes
    rw [List.drop_of_length_le hshort, rowLines_nil, hlast]
    exact ⟨mem1, rfl, hbytes⟩

/-- **A section of the dump.** -/
theorem readAll_section (st : Loaded) (s : Section) : ∃ mem', readAll st (dumpLines s) = .ok { st with mem := mem' } ∧
    FlatMemory.bytes mem' = applyWrites (FlatMemory.bytes st.mem) (sectionWrites s) := by
  by_cases hne : s.bytes = []
  · have hnone : sectionWrites s = [] := by
      have hrow : overrunOf s = [] := by
        rw [overrunOf, hne]
        decide
      rw [sectionWrites, hne, hrow]
      rfl
    exact ⟨st.mem, by rw [dumpLines, if_pos hne]; rfl, by rw [hnone, applyWrites_nil]⟩
  · have hpos : 0 < s.bytes.length := List.length_pos_iff.mpr hne
    have hlast := lt_pow_digits (s.start.toNat + s.bytes.length - 1)
    have hwidth : 16 ^ digits (s.start.toNat + s.bytes.length - 1) ≤
        16 ^ max 4 (digits (s.start.toNat + s.bytes.length - 1)) :=
      Nat.pow_le_pow_right (by omega) (le_max_right _ _)
    have hfit : s.start.toNat + s.bytes.length ≤ 16 ^ max 4 (digits (s.start.toNat + s.bytes.length - 1)) := by
      omega
    obtain ⟨mem', hread, hbytes⟩ := readAll_rows st (by omega) hne hfit
    rw [dumpLines, if_neg hne, readAll_cons_ok (readFormats_contents _)]
    refine ⟨mem', hread, ?_⟩
    rw [hbytes, BitVec.ofNat_toNat, BitVec.setWidth_eq]
    rfl

/-- **The dump.** -/
theorem readAll_sections (sections : List Section) (st : Loaded) :
    ∃ mem', readAll st (sections.flatMap dumpLines) = .ok { st with mem := mem' } ∧
      FlatMemory.bytes mem' = applyWrites (FlatMemory.bytes st.mem) (sections.flatMap sectionWrites) := by
  induction sections generalizing st with
  | nil => exact ⟨st.mem, rfl, rfl⟩
  | cons s sections ih =>
    obtain ⟨mem1, hread1, hbytes1⟩ := readAll_section st s
    obtain ⟨mem2, hread2, hbytes2⟩ := ih { st with mem := mem1 }
    refine ⟨mem2, ?_, ?_⟩
    · rw [List.flatMap_cons, readAll_append, hread1]
      exact hread2
    · rw [hbytes2, hbytes1, List.flatMap_cons, applyWrites_append]

/-! ### The listing -/

variable {text : Section}

/-- The bytes that a line of the listing writes. -/
def listedWrites (text : Section) : Listed text → List (Word × Byte)
  | .insn offset _ _ _ _ _ => writesW (insnAddr text offset) (insnWord text offset)
  | _ => []

/-- The assembly table after the lines of a listing. -/
def fillAssembly (as : Assembly) : List (Listed text) → Option Assembly
  | [] => some as
  | .insn offset _ _ disassembly _ _ :: listing =>
    if fields disassembly = [] then fillAssembly as listing
    else (assemblySet as (insnAddr text offset) (insnText (fields disassembly))).bind fun as => fillAssembly as listing
  | _ :: listing => fillAssembly as listing

/-- The start address after the lines of a listing. -/
def lastStart (start : Word) : List (Listed text) → Word
  | [] => start
  | .symbol addr name _ :: listing => lastStart (if name = "_start".toList then addr else start) listing
  | _ :: listing => lastStart start listing

theorem toNat_insnAddr {offset : ℕ} (h : offset + 4 ≤ text.bytes.length) :
    (insnAddr text offset).toNat = text.start.toNat + offset := by
  have hfits := text.fits
  rw [insnAddr, BitVec.toNat_add, BitVec.toNat_ofNat]
  omega

section Insn
variable {offset : ℕ} (hin : offset + 4 ≤ text.bytes.length) (h4 : (text.start.toNat + offset) % 4 = 0)
include hin h4

/-- The word of an instruction is written. -/
theorem memoryWrW_insn (mem : Memory) (a : Word) : ∃ mem', memoryWrW mem (insnAddr text offset) a = .ok mem' ∧
    FlatMemory.bytes mem' = applyWrites (FlatMemory.bytes mem) (writesW (insnAddr text offset) a) :=
  memoryWrW_ok mem (by rw [toNat_insnAddr hin]; exact h4) a

/-- An instruction without a text. -/
theorem readInsn_nil (st : Loaded) (a : Word) :
    ∃ mem', readInsn st (insnAddr text offset) a [] = .ok { st with mem := mem' } ∧
      FlatMemory.bytes mem' = applyWrites (FlatMemory.bytes st.mem) (writesW (insnAddr text offset) a) := by
  obtain ⟨mem', hwrite, hbytes⟩ := memoryWrW_insn hin h4 st.mem a
  exact ⟨mem', by simp only [readInsn, hwrite, if_true], hbytes⟩

/-- **An instruction with its text**: without a result if the assembly table has none. -/
theorem readInsn_set (st : Loaded) (a : Word) {strings : List (List Char)} (hne : strings ≠ []) :
    (assemblySet st.as (insnAddr text offset) (insnText strings) = none →
      readInsn st (insnAddr text offset) a strings = .error .undefined) ∧
    ∀ as, assemblySet st.as (insnAddr text offset) (insnText strings) = some as →
      ∃ mem', readInsn st (insnAddr text offset) a strings = .ok { st with mem := mem', as := as } ∧
        FlatMemory.bytes mem' = applyWrites (FlatMemory.bytes st.mem) (writesW (insnAddr text offset) a) := by
  obtain ⟨mem', hwrite, hbytes⟩ := memoryWrW_insn hin h4 st.mem a
  refine ⟨fun hnone => ?_, fun as has => ⟨mem', ?_, hbytes⟩⟩
  · simp only [readInsn, hwrite, if_neg hne, hnone]
  · simp only [readInsn, hwrite, if_neg hne, has]

end Insn

/-- **The listing**: without a result if the assembly table has none. -/
theorem readAll_listing (listing : List (Listed text)) (st : Loaded) :
    (fillAssembly st.as listing = none → readAll st (listing.map (listedLine text)) = .error .undefined) ∧
      ∀ as, fillAssembly st.as listing = some as → ∃ mem', readAll st (listing.map (listedLine text)) =
          .ok ⟨mem', as, lastStart st.startAddr listing⟩ ∧
        FlatMemory.bytes mem' = applyWrites (FlatMemory.bytes st.mem) (listing.flatMap (listedWrites text)) := by
  induction listing generalizing st with
  | nil =>
    refine ⟨fun h => absurd h (Option.some_ne_none _), fun as has => ?_⟩
    obtain rfl := Option.some.inj has
    exact ⟨st.mem, rfl, rfl⟩
  | cons item listing ih =>
    rw [List.map_cons]
    cases item with
    | blank =>
      rw [show listedLine text .blank = [] from rfl, readAll_cons_ok readFormats_blank]
      exact ih st
    | symbol addr name plain =>
      have hread : readFormats st (listedLine text (.symbol addr name plain)) = _ := readFormats_symbol st addr plain
      rw [readAll_cons_ok hread]
      by_cases hname : name = "_start".toList
      · simp only [if_pos hname, lastStart]
        exact ih { st with startAddr := addr }
      · simp only [if_neg hname, lastStart]
        exact ih st
    | insn offset inside aligned disassembly line short =>
      have hline : readFormats st (listedLine text (.insn offset inside aligned disassembly line short)) =
          readInsn st (insnAddr text offset) (insnWord text offset) (fields disassembly) :=
        readFormats_insn _ _ disassembly
      by_cases hfields : fields disassembly = []
      · obtain ⟨mem1, hread, hbytes⟩ := readInsn_nil inside aligned st (insnWord text offset)
        rw [readAll_cons_ok (hline.trans (hfields ▸ hread))]
        simp only [fillAssembly, if_pos hfields, lastStart]
        refine ⟨(ih { st with mem := mem1 }).1, fun as has => ?_⟩
        obtain ⟨mem2, hread2, hbytes2⟩ := (ih { st with mem := mem1 }).2 as has
        refine ⟨mem2, hread2, ?_⟩
        rw [hbytes2, hbytes, List.flatMap_cons, applyWrites_append]
        rfl
      · obtain ⟨hnone, hsome⟩ := readInsn_set inside aligned st (insnWord text offset) hfields
        simp only [fillAssembly, if_neg hfields, lastStart]
        rcases hset : assemblySet st.as (insnAddr text offset) (insnText (fields disassembly)) with _ | as1
        · refine ⟨fun _ => ?_, fun _ h => absurd h.symm (Option.some_ne_none _)⟩
          rw [readAll, hline, hnone hset]
          rfl
        · obtain ⟨mem1, hread, hbytes⟩ := hsome as1 hset
          rw [readAll_cons_ok (hline.trans hread)]
          simp only [Option.bind_some]
          refine ⟨(ih { st with mem := mem1, as := as1 }).1, fun as has => ?_⟩
          obtain ⟨mem2, hread2, hbytes2⟩ := (ih { st with mem := mem1, as := as1 }).2 as has
          refine ⟨mem2, hread2, ?_⟩
          rw [hbytes2, hbytes, List.flatMap_cons, applyWrites_append]
          rfl

/-! ### All lines fit -/

theorem digits_le {n : ℕ} (h : n < 2 ^ 32) : digits n ≤ 8 := by
  have hlog : Nat.log 16 n < 8 := Nat.log_lt_of_lt_pow' (by omega) (by omega)
  exact hlog

theorem newline_notMem_hexField (width n : ℕ) : '\n' ∉ hexField width n := by
  intro h
  obtain ⟨d, hd, hc⟩ := mem_hexField h
  have hspace := isSpace_digit hd
  rw [← hc] at hspace
  exact absurd hspace (by decide)

theorem Short.append {k : List Char} (hk : '\n' ∉ k) (hl : '\n' ∉ l) (hlen : k.length + l.length ≤ 1022) :
    Short (k ++ l) := by
  constructor
  · rw [List.mem_append, not_or]
    exact ⟨hk, hl⟩
  · rw [List.length_append]
    exact hlen

theorem newline_notMem_plain {name : List Char} (h : Plain name) : '\n' ∉ name := fun hmem =>
  absurd (h.word _ hmem).1 (by decide)

theorem newline_notMem_blanks (n : ℕ) : '\n' ∉ List.replicate n ' ' := fun h =>
  absurd (List.eq_of_mem_replicate h) (by decide)

theorem length_groups (bytes : List Byte) : (groups bytes).length = 2 * bytes.length + (bytes.length + 3) / 4 := by
  rw [groups_eq]
  induction bytes using groups_induction with
  | nil => rw [groupTexts_nil]; rfl
  | step bytes h ih =>
    have hpos : 0 < bytes.length := List.length_pos_iff.mpr h
    rw [groupTexts_cons h, List.flatMap_cons, List.length_append, ih, List.length_cons, length_byteTexts,
      List.length_take, List.length_drop]
    omega

theorem newline_notMem_groups (bytes : List Byte) : '\n' ∉ groups bytes := by
  rw [groups_eq]
  induction bytes using groups_induction with
  | nil => rw [groupTexts_nil]; exact List.not_mem_nil
  | step bytes h ih =>
    rw [groupTexts_cons h, List.flatMap_cons, List.mem_append, List.mem_cons, not_or, not_or]
    refine ⟨⟨by decide, fun hmem => ?_⟩, ih⟩
    obtain ⟨d, hd, hc⟩ := mem_byteTexts hmem
    have hnewline : '\n' ∈ hexField 1 d := by
      rw [hexField, hexField, Nat.mod_eq_of_lt hd, hc]
      exact List.mem_singleton_self _
    exact newline_notMem_hexField 1 d hnewline

theorem printable_ne_newline (b : Byte) : printable b ≠ '\n' := by
  revert b
  decide +kernel

theorem short_row {width addr : ℕ} {row : List Byte} (hwidth : width ≤ 8) (hlen : row.length ≤ 16) :
    Short (rowLine width addr row) := by
  have hgroups := length_groups row
  have htext : (row.map printable).length = row.length := List.length_map _
  constructor
  · simp only [rowLine, padTo, List.mem_cons, List.mem_append, not_or]
    refine ⟨by decide, newline_notMem_hexField _ _, ⟨newline_notMem_groups row, newline_notMem_blanks _⟩, by decide,
      by decide, ?_, newline_notMem_blanks _⟩
    rintro hmem
    obtain ⟨b, _, hb⟩ := List.mem_map.mp hmem
    exact printable_ne_newline b hb
  · simp only [rowLine, padTo, List.length_cons, List.length_append, length_hexField, List.length_replicate]
    omega

theorem short_rows {width addr : ℕ} {bytes : List Byte} (hwidth : width ≤ 8) :
    ∀ l ∈ rowLines width addr bytes, Short l := by
  induction hn : bytes.length using Nat.strong_induction_on generalizing bytes addr with
  | _ n ih =>
  by_cases hne : bytes = []
  · rw [hne, rowLines_nil]
    exact nofun
  · have hpos : 0 < bytes.length := List.length_pos_iff.mpr hne
    rw [rowLines_cons hne, List.forall_mem_cons]
    refine ⟨short_row hwidth (by rw [List.length_take]; omega), ih _ ?_ rfl⟩
    rw [List.length_drop]
    omega

theorem short_section (s : Section) : ∀ l ∈ dumpLines s, Short l := by
  have hfits := s.fits
  have hshort := s.plain.short
  rw [dumpLines]
  split_ifs with hne
  · exact nofun
  · have hpos : 0 < s.bytes.length := List.length_pos_iff.mpr hne
    rw [List.forall_mem_cons]
    refine ⟨⟨?_, ?_⟩, short_rows (max_le (by omega) (digits_le (by omega)))⟩
    · simp only [List.mem_append, not_or]
      exact ⟨⟨by decide, newline_notMem_plain s.plain⟩, by decide⟩
    · simp only [List.length_append, List.length_singleton]
      have : "Contents of section ".toList.length = 20 := rfl
      omega

theorem short_listed (item : Listed text) : Short (listedLine text item) := by
  cases item with
  | blank => exact ⟨List.not_mem_nil, Nat.zero_le _⟩
  | symbol addr name plain =>
    have hshort := plain.short
    constructor
    · simp only [listedLine, List.mem_append, List.mem_cons, not_or]
      exact ⟨newline_notMem_hexField _ _, by decide, by decide, newline_notMem_plain plain, by decide⟩
    · simp only [listedLine, List.length_append, List.length_cons, length_hexField, List.length_nil]
      omega
  | insn offset inside aligned disassembly line short =>
    have hdigits := digits_le (insnAddr text offset).isLt
    constructor
    · simp only [listedLine, rightAligned, List.mem_append, List.mem_cons, not_or]
      exact ⟨⟨newline_notMem_blanks _, newline_notMem_hexField _ _⟩, by decide, by decide, newline_notMem_hexField _ _,
        newline_notMem_blanks _, by decide, fun hmem => (line _ hmem).1 rfl⟩
    · simp only [listedLine, rightAligned, List.length_append, List.length_cons, length_hexField,
        List.length_replicate]
      omega

theorem short_file (p : Program) : ∀ l ∈ fileLines p, Short l := by
  have hshort := p.plain.1.short
  have hblank : Short [] := ⟨List.not_mem_nil, Nat.zero_le _⟩
  simp only [fileLines, List.mem_cons, List.not_mem_nil, or_false]
  rintro l (rfl | rfl | rfl)
  · exact hblank
  · refine Short.append (newline_notMem_plain p.plain.1) (by decide) ?_
    have : ".riscv:     file format elf32-littleriscv".toList.length = 41 := rfl
    omega
  · exact hblank

theorem short_lines (p : Program) : ∀ l ∈ lines p, Short l := by
  have hshort := p.text.plain.short
  simp only [lines, List.mem_append, List.mem_flatMap, List.mem_map, List.mem_cons, List.not_mem_nil, or_false]
  rintro l ((((h | ⟨s, _, h⟩) | h) | rfl | rfl) | ⟨item, _, rfl⟩)
  · exact short_file p l h
  · exact short_section s l h
  · exact short_file p l h
  · exact ⟨List.not_mem_nil, Nat.zero_le _⟩
  · constructor
    · simp only [List.mem_append, not_or]
      exact ⟨⟨by decide, newline_notMem_plain p.text.plain⟩, by decide⟩
    · simp only [List.length_append, List.length_singleton]
      have : "Disassembly of section ".toList.length = 23 := rfl
      omega
  · exact short_listed item

/-! ### The whole text -/

theorem readAll_file (p : Program) (st : Loaded) : readAll st (fileLines p) = .ok st := by
  obtain ⟨hplain, hcolon, hlt⟩ := p.plain
  have hname : readFormats st (p.name ++ ".riscv:     file format elf32-littleriscv".toList) = .ok st :=
    readFormats_file hplain hcolon hlt _
  rw [fileLines, readAll_cons_ok readFormats_blank, readAll_cons_ok hname, readAll_cons_ok readFormats_blank]
  rfl

/-- All `_start` symbols are at one address. -/
theorem lastStart_eq {start : Word} : ∀ (listing : List (Listed text)) (x : Word),
    (∀ addr plain, .symbol addr "_start".toList plain ∈ listing → addr = start) →
    (x = start ∨ ∃ plain, .symbol start "_start".toList plain ∈ listing) → lastStart x listing = start := by
  intro listing
  induction listing with
  | nil =>
    rintro x _ (h | ⟨_, h⟩)
    · exact h
    · exact nomatch h
  | cons item listing ih =>
    intro x hall hsome
    have hall' : ∀ addr plain, .symbol addr "_start".toList plain ∈ listing → addr = start :=
      fun addr plain h => hall addr plain (List.mem_cons_of_mem _ h)
    cases item with
    | blank =>
      refine ih x hall' (hsome.imp id fun ⟨plain, h⟩ => ⟨plain, ?_⟩)
      exact (List.mem_cons.mp h).resolve_left nofun
    | insn offset inside aligned disassembly line short =>
      refine ih x hall' (hsome.imp id fun ⟨plain, h⟩ => ⟨plain, ?_⟩)
      exact (List.mem_cons.mp h).resolve_left nofun
    | symbol addr name plain =>
      rw [lastStart]
      by_cases hname : name = "_start".toList
      · subst hname
        rw [if_pos rfl]
        exact ih addr hall' (Or.inl (hall addr plain List.mem_cons_self))
      · rw [if_neg hname]
        refine ih x hall' (hsome.imp id fun ⟨plain', h⟩ => ⟨plain', ?_⟩)
        refine (List.mem_cons.mp h).resolve_left fun heq => ?_
        injection heq with _ hn
        exact hname hn.symm

/-- **Everything that is written**, in this order. -/
def history (p : Program) : List (Word × Byte) :=
  p.sections.flatMap sectionWrites ++ p.listing.flatMap (listedWrites p.text)

/-- The loader before the first line. -/
def created : Loaded := ⟨memoryCreate, assemblyCreate, -1#32⟩

/-- **What the lines do**: the memory holds what was written last at each address. -/
theorem readAll_lines (p : Program) :
    (fillAssembly assemblyCreate p.listing = none → readAll created (lines p) = .error .undefined) ∧
    ∀ as, fillAssembly assemblyCreate p.listing = some as → ∃ mem, readAll created (lines p) = .ok ⟨mem, as, p.start⟩ ∧
      FlatMemory.bytes mem = lastWritten 0#8 (history p) := by
  obtain ⟨mem1, hdump, hbytes1⟩ := readAll_sections p.sections created
  obtain ⟨hnone, hsome⟩ := readAll_listing p.listing ⟨mem1, assemblyCreate, -1#32⟩
  have hlisting : readAll created (lines p) =
      readAll ⟨mem1, assemblyCreate, -1#32⟩ (p.listing.map (listedLine p.text)) := by
    have hlines : lines p = fileLines p ++ (p.sections.flatMap dumpLines ++ (fileLines p ++
        ([] :: ("Disassembly of section ".toList ++ p.text.name ++ [':']) :: p.listing.map (listedLine p.text)))) := by
      simp only [lines, List.append_assoc, List.cons_append, List.nil_append]
    rw [hlines, readAll_append, readAll_file]
    simp only [Except.bind]
    rw [readAll_append, hdump]
    simp only [Except.bind]
    rw [readAll_append, readAll_file]
    simp only [Except.bind]
    rw [readAll_cons_ok readFormats_blank, readAll_cons_ok (readFormats_disassembly _)]
    rfl
  have hstart : lastStart (-1#32) p.listing = p.start :=
    lastStart_eq p.listing _ p.start_listed.2 (Or.inr p.start_listed.1)
  rw [hlisting]
  refine ⟨hnone, fun as has => ?_⟩
  obtain ⟨mem, hread, hbytes⟩ := hsome as has
  refine ⟨mem, by rw [hread, hstart], ?_⟩
  have hzero : FlatMemory.bytes memoryCreate = fun _ => 0#8 := funext bytes_memoryCreate
  rw [hbytes, hbytes1, ← applyWrites_append, created, hzero, applyWrites_const]
  rfl

/-- No string of the text runs over its room. -/
def WithinHexes (room : ℕ) (p : Program) : Prop := ∀ l ∈ lines p, fitsHexes room l = true

theorem fits_of_length {n : ℕ} {hexes : List (List Char)} (h : ∀ s ∈ hexes, s.length < n) {room : ℕ}
    (hroom : n + 9 * hexes.length ≤ room) : fits room hexes = true := by
  induction hexes generalizing room with
  | nil => rfl
  | cons s hexes ih =>
    rw [List.forall_mem_cons] at h
    rw [List.length_cons] at hroom
    have hs := h.1
    rw [fits, ih h.2 (by omega), Bool.and_true, decide_eq_true_eq]
    omega

/-- **Room for a whole line** behind the array is always enough. -/
theorem withinHexes {room : ℕ} (h : 36 + 1024 ≤ room) (p : Program) : WithinHexes room p := by
  intro l hl
  have hlen := (short_lines p l hl).length
  have hitems : (scan dataFormat l).length ≤ 5 := length_scan_le dataFormat l
  refine fits_of_length (n := 1024) (fun s hs => ?_) ?_
  · obtain ⟨item, hitem, rfl⟩ := List.mem_map.mp hs
    cases item with
    | hex v => exact Nat.zero_lt_succ _
    | str s =>
      have hshort : s.length ≤ l.length := length_of_mem_scan _ _ (List.mem_of_mem_tail hitem)
      exact Nat.lt_of_le_of_lt hshort (by omega)
  · rw [List.length_map, List.length_tail]
    omega

/-- **The loader and the lines of the text.** -/
theorem readExec_ok_iff {room : ℕ} (p : Program) :
    readExec room memoryCreate assemblyCreate p.name (some (dis p)) = .ok st ↔
      WithinHexes room p ∧ readAll created (lines p) = .ok st ∧ st.startAddr ≠ -1#32 := by
  rw [← and_assoc, WithinHexes, ← readLines_ok_iff, readExec, dis, fgetsAll_lines (short_lines p)]
  change Except.bind (readLines room created _) _ = _ ↔ _
  rcases readLines room created ((lines p).map (· ++ ['\n'])) with e | st1
  · exact iff_of_false nofun fun h => nomatch h.1
  · simp only [Except.bind, Except.ok.injEq]
    split_ifs with hstart
    · constructor
      · intro h
        obtain rfl := Except.ok.inj h
        exact ⟨rfl, hstart⟩
      · rintro ⟨rfl, _⟩
        rfl
    · refine iff_of_false nofun fun h => hstart ?_
      rw [h.1]
      exact h.2

/-- The address of `_start` is a valid one. -/
theorem start_ne (p : Program) : p.start ≠ -1#32 := by
  intro h
  have h4 := p.start_aligned
  rw [h] at h4
  exact absurd h4 (by decide)

end CompSys.A5.LoadText
