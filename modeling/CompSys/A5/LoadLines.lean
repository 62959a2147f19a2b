import CompSys.A5.LoadRows

/-! # Loading the other lines

A line whose number is followed by anything but a group of digits, a colon or a symbol changes nothing
(`readFormats_quiet`): the lines about the file and its sections are so. A symbol sets the start address if it is
`_start`, and an instruction is written over its four bytes. -/

namespace CompSys.A5.LoadLines

open CompSys.Lib.Scanf CompSys.A5.PagedMemory CompSys.A5.AssemblyTable CompSys.A5.ReadExec CompSys.A5.Objdump
open CompSys.A5.LoadRows

variable {st : Loaded} {line r s : List Char} {c : Char} {v : Word}

/-! ### What the formats make of a line -/

theorem scan_hex (ds : List Directive) (h : scanHex (skip line) = some (v, r)) :
    scan (.hex :: ds) line = .hex v :: scan ds r := by
  rw [scan, h]

theorem scan_hex_none (ds : List Directive) (h : scanHex (skip line) = none) : scan (.hex :: ds) line = [] := by
  rw [scan, h]

/-- The line is no row: the first string behind the number starts with no digit. -/
theorem readData_none (mem : Memory) (h : scanHex (skip line) = some (v, r)) (hr : lead (firstWord r) = 0) :
    readData mem line = none := by
  have hscan : scan dataFormat line = .hex v ::
      scan (.str none :: .str none :: .str none :: .str none :: literals) r := by
    rw [← scan_blank_str, ← scan_hex _ h, ← scan_blank_hex]
    rfl
  rw [readData, hscan, scan_first]
  split_ifs with hword
  · rfl
  · have hcount : countHexes (((Item.str (firstWord r)) :: scan (.str none :: .str none :: .str none :: literals)
        ((skip r).drop (firstWord r).length)).map itemText) = 0 := by
      rw [countHexes, List.map_cons, itemText, countLoop_cons, hr]
      rfl
    simp only [hcount, if_true]

theorem lead_firstWord (hspace : isSpace c = false) (hhex : isHex c = false) : lead (firstWord (c :: r)) = 0 := by
  rw [firstWord, skip_of_not hspace, word, List.takeWhile_cons_of_pos (by simp [hspace]), lead,
    List.takeWhile_cons_of_neg (by simp [hhex]), List.length_nil]

/-- **A line that changes nothing.** -/
theorem readFormats_quiet (h : scanHex (skip line) = some (v, c :: r)) (hspace : isSpace c = false)
    (hhex : isHex c = false) (hcolon : c ≠ ':') (hlt : c ≠ '<') : readFormats st line = .ok st := by
  have hinsn : scan insnFormat line = [.hex v] := by
    rw [insnFormat, scan_blank_hex, scan_hex _ h, scan, if_neg hcolon]
  have hentry : scan entryFormat line = [.hex v] := by
    rw [entryFormat, scan_hex _ h, scan, skip_of_not hspace, scan, if_neg hlt]
  simp only [readFormats, readData_none st.mem h (lead_firstWord hspace hhex), hinsn, hentry]

/-- A line without a number. -/
theorem readFormats_none (h : scanHex (skip line) = none) : readFormats st line = .ok st := by
  have hdata : scan dataFormat line = [] := by
    rw [dataFormat, scan_blank_hex, scan_hex_none _ h]
  have hinsn : scan insnFormat line = [] := by
    rw [insnFormat, scan_blank_hex, scan_hex_none _ h]
  have hentry : scan entryFormat line = [] := scan_hex_none _ h
  simp only [readFormats, readData, hdata, hinsn, hentry]

theorem readFormats_blank : readFormats st [] = .ok st := readFormats_none (by decide)

/-! ### The lines about the file -/

/-- `Contents` starts with a digit. -/
theorem readFormats_contents (name : List Char) :
    readFormats st ("Contents of section ".toList ++ name ++ [':']) = .ok st := by
  have h : scanHex (skip ("Contents of section ".toList ++ name ++ [':'])) =
      some (12#32, "ontents of section ".toList ++ name ++ [':']) := rfl
  exact readFormats_quiet h (by decide) (by decide) (by decide) (by decide)

theorem readFormats_disassembly (name : List Char) :
    readFormats st ("Disassembly of section ".toList ++ name ++ [':']) = .ok st := by
  have h : scanHex (skip ("Disassembly of section ".toList ++ name ++ [':'])) =
      some (13#32, "isassembly of section ".toList ++ name ++ [':']) := rfl
  exact readFormats_quiet h (by decide) (by decide) (by decide) (by decide)

theorem isHex_isHexDigit : ∀ c : Char, isHex c = true → isHexDigit c = true := by
  intro c h
  simp only [isHex, Bool.or_eq_true, Bool.and_eq_true, decide_eq_true_eq] at h
  rw [isHexDigit, digitValue]
  rcases h with ⟨h1, h2⟩ | ⟨h1, h2⟩
  · rw [if_pos ⟨Char.le_def.mp h1, Char.le_def.mp h2⟩]
    rfl
  · have h1' : 97 ≤ c.toNat := Char.le_def.mp h1
    have h2' : c.toNat ≤ 102 := Char.le_def.mp h2
    rw [if_neg (by omega), if_pos ⟨h1', h2'⟩]
    rfl

/-- The line with the name of the file and its format. -/
theorem readFormats_file {name : List Char} (hplain : Plain name) (hcolon : ':' ∉ name) (hlt : '<' ∉ name)
    (s : List Char) : readFormats st (name ++ '.' :: s) = .ok st := by
  have hname : ∀ c, c ∈ name ∨ c = '.' → isSpace c = false ∧ c ≠ ':' ∧ c ≠ '<' := by
    rintro c (hc | rfl)
    · exact ⟨(hplain.word c hc).1, fun h => hcolon (h ▸ hc), fun h => hlt (h ▸ hc)⟩
    · decide
  have hskip : skip (name ++ '.' :: s) = name ++ '.' :: s := by
    rcases name with _ | ⟨c, name⟩
    · exact skip_of_not (by decide)
    · exact skip_of_not (hname c (Or.inl List.mem_cons_self)).1
  rcases h : scanHex (skip (name ++ '.' :: s)) with _ | ⟨v, r⟩
  · exact readFormats_none h
  -- the number ends before the dot
  obtain ⟨⟨u, hu, hnumber⟩, hstop⟩ := scanHex_some h
  have hdot : '.' ∉ u := fun hmem => absurd (hnumber _ hmem) (by unfold InNumber; decide)
  obtain ⟨a, hr, ha⟩ : ∃ a, r = a ++ '.' :: s ∧ ∀ c ∈ a, c ∈ name := by
    rw [hskip] at hu
    rcases List.append_eq_append_iff.mp hu with ⟨a, ha, hs⟩ | ⟨a, ha, hr⟩
    · rcases a with _ | ⟨x, a⟩
      · exact ⟨[], hs.symm, nofun⟩
      · obtain rfl := (List.cons.inj hs).1
        exact absurd (ha ▸ List.mem_append_right _ List.mem_cons_self) hdot
    · exact ⟨a, hr, fun c hc => ha ▸ List.mem_append_right _ hc⟩
  obtain ⟨c, t, hct, hc⟩ : ∃ c t, r = c :: t ∧ (c ∈ name ∨ c = '.') := by
    rcases a with _ | ⟨c, a⟩
    · exact ⟨'.', s, hr, Or.inr rfl⟩
    · exact ⟨c, a ++ '.' :: s, hr, Or.inl (ha c List.mem_cons_self)⟩
  obtain ⟨hspace, hc1, hc2⟩ := hname c hc
  have hhex : isHex c = false := by
    refine Bool.eq_false_iff.mpr fun hyes => ?_
    have hno := hstop c (by rw [hct]; rfl)
    rw [isHex_isHexDigit c hyes] at hno
    exact nomatch hno
  exact readFormats_quiet (hct ▸ h) hspace hhex hc1 hc2

/-! ### Rows, symbols and instructions -/

/-- **A row.** -/
theorem readFormats_row (st : Loaded) {width addr : ℕ} {row : List Byte} (hpos : 0 < row.length)
    (hlen : row.length ≤ 16) (hwidth : 0 < width) (haddr : addr < 16 ^ width) :
    ∃ mem', readFormats st (rowLine width addr row) = .ok { st with mem := mem' } ∧ FlatMemory.bytes mem' =
      Lib.Store.applyWrites (FlatMemory.bytes st.mem) (stretch (BitVec.ofNat 32 addr) (row ++ overrun row)) := by
  obtain ⟨mem', hread, hbytes⟩ := readData_row st.mem hpos hlen hwidth haddr
  exact ⟨mem', by simp only [readFormats, hread], hbytes⟩

theorem scanHex_addr (addr : Word) (hs : EndsNumber s) :
    scanHex (skip (hexField 8 addr.toNat ++ s)) = some (addr, s) := by
  rw [skip_hexField (by omega), scanHex_hexField (by omega) (by have := addr.isLt; omega) hs, BitVec.ofNat_toNat,
    BitVec.setWidth_eq]

/-- **A symbol.** -/
theorem readFormats_symbol (st : Loaded) {name : List Char} (addr : Word) (hplain : Plain name) :
    readFormats st (hexField 8 addr.toNat ++ (' ' :: '<' :: (name ++ ['>', ':']))) =
      .ok (if name = "_start".toList then { st with startAddr := addr } else st) := by
  have h := scanHex_addr addr (s := ' ' :: '<' :: (name ++ ['>', ':'])) (endsNumber_cons (by decide))
  have hfirst : lead (firstWord (' ' :: '<' :: (name ++ ['>', ':']))) = 0 := by
    rw [firstWord, skip_cons (by decide)]
    exact lead_firstWord (by decide) (by decide)
  have hinsn : scan insnFormat (hexField 8 addr.toNat ++ (' ' :: '<' :: (name ++ ['>', ':']))) = [.hex addr] := by
    rw [insnFormat, scan_blank_hex, scan_hex _ h, scan, if_neg (by decide)]
  have hword : ∀ c ∈ name ++ ['>', ':'], isSpace c = false := by
    intro c hc
    rw [List.mem_append] at hc
    rcases hc with hc | hc
    · exact (hplain.word c hc).1
    · simp only [List.mem_cons, List.not_mem_nil, or_false] at hc
      rcases hc with rfl | rfl
      · decide
      · decide
  have hsymbol : scan [.str none] (name ++ ['>', ':']) = [.str (name ++ ['>', ':'])] := by
    have h : scan [.str none] ([] ++ ((name ++ ['>', ':']) ++ [])) = [.str (name ++ ['>', ':'])] :=
      scan_str_word (s := []) (r := []) (List.forall_mem_nil _) hword (by simp) (by rintro c ⟨⟩)
    rwa [List.append_nil, List.nil_append] at h
  have hentry : scan entryFormat (hexField 8 addr.toNat ++ (' ' :: '<' :: (name ++ ['>', ':']))) =
      [.hex addr, .str (name ++ ['>', ':'])] := by
    rw [entryFormat, scan_hex _ h, scan_blank, skip_cons (by decide), skip_of_not (by decide), scan_lit, hsymbol]
  have hstart : name ++ ['>', ':'] = "_start>:".toList ↔ name = "_start".toList := by
    rw [show "_start>:".toList = "_start".toList ++ ['>', ':'] from rfl, List.append_left_inj]
  simp only [readFormats, readData_none st.mem h hfirst, hinsn, hentry, hstart]

/-- The strings of an instruction. -/
def fields (disassembly : List Char) : List (List Char) :=
  (scan [.blank, .str (some 7), .blank, .str (some 15), .blank, .str (some 23)] disassembly).map itemText

theorem lt_pow_digits (n : ℕ) : n < 16 ^ digits n := Nat.lt_pow_succ_log_self (by omega) n

theorem scanHex_rightAligned (addr : Word) (hs : EndsNumber s) :
    scanHex (skip (rightAligned addr.toNat ++ s)) = some (addr, s) := by
  have hpos : 0 < digits addr.toNat := Nat.succ_pos _
  rw [rightAligned, List.append_assoc, skip_spaces, skip_hexField hpos, scanHex_hexField hpos (lt_pow_digits _) hs,
    BitVec.ofNat_toNat, BitVec.setWidth_eq]

/-- **An instruction.** -/
theorem readFormats_insn (addr a : Word) (disassembly : List Char) :
    readFormats st (rightAligned addr.toNat ++
      (':' :: '\t' :: (hexField 8 a.toNat ++ (List.replicate 10 ' ' ++ '\t' :: disassembly)))) =
      readInsn st addr a (fields disassembly) := by
  have h := scanHex_rightAligned addr
    (s := ':' :: '\t' :: (hexField 8 a.toNat ++ (List.replicate 10 ' ' ++ '\t' :: disassembly)))
    (endsNumber_cons (by decide))
  have hword : scanHex (skip ('\t' :: (hexField 8 a.toNat ++ (List.replicate 10 ' ' ++ '\t' :: disassembly)))) =
      some (a, List.replicate 10 ' ' ++ '\t' :: disassembly) := by
    rw [skip_cons (by decide)]
    refine scanHex_addr a (endsNumber_of_space fun c hc => ?_)
    obtain rfl := Option.some.inj hc
    rfl
  have hskip : skip (List.replicate 10 ' ' ++ '\t' :: disassembly) = skip disassembly := by
    rw [skip_spaces, skip_cons (by decide)]
  have hinsn : scan insnFormat (rightAligned addr.toNat ++
      (':' :: '\t' :: (hexField 8 a.toNat ++ (List.replicate 10 ' ' ++ '\t' :: disassembly)))) =
      .hex addr :: .hex a ::
        scan [.blank, .str (some 7), .blank, .str (some 15), .blank, .str (some 23)] disassembly := by
    rw [insnFormat, scan_blank_hex, scan_hex _ h, scan_lit, scan_blank_hex, scan_hex _ hword, scan_blank, hskip]
    rfl
  simp only [readFormats, readData_none st.mem h (lead_firstWord (by decide) (by decide)), hinsn, fields]

end CompSys.A5.LoadLines
