import CompSys.A5.ReadExec

/-! # What the loader stores of a line (`A5/src/read_exec.c`)

`stores` lists the strings that the three `sscanf`s and the `sprintf`s put into a buffer for a line, in order. Only the
first format has `%s` without a width for buffers shorter than a line, and it is tried on every line. -/

namespace CompSys.A5.LineBounds

open CompSys.Lib.Scanf CompSys.A5.PagedMemory CompSys.A5.AssemblyTable CompSys.A5.ReadExec

/-- The buffers, and `hexes[k]`. -/
inductive Buffer
  | hexes (k : ℕ)
  | symbol
  | opcode
  | args
  | rest
  | text
deriving DecidableEq, Repr

/-- The size in bytes. -/
def Buffer.size : Buffer → ℕ
  | hexes _ => 9
  | symbol => 1024
  | opcode => 8
  | args => 16
  | rest => 24
  | text => 64

/-- The string fits the buffer, with its terminating zero. -/
def FitsIn (buffer : Buffer) (s : List Char) : Prop := s.length < buffer.size

instance (buffer : Buffer) (s : List Char) : Decidable (FitsIn buffer s) := inferInstanceAs (Decidable (_ < _))

/-! ### One line -/

/-- The third `sscanf`. -/
def entryStores (line : List Char) : List (Buffer × List Char) :=
  (scan entryFormat line).filterMap fun
    | .str s => some (.symbol, s)
    | .hex _ => none

/-- The `sprintf`, if the process does not end before it. -/
def textStores (st : Loaded) (addr a : Word) (strings : List (List Char)) : List (Buffer × List Char) :=
  match memoryWrW st.mem addr a with
  | .error _ => []
  | .ok _ => if strings = [] then [] else [(.text, insnText strings)]

/-- The second `sscanf`, and what follows. -/
def insnStores (st : Loaded) (line : List Char) : List (Buffer × List Char) :=
  match scan insnFormat line with
  | .hex addr :: .hex a :: strings =>
    [.opcode, .args, .rest].zip (strings.map itemText) ++ textStores st addr a (strings.map itemText)
  | _ => entryStores line

/-- **The strings that are stored** for a line. -/
def stores (st : Loaded) (line : List Char) : List (Buffer × List Char) :=
  let hexes := (scan dataFormat line).tail.map itemText
  [.hexes 0, .hexes 1, .hexes 2, .hexes 3].zip hexes ++ if countHexes hexes = 0 then insnStores st line else []

/-- The four words behind the hexadecimal number that the line begins with, if it does. -/
def dataWords (line : List Char) : List (List Char) :=
  match scanHex (skip line) with
  | none => []
  | some (_, s) => words 4 s

variable {st : Loaded} {line : List Char} {strings : List (List Char)} {addr a : Word}

/-! ### The first format -/

/-- **The first format** reads the number and the words behind it. -/
theorem strings_dataFormat (line : List Char) : (scan dataFormat line).tail.map itemText = dataWords line := by
  have hquiet : ∀ s, scan [.lit '*', .lit 'c', .lit '[', .blank, .lit ']', .lit '*', .lit 'c', .lit '[', .lit ']'] s =
      [] := scan_quiet (by simp)
  have hwords := scan_words hquiet 4
  rw [dataFormat, scan_blank_hex, scan, dataWords]
  rcases scanHex (skip line) with _ | ⟨v, s⟩
  · rfl
  · have hstrs := hwords s
    rw [List.replicate_succ, List.cons_append, ← scan_blank_str] at hstrs
    exact (congrArg (List.map itemText) hstrs).trans (List.map_map.trans (List.map_id _))

/-- Of the words there are four at most. -/
theorem length_words_le (n : ℕ) (s : List Char) : (words n s).length ≤ n := by
  induction n generalizing s with
  | zero => exact le_rfl
  | succ n ih =>
    rw [words]
    split_ifs
    · exact Nat.zero_le _
    · exact Nat.succ_le_succ (ih _)

theorem length_dataWords_le (line : List Char) : (dataWords line).length ≤ 4 := by
  rw [dataWords]
  rcases scanHex (skip line) with _ | ⟨v, s⟩
  · exact Nat.zero_le _
  · exact length_words_le 4 s

/-- Strings for the four elements of `hexes`. -/
theorem hexes_fit_iff (h : strings.length ≤ 4) :
    (∀ p ∈ [Buffer.hexes 0, .hexes 1, .hexes 2, .hexes 3].zip strings, FitsIn p.1 p.2) ↔
      ∀ s ∈ strings, s.length ≤ 8 := by
  have hsize : ∀ b ∈ [Buffer.hexes 0, .hexes 1, .hexes 2, .hexes 3], b.size = 9 := by decide
  constructor
  · intro hfit s hs
    obtain ⟨i, hi, rfl⟩ := List.getElem_of_mem hs
    have hmem := List.getElem_mem (l := [Buffer.hexes 0, .hexes 1, .hexes 2, .hexes 3].zip strings)
      (show i < _ by rw [List.length_zip, List.length_cons]; simp; omega)
    have hlt := hfit _ hmem
    rw [List.getElem_zip, FitsIn, hsize _ (List.getElem_mem _)] at hlt
    exact Nat.le_of_lt_succ hlt
  · rintro hshort ⟨b, s⟩ hmem
    obtain ⟨hb, hs⟩ := List.of_mem_zip hmem
    rw [FitsIn, hsize b hb]
    exact Nat.lt_succ_of_le (hshort s hs)

/-! ### The other formats -/

/-- What the second format reads behind the two numbers. -/
theorem strings_insnFormat {items : List Item} (h : scan insnFormat line = .hex addr :: .hex a :: items) :
    ∃ strings, items.map itemText = strings ∧
      List.Forall₂ (fun t w => t.length ≤ w) strings ([7, 15, 23].take strings.length) := by
  rw [insnFormat, scan_blank_hex, scan] at h
  rcases hfirst : scanHex (skip line) with _ | ⟨v, s⟩
  · simp only [hfirst] at h
    cases h
  simp only [hfirst, List.cons.injEq] at h
  obtain ⟨-, h⟩ := h
  rcases s with _ | ⟨c, s⟩
  · cases h
  rw [scan] at h
  split_ifs at h
  rw [scan_blank_hex, scan] at h
  rcases hsecond : scanHex (skip s) with _ | ⟨v', s'⟩
  · simp only [hsecond] at h
    cases h
  simp only [hsecond, List.cons.injEq] at h
  obtain ⟨-, rfl⟩ := h
  obtain ⟨strings, hscan, hwidths⟩ := scan_widths [7, 15, 23] s'
  refine ⟨strings, ?_, hwidths⟩
  rw [show [Directive.blank, .str (some 7), .blank, .str (some 15), .blank, .str (some 23)] =
    [7, 15, 23].flatMap fun w => [.blank, .str (some w)] from rfl, hscan, List.map_map]
  exact List.map_id _

theorem length_leftAligned (width : ℕ) (s : List Char) : (leftAligned width s).length = max width s.length := by
  rw [leftAligned, List.length_append, List.length_replicate]
  omega

/-- **The strings of an instruction** fit their buffers, and their text fits `text`. -/
theorem insn_fits (h : List.Forall₂ (fun t w => t.length ≤ w) strings ([7, 15, 23].take strings.length)) :
    (∀ p ∈ [Buffer.opcode, .args, .rest].zip strings, FitsIn p.1 p.2) ∧ FitsIn .text (insnText strings) := by
  rcases strings with _ | ⟨opcode, _ | ⟨args, _ | ⟨rest, _ | ⟨s, strings⟩⟩⟩⟩
  · exact ⟨nofun, by decide⟩
  · simp only [List.length_cons, List.length_nil, List.take_succ_cons, List.take_zero, List.forall₂_cons] at h
    refine ⟨by simp [FitsIn, Buffer.size]; omega, ?_⟩
    rw [insnText, FitsIn, length_leftAligned]
    simp only [Buffer.size]
    omega
  · simp only [List.length_cons, List.length_nil, List.take_succ_cons, List.take_zero, List.forall₂_cons] at h
    refine ⟨by simp [FitsIn, Buffer.size]; omega, ?_⟩
    rw [insnText, FitsIn, List.length_append, List.length_cons, length_leftAligned, length_leftAligned]
    simp only [Buffer.size]
    omega
  · simp only [List.length_cons, List.length_nil, List.take_succ_cons, List.take_zero, List.forall₂_cons] at h
    refine ⟨by simp [FitsIn, Buffer.size]; omega, ?_⟩
    rw [insnText, FitsIn, List.length_append, List.length_append, List.length_cons, List.length_cons,
      length_leftAligned, length_leftAligned, length_leftAligned]
    simp only [Buffer.size]
    omega
  · exact absurd h.length_eq (by simp)

/-- A symbol is shorter than the line. -/
theorem entryStores_fit (hline : line.length ≤ 1023) : ∀ p ∈ entryStores line, FitsIn p.1 p.2 := by
  intro p hp
  obtain ⟨item, hitem, hstore⟩ := List.mem_filterMap.mp hp
  rcases item with v | s
  · exact nomatch hstore
  · obtain rfl := Option.some.inj hstore
    exact Nat.lt_succ_of_le ((length_of_mem_scan _ _ hitem).trans hline)

theorem insnStores_fit (hline : line.length ≤ 1023) : ∀ p ∈ insnStores st line, FitsIn p.1 p.2 := by
  rw [insnStores]
  split
  · rename_i addr a items hscan
    obtain ⟨strings, hstrings, hwidths⟩ := strings_insnFormat hscan
    obtain ⟨hzip, htext⟩ := insn_fits hwidths
    rw [hstrings]
    intro p hp
    rcases List.mem_append.mp hp with hp | hp
    · exact hzip p hp
    · rw [textStores] at hp
      split at hp
      · exact nomatch hp
      · split_ifs at hp
        · exact nomatch hp
        · obtain rfl := List.mem_singleton.mp hp
          exact htext
  · exact entryStores_fit hline

/-- **Every string that is stored for a line fits its buffer if and only if the four words behind the hexadecimal number
that the line begins with, if it does, are not longer than eight characters.** -/
theorem stores_fit_iff (st : Loaded) (line : List Char) (hline : line.length ≤ 1023) :
    (∀ p ∈ stores st line, FitsIn p.1 p.2) ↔ ∀ s ∈ dataWords line, s.length ≤ 8 := by
  rw [stores, strings_dataFormat, List.forall_mem_append, hexes_fit_iff (length_dataWords_le line)]
  refine and_iff_left ?_
  split_ifs
  · exact insnStores_fit hline
  · exact fun p hp => nomatch hp

/-- The line of an instruction. -/
def insnLine : List Char := "   10074:\t00000513 \tli\ta0,0".toList

/-- It is stored, by `stores_fit_iff`. -/
theorem stores_fit_insn : insnLine.length ≤ 1023 ∧
    ∀ p ∈ stores ⟨memoryCreate, assemblyCreate, 0⟩ insnLine, FitsIn p.1 p.2 :=
  ⟨by decide, (stores_fit_iff _ _ (by decide)).mpr (by decide)⟩

/-- The symbol at which every program starts: `<_start>:` has nine characters. -/
theorem start_overflows : ¬ ∀ (st : Loaded) (line : List Char), line.length ≤ 1023 →
    ∀ p ∈ stores st line, FitsIn p.1 p.2 := by
  intro hall
  have hfit := hall ⟨memoryCreate, assemblyCreate, 0⟩ "00010074 <_start>:".toList (by decide)
    (.hexes 0, "<_start>:".toList) (List.mem_append_left _ (by decide))
  exact absurd hfit (by decide)

end CompSys.A5.LineBounds
