import CompSys.A5.ReadExec
import Mathlib.Data.Nat.Log

/-! # The text that is loaded

What the rule for `%.dis` in `A5/src/Makefile` writes: `objdump -s -w`, the bytes of every section in rows of 16,
and then `objdump -S`, the instructions of the text section. A program is given by its sections and by
what is listed; the bytes of an instruction are those of the section. -/

namespace CompSys.A5.Objdump

open CompSys.Lib.Scanf CompSys.A5.PagedMemory

abbrev Byte := BitVec 8

/-- A name without white space that leaves room in the line buffer. -/
structure Plain (name : List Char) : Prop where
  word : ∀ c ∈ name, isSpace c = false ∧ c ≠ '\x00'
  short : name.length ≤ 900

/-- A section with contents, within the address space. -/
structure Section where
  name : List Char
  start : Word
  bytes : List Byte
  plain : Plain name
  fits : start.toNat + bytes.length ≤ 2 ^ 32

/-- The address lies in the section. -/
def Section.Covers (s : Section) (x : Word) : Prop :=
  s.start.toNat ≤ x.toNat ∧ x.toNat < s.start.toNat + s.bytes.length

/-- A line of the listing of a section. -/
inductive Listed (text : Section)
  | blank
  | symbol (addr : Word) (name : List Char) (plain : Plain name)
  /-- A 4-byte instruction, with the text of the disassembler. -/
  | insn (offset : ℕ) (inside : offset + 4 ≤ text.bytes.length) (aligned : (text.start.toNat + offset) % 4 = 0)
    (disassembly : List Char) (line : ∀ c ∈ disassembly, c ≠ '\n' ∧ c ≠ '\x00') (short : disassembly.length ≤ 900)

/-- A program: sections that do not overlap, and the listing of one of them, with `_start`. -/
structure Program where
  /-- The name of the file, without `.riscv`. -/
  name : List Char
  plain : Plain name ∧ ':' ∉ name ∧ '<' ∉ name
  sections : List Section
  apart : sections.Pairwise fun s t => ∀ x, s.Covers x → ¬ t.Covers x
  text : Section
  mem_text : text ∈ sections
  listing : List (Listed text)
  start : Word
  start_aligned : start.toNat % 4 = 0
  start_listed : (∃ plain, .symbol start "_start".toList plain ∈ listing) ∧
    ∀ addr plain, .symbol addr "_start".toList plain ∈ listing → addr = start

/-! ### Rows -/

/-- Padded on the right with blanks. -/
def padTo (width : ℕ) (s : List Char) : List Char := s ++ List.replicate (width - s.length) ' '

/-- The digits of a byte. -/
def byteText (b : Byte) : List Char := hexField 2 b.toNat

/-- Each group of four bytes behind a blank. -/
def groups (bytes : List Byte) : List Char :=
  if bytes = [] then [] else ' ' :: (bytes.take 4).flatMap byteText ++ groups (bytes.drop 4)
termination_by bytes.length
decreasing_by
  have : 0 < bytes.length := List.length_pos_iff.mpr ‹_›
  rw [List.length_drop]
  omega

/-- A byte in the column at the right. -/
def printable (b : Byte) : Char := if 0x20 ≤ b.toNat ∧ b.toNat ≤ 0x7E then Char.ofNat b.toNat else '.'

/-- A row: the address, the groups, and the bytes as characters. -/
def rowLine (width : ℕ) (addr : ℕ) (bytes : List Byte) : List Char :=
  ' ' :: (hexField width addr ++ (padTo 36 (groups bytes) ++ ' ' :: ' ' :: padTo 16 (bytes.map printable)))

/-- The rows from an address on. -/
def rowLines (width : ℕ) (addr : ℕ) (bytes : List Byte) : List (List Char) :=
  if bytes = [] then [] else rowLine width addr (bytes.take 16) :: rowLines width (addr + 16) (bytes.drop 16)
termination_by bytes.length
decreasing_by
  have : 0 < bytes.length := List.length_pos_iff.mpr ‹_›
  rw [List.length_drop]
  omega

/-- The number of digits of a number. -/
def digits (n : ℕ) : ℕ := Nat.log 16 n + 1

/-- The dump of a section; all addresses have the width of the last one, at least 4. -/
def dumpLines (s : Section) : List (List Char) :=
  if s.bytes = [] then []
  else ("Contents of section ".toList ++ s.name ++ [':']) ::
    rowLines (max 4 (digits (s.start.toNat + s.bytes.length - 1))) s.start.toNat s.bytes

/-! ### The listing -/

/-- The address of an instruction. -/
def insnAddr (text : Section) (offset : ℕ) : Word := text.start + BitVec.ofNat 32 offset

/-- An instruction is printed as the number its bytes stand for. -/
def insnWord (text : Section) (offset : ℕ) : Word :=
  Lib.Bytes.word (text.bytes.getD offset 0) (text.bytes.getD (offset + 1) 0) (text.bytes.getD (offset + 2) 0)
    (text.bytes.getD (offset + 3) 0)

/-- `%8x`. -/
def rightAligned (n : ℕ) : List Char := List.replicate (8 - digits n) ' ' ++ hexField (digits n) n

def listedLine (text : Section) : Listed text → List Char
  | .blank => []
  | .symbol addr name _ => hexField 8 addr.toNat ++ (' ' :: '<' :: (name ++ ['>', ':']))
  | .insn offset _ _ disassembly _ _ => rightAligned (insnAddr text offset).toNat ++
    (':' :: '\t' :: (hexField 8 (insnWord text offset).toNat ++ (List.replicate 10 ' ' ++ '\t' :: disassembly)))

/-! ### The file -/

/-- What both calls of `objdump` start with. -/
def fileLines (p : Program) : List (List Char) :=
  [[], p.name ++ ".riscv:     file format elf32-littleriscv".toList, []]

def lines (p : Program) : List (List Char) :=
  fileLines p ++ p.sections.flatMap dumpLines ++ fileLines p ++
    [[], "Disassembly of section ".toList ++ p.text.name ++ [':']] ++ p.listing.map (listedLine p.text)

/-- **The file that is loaded.** -/
def dis (p : Program) : List Char := (lines p).flatMap (· ++ ['\n'])

end CompSys.A5.Objdump
