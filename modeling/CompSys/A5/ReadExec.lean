import CompSys.A5.AssemblyTable
import CompSys.Lib.Scanf

/-! # The loader (`A5/src/read_exec.c`)

Every line that `fgets` returns is tried against three formats: a row of a dump, an instruction of a listing, a
symbol. The loader ends with the address of `_start`, or the process ends with a message; where the
assembly table has no defined result the loader has none.

The first format puts each string, of any length, into nine bytes of `hexes`. A longer one runs into the next, of
which the first bytes are then written again, or over the end of the array; the loader has no defined result where
it leaves the `room` bytes from the start of `hexes` on that no other variable uses (36, and what the compiler
leaves free behind the array). A log file is not modelled. -/

namespace CompSys.A5.ReadExec

open CompSys.Lib.Scanf CompSys.A5.PagedMemory CompSys.A5.AssemblyTable

/-- Why there is no result. -/
inductive Stop
  /-- `exit(-1)` after a message. -/
  | exit (message : String)
  | undefined
deriving DecidableEq, Repr

/-- What the loader has read. -/
structure Loaded where
  mem : Memory
  as : Assembly
  startAddr : Word

/-! ### Hexadecimal text -/

def isHex (c : Char) : Bool := ('0' ≤ c && c ≤ '9') || ('a' ≤ c && c ≤ 'f')

def toHex (c : Char) : ℕ :=
  if '0' ≤ c ∧ c ≤ '9' then c.toNat - '0'.toNat
  else if 'a' ≤ c ∧ c ≤ 'f' then c.toNat - 'a'.toNat + 10
  else if 'A' ≤ c ∧ c ≤ 'F' then c.toNat - 'A'.toNat + 10
  else 0

def toHex2 (a b : Char) : ℕ := toHex a * 16 + toHex b

/-- The `for` over `i` in `count_hexes`, with `n` characters left: `num` after it, or what is returned. -/
def countString : List Char → ℕ → ℕ → ℕ ⊕ ℕ
  | _, 0, num => .inl num
  | [], _ + 1, num => .inr (num / 2)
  | c :: s, n + 1, num => if isHex c then countString s n (num + 1) else .inr (num / 2)

/-- The `for` over `k` in `count_hexes`. -/
def countLoop : List (List Char) → ℕ → ℕ
  | [], num => num / 2
  | s :: hexes, num =>
    match countString s 8 num with
    | .inl num => countLoop hexes num
    | .inr result => result

/-- `count_hexes`. -/
def countHexes (hexes : List (List Char)) : ℕ := countLoop hexes 0

/-! ### The formats -/

/-- `" %x %s%s%s%s*c[ ]*c[]"`. -/
def dataFormat : List Directive :=
  [.blank, .hex, .blank, .str none, .str none, .str none, .str none, .lit '*', .lit 'c', .lit '[', .blank,
    .lit ']', .lit '*', .lit 'c', .lit '[', .lit ']']

/-- `" %x: %x %7s %15s %23s"`. -/
def insnFormat : List Directive :=
  [.blank, .hex, .lit ':', .blank, .hex, .blank, .str (some 7), .blank, .str (some 15), .blank, .str (some 23)]

/-- `"%x <%s"`. -/
def entryFormat : List Directive := [.hex, .blank, .lit '<', .str none]

/-- A string item; a number has no text. -/
def itemText : Item → List Char
  | .str s => s
  | .hex _ => []

/-! ### One line -/

/-- `data` for byte `i`. -/
def dataAt (hexes : List (List Char)) (i : ℕ) : ℕ :=
  let block := hexes.getD (i / 4) []
  let disp := i % 4 * 2
  toHex2 (block.getD disp '\x00') (block.getD (disp + 1) '\x00')

/-- The `for` over `i` that writes `n` more bytes. -/
def writeData (hexes : List (List Char)) (mem : Memory) (addr : Word) (i : ℕ) : ℕ → Memory
  | 0 => mem
  | n + 1 => writeData hexes (memoryWrB mem addr (BitVec.ofNat 32 (dataAt hexes i))) (addr + 1) (i + 1) n

/-- `%-<width>s`. -/
def leftAligned (width : ℕ) (s : List Char) : List Char := s ++ List.replicate (width - s.length) ' '

/-- `text`: `opcode`, `args` and `rest`, as far as they were read. -/
def insnText : List (List Char) → List Char
  | [opcode] => leftAligned 8 opcode
  | [opcode, args] => leftAligned 8 opcode ++ ' ' :: leftAligned 16 args
  | [opcode, args, rest] => leftAligned 8 opcode ++ ' ' :: leftAligned 16 args ++ ' ' :: leftAligned 24 rest
  | _ => []

/-- A row of a dump: the memory afterwards, unless the line is none. -/
def readData (mem : Memory) (line : List Char) : Option Memory :=
  match scan dataFormat line with
  | .hex addr :: strings =>
    let hexes := strings.map itemText
    if countHexes hexes = 0 then none else some (writeData hexes mem addr 0 (countHexes hexes))
  | _ => none

/-- An instruction. -/
def readInsn (st : Loaded) (addr a : Word) (strings : List (List Char)) : Except Stop Loaded :=
  match memoryWrW st.mem addr a with
  | .error e => .error (.exit e.message)
  | .ok mem =>
    if strings = [] then .ok { st with mem := mem }
    else
      match assemblySet st.as addr (insnText strings) with
      | none => .error .undefined
      | some as => .ok { st with mem := mem, as := as }

/-- The three formats, one after the other. -/
def readFormats (st : Loaded) (line : List Char) : Except Stop Loaded :=
  match readData st.mem line with
  | some mem => .ok { st with mem := mem }
  | none =>
    match scan insnFormat line with
    | .hex addr :: .hex a :: strings => readInsn st addr a (strings.map itemText)
    | _ =>
      match scan entryFormat line with
      | [.hex addr, .str symbol] =>
        .ok (if symbol = "_start>:".toList then { st with startAddr := addr } else st)
      | _ => .ok st

/-- Each string ends, with its terminating zero, within the `room` bytes from its place on. -/
def fits : ℕ → List (List Char) → Bool
  | _, [] => true
  | room, s :: hexes => s.length < room && fits (room - 9) hexes

/-- The strings of the first format leave the other variables as they are. -/
def fitsHexes (room : ℕ) (line : List Char) : Bool := fits room ((scan dataFormat line).tail.map itemText)

/-- The body of the `while` for a line without its newline. -/
def readLine (room : ℕ) (st : Loaded) (line : List Char) : Except Stop Loaded :=
  if fitsHexes room line then readFormats st line else .error .undefined

/-! ### All lines -/

/-- The buffers that `fgets` fills one after the other, when it has `line` and room for `room` more
characters. -/
def fgetsAll (room : ℕ) (line : List Char) : List Char → List (List Char)
  | [] => if line = [] then [] else [line]
  | c :: cs =>
    if c = '\n' ∨ room ≤ 1 then (line ++ [c]) :: fgetsAll 1023 [] cs
    else fgetsAll (room - 1) (line ++ [c]) cs

/-- The trailing newline is removed. -/
def chomp (line : List Char) : List Char := if line.getLast? = some '\n' then line.dropLast else line

/-- The `while`. -/
def readLines (room : ℕ) (st : Loaded) : List (List Char) → Except Stop Loaded
  | [] => .ok st
  | line :: lines => (readLine room st (chomp line)).bind fun st => readLines room st lines

/-- `read_exec` of a file, if it can be opened: the memory, the assembly and the start address. -/
def readExec (room : ℕ) (mem : Memory) (as : Assembly) (name : List Char) (file : Option (List Char)) :
    Except Stop Loaded :=
  match file with
  | none => .error (.exit ("Error: could not open file '" ++ String.ofList name ++ "'. Exiting\n"))
  | some text =>
    (readLines room ⟨mem, as, -1#32⟩ (fgetsAll 1023 [] text)).bind fun st =>
      if st.startAddr ≠ -1#32 then .ok st
      else .error (.exit "Start symbol not found in file. Terminating")

end CompSys.A5.ReadExec
