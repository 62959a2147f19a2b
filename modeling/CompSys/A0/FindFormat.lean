import Mathlib.Tactic

/-! # The scanners of `file` (`A0/file.c`)

A stream has a descriptor, the bytes of the file and a position. The scanners run one after another over one
stream: each leaves the position where the next one starts. A loop that need not end takes the number of
rounds it may go. -/

namespace CompSys.A0.FindFormat

abbrev Byte := BitVec 8

/-- `enum file_type`. -/
inductive FileType
  | empty
  | ascii
  | utf
  | iso
  | data
deriving DecidableEq, Repr

/-- `FILE *` on a readable seekable file. -/
structure Stream where
  /-- `fileno`. -/
  fd : ℕ
  bytes : List Byte
  position : ℕ
deriving DecidableEq, Repr

namespace Stream

/-- `fgetc`. -/
def fgetc (s : Stream) : Option Byte × Stream :=
  match s.bytes[s.position]? with
  | none => (none, s)
  | some c => (some c, { s with position := s.position + 1 })

/-- `fseek(arg, 0, SEEK_SET)`. -/
def rewind (s : Stream) : Stream := { s with position := 0 }

/-- `fseek(arg, -k, SEEK_CUR)`: it fails, and nothing moves, if that is before the start. -/
def seekBack (s : Stream) (k : ℕ) : Stream :=
  if k ≤ s.position then { s with position := s.position - k } else s

end Stream

/-- `protective_get_c`; no byte is `EOF`. -/
def protectiveGetC (s : Stream) : Option Byte × Stream :=
  if s.fd = 2 then (none, s) else s.fgetc

/-- `is_empty`. -/
def isEmpty (s : Stream) : Bool × Stream :=
  match protectiveGetC s with
  | (none, s) => (true, s)
  | (some _, s) => (false, s.rewind)

/-- The test of `is_ascii`. -/
def asciiByte (c : Byte) : Bool :=
  (0x07#8 ≤ c && c ≤ 0x0D#8) || c == 0x1B#8 || (0x20#8 ≤ c && c ≤ 0x7E#8)

/-- The test of `is_iso`. -/
def isoByte (c : Byte) : Bool := asciiByte c || (0xA0#8 ≤ c && c ≤ 0xFF#8)

/-- `is_ascii`: at the end of the file it leaves the stream there. -/
def isAscii (s : Stream) : ℕ → Option (Bool × Stream)
  | 0 => none
  | fuel + 1 =>
    match protectiveGetC s with
    | (none, s) => some (true, s)
    | (some c, s) => if asciiByte c then isAscii s fuel else some (false, s.rewind)

/-- `expectingAmountOfBytes` after the byte `c`. -/
def expecting (c : Byte) : ℕ :=
  if c &&& 0x80#8 = 0x00#8 then 0
  else if c &&& 0xE0#8 = 0xC0#8 then 1
  else if c &&& 0xF0#8 = 0xE0#8 then 2
  else if c &&& 0xF8#8 = 0xF0#8 then 3
  else 0

/-- How the `for` over the expected bytes ends, and the stream then. -/
inductive Rest
  | eof (s : Stream)
  | disproven (s : Stream)
  | whole (s : Stream)
deriving DecidableEq, Repr

/-- The `for` over the expected bytes, of which `k` are left. -/
def readRest (s : Stream) : ℕ → Rest
  | 0 => .whole s
  | k + 1 =>
    match protectiveGetC s with
    | (none, s) => .eof s
    | (some nextByte, s) => if nextByte &&& 0xC0#8 ≠ 0x80#8 then .disproven s else readRest s k

/-- The `while` of `count_utf_multiByte_characters`, with `int multiByteCharacters`. -/
def countLoop (multiByteCharacters : BitVec 32) (s : Stream) : ℕ → Option (BitVec 32 × Stream)
  | 0 => none
  | fuel + 1 =>
    match protectiveGetC s with
    | (none, s) => some (multiByteCharacters, s.rewind)
    | (some c, s) =>
      match readRest s (expecting c) with
      -- `return` from within the loops: no `fseek`
      | .eof s => some (multiByteCharacters, s)
      | .disproven s => countLoop multiByteCharacters (s.seekBack (expecting c)) fuel
      | .whole s =>
        countLoop (if 0 < expecting c then multiByteCharacters + 1 else multiByteCharacters) s fuel

/-- `count_utf_multiByte_characters`. -/
def countUtfMultiByteCharacters (s : Stream) (fuel : ℕ) : Option (BitVec 32 × Stream) := countLoop 0 s fuel

/-- The `while` of `is_iso`. -/
def isoLoop (s : Stream) : ℕ → Option (Bool × Stream)
  | 0 => none
  | fuel + 1 =>
    match protectiveGetC s with
    | (none, s) => some (true, s.rewind)
    | (some c, s) => if isoByte c then isoLoop s fuel else some (false, s.rewind)

/-- `is_iso`. -/
def isIso (s : Stream) (fuel : ℕ) : Option (Bool × Stream) :=
  (countUtfMultiByteCharacters s fuel).bind fun counted =>
    if counted.1 ≠ 0 then some (false, counted.2) else isoLoop counted.2 fuel

/-- `is_utf`. -/
def isUtf (s : Stream) : ℕ → Option (Bool × Stream)
  | 0 => none
  | fuel + 1 =>
    match protectiveGetC s with
    | (none, s) => some (true, s.rewind)
    | (some c, s) =>
      match readRest s (expecting c) with
      | .eof s => some (false, s)
      | .disproven s => some (false, s.rewind)
      | .whole s => isUtf s fuel

/-- `find_format`. -/
def findFormat (s : Stream) (fuel : ℕ) : Option FileType :=
  let empty := isEmpty s
  if empty.1 then some .empty
  else (isAscii empty.2 fuel).bind fun ascii =>
    if ascii.1 then some .ascii
    else (isIso ascii.2 fuel).bind fun iso =>
      if iso.1 then some .iso
      else (isUtf iso.2 fuel).bind fun utf => some (if utf.1 then .utf else .data)

end CompSys.A0.FindFormat
