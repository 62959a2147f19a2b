import CompSys.Lib.Bytes

/-! # The simulated memory (`A5/src/memory.c`)

The memory is a table of `0x10000` pages of `0x4000` ints each, allocated when first touched. An
`int` is a `BitVec 32`; `>>` on an `int` is the arithmetic shift. A call that finds an unaligned
address prints its message and ends the process: it returns the message together with the memory as
it was then. `calloc` is taken to succeed. -/

namespace CompSys.A5.PagedMemory

/-- An `int` or `uint32_t` of the simulator, or a simulated address. -/
abbrev Word := BitVec 32

/-- `int page[16384]`, 65536 bytes. -/
abbrev Page := Fin 0x4000 → Word

/-- `struct memory`: a page that was never touched is `NULL`. -/
structure Memory where
  pages : Fin 0x10000 → Option Page

/-- `exit(-1)` after a message, and the memory at that point. -/
structure Exit where
  message : String
  mem : Memory

/-- `memory_create`. -/
def memoryCreate : Memory := ⟨fun _ => none⟩

/-- What `calloc(65536, 1)` returns. -/
def zeroPage : Page := fun _ => 0

/-- The `%x` of a message. -/
def hex (addr : Word) : String := String.ofList (Nat.toDigits 16 addr.toNat)

theorem pageNumber_lt (addr : Word) : (addr.sshiftRight 16 &&& 0xffff#32).toNat < 0x10000 := by
  rw [BitVec.toNat_and]; exact Nat.and_lt_two_pow (n := 16) _ (by decide)

theorem wordIndex_lt (addr : Word) : (addr.sshiftRight 2 &&& 0x3fff#32).toNat < 0x4000 := by
  rw [BitVec.toNat_and]; exact Nat.and_lt_two_pow (n := 14) _ (by decide)

/-- `(addr >> 16) & 0x0ffff`. -/
def pageNumber (addr : Word) : Fin 0x10000 := ⟨_, pageNumber_lt addr⟩

/-- `(addr >> 2) & 0x3fff`. -/
def wordIndex (addr : Word) : Fin 0x4000 := ⟨_, wordIndex_lt addr⟩

/-- `get_page`: the page of an address, allocated if it was not there. -/
def getPage (mem : Memory) (addr : Word) : Page × Memory :=
  match mem.pages (pageNumber addr) with
  | some page => (page, mem)
  | none => (zeroPage, ⟨Function.update mem.pages (pageNumber addr) (some zeroPage)⟩)

/-- `page[index] = data` through the pointer `get_page` returned. -/
def setEntry (mem : Memory) (addr : Word) (page : Page) (data : Word) : Memory :=
  ⟨Function.update mem.pages (pageNumber addr)
    (some (Function.update page (wordIndex addr) data))⟩

/-! ### Writing -/

def memoryWrW (mem : Memory) (addr data : Word) : Except Exit Memory :=
  if addr &&& 0x3#32 ≠ 0#32 then
    .error ⟨"Unaligned word write to " ++ hex addr ++ "\n", mem⟩
  else
    let (page, mem) := getPage mem addr
    .ok (setEntry mem addr page data)

def memoryWrH (mem : Memory) (addr data : Word) : Except Exit Memory :=
  if addr &&& 0x1#32 ≠ 0#32 then
    .error ⟨"Unaligned halfword write to " ++ hex addr ++ "\n", mem⟩
  else
    let (page, mem) := getPage mem addr
    let old := page (wordIndex addr)
    if addr &&& 2#32 = 0#32 then
      .ok (setEntry mem addr page ((old &&& 0xffff0000#32) ||| (data &&& 0x0000ffff#32)))
    else
      .ok (setEntry mem addr page ((old &&& 0x0000ffff#32) ||| (data <<< 16)))

def memoryWrB (mem : Memory) (addr data : Word) : Memory :=
  let (page, mem) := getPage mem addr
  let old := page (wordIndex addr)
  let lane := addr &&& 0x3#32
  if lane = 0#32 then
    setEntry mem addr page ((old &&& 0xffffff00#32) ||| (data &&& 0xff#32))
  else if lane = 1#32 then
    setEntry mem addr page ((old &&& 0xffff00ff#32) ||| ((data &&& 0xff#32) <<< 8))
  else if lane = 2#32 then
    setEntry mem addr page ((old &&& 0xff00ffff#32) ||| ((data &&& 0xff#32) <<< 16))
  else
    setEntry mem addr page ((old &&& 0x00ffffff#32) ||| ((data &&& 0xff#32) <<< 24))

/-! ### Reading

A read allocates the page of its address, before it looks at the alignment. -/

def memoryRdW (mem : Memory) (addr : Word) : Except Exit (Word × Memory) :=
  let (page, mem) := getPage mem addr
  if addr &&& 0x3#32 ≠ 0#32 then
    .error ⟨"Unaligned word read from " ++ hex addr ++ "\n", mem⟩
  else
    .ok (page (wordIndex addr), mem)

def memoryRdH (mem : Memory) (addr : Word) : Except Exit (Word × Memory) :=
  let (page, mem) := getPage mem addr
  let entry := page (wordIndex addr)
  if addr &&& 0x1#32 ≠ 0#32 then
    .error ⟨"Unaligned halfword read from " ++ hex addr ++ "\n", mem⟩
  else if addr &&& 2#32 = 0#32 then
    .ok (entry &&& 0xffff#32, mem)
  else
    .ok (entry.sshiftRight 16 &&& 0xffff#32, mem)

def memoryRdB (mem : Memory) (addr : Word) : Word × Memory :=
  let (page, mem) := getPage mem addr
  let entry := page (wordIndex addr)
  let lane := addr &&& 0x3#32
  if lane = 0#32 then (entry &&& 0xff#32, mem)
  else if lane = 1#32 then (entry.sshiftRight 8 &&& 0xff#32, mem)
  else if lane = 2#32 then (entry.sshiftRight 16 &&& 0xff#32, mem)
  else (entry.sshiftRight 24 &&& 0xff#32, mem)

end CompSys.A5.PagedMemory
