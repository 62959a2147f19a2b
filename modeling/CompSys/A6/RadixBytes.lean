import CompSys.A6.Alloc
import CompSys.A6.Radix

/-! # The radix program on the bytes of its memory

`radix.c` on top of `lib.c`: a `struct node` is the 16 bytes that `allocate` returns, a pointer is a word, and the two
members of the union share their words. The arrays of numbers are lists, as in `Radix`. Nothing is said about which
words are nodes: a function returns `none` only when its fuel is used up, when `allocate` or `release` has no result,
and where `INT_MAX` is counted up.

`RadixRefines` shows that this is the program of `Radix`. -/

namespace CompSys.A6.RadixBytes

open CompSys.Lib CompSys.Lib.Words CompSys.A6.Alloc
open CompSys.A6.Radix (Buffer bitRange drain findBit increment ofCond)

/-- Memory with the heap, and the variable `tree`. -/
structure Machine where
  heap : Heap
  tree : Word

/-- A `struct node**`: `&tree`, or the address of a pointer in memory. -/
inductive Place
  | tree
  | at (a : Word)

/-! ### Memory -/

def sizeofNode : Word := 16#32

/-- The fields of a node, by their distance from its address. -/
def Field.bitPos : Word := 0#32
def Field.number : Word := 4#32
def Field.zero : Word := 8#32
def Field.one : Word := 12#32
def Field.countZero : Word := 8#32
def Field.countOne : Word := 12#32

def Machine.load (m : Machine) (a : Word) : Word := Words.load m.heap.mem a

def Machine.store (m : Machine) (a v : Word) : Machine :=
  { m with heap := { m.heap with mem := Words.store m.heap.mem a v } }

/-- `*parent`. -/
def Machine.read (m : Machine) : Place → Word
  | .tree => m.tree
  | .at a => m.load a

/-- `*parent = x`. -/
def Machine.write (m : Machine) (x : Word) : Place → Machine
  | .tree => { m with tree := x }
  | .at a => m.store a x

def Machine.allocate (fuel : ℕ) (m : Machine) : Option (Word × Machine) :=
  (Alloc.allocate fuel m.heap sizeofNode).map fun r => (r.1, { m with heap := r.2 })

def Machine.release (m : Machine) (p : Word) : Option Machine :=
  (Alloc.release m.heap p).map fun h => { m with heap := h }

/-! ### `add_number` -/

/-- How the body of the loop ends: with a `return`, or at the end of an iteration. -/
inductive Iteration
  | done (m : Machine)
  | next (m : Machine) (bitPos : Word) (parent : Place)

/-- The subtree does not exist: a leaf is created. -/
def createLeaf (alloc : ℕ) (n : Word) (m : Machine) (parent : Place) : Option Iteration := do
  let (nptr, m) ← m.allocate alloc
  let m := m.write nptr parent
  let m := m.store (nptr + Field.bitPos) 1#32
  let m := m.store (nptr + Field.number) n
  let m := m.store (nptr + Field.countZero) (ofCond (n &&& 1#32 == 0#32))
  let m := m.store (nptr + Field.countOne) (ofCond (n &&& 1#32 == 1#32))
  some (.done m)

/-- The number differs from those in the subtree: a node is injected above it. -/
def injectNode (alloc : ℕ) (n : Word) (m : Machine) (bitPos : Word) (parent : Place) (nptr diff : Word) :
    Option Iteration := do
  let bitPos ← findBit diff 32 bitPos
  let (nptr2, m) ← m.allocate alloc
  let m := m.write nptr2 parent
  let m := m.store (nptr2 + Field.bitPos) bitPos
  let m := m.store (nptr2 + Field.number) n
  if n &&& bitPos = 0#32 then
    let m := m.store (nptr2 + Field.one) nptr
    let m := m.store (nptr2 + Field.zero) 0#32
    some (.next m bitPos (.at (nptr2 + Field.zero)))
  else
    let m := m.store (nptr2 + Field.zero) nptr
    let m := m.store (nptr2 + Field.one) 0#32
    some (.next m bitPos (.at (nptr2 + Field.one)))

/-- The node found is used: down into a subtree, or count at the leaf. -/
def useNode (n : Word) (m : Machine) (bitPos : Word) (parent : Place) (nptr : Word) : Option Iteration :=
  if (1#32).slt bitPos then
    if bitPos &&& n ≠ 0#32 then some (.next m bitPos (.at (nptr + Field.one)))
    else some (.next m bitPos (.at (nptr + Field.zero)))
  else
    if n &&& 1#32 ≠ 0#32 then do
      let count ← increment (m.load (nptr + Field.countOne))
      some (.next (m.store (nptr + Field.countOne) count) bitPos parent)
    else do
      let count ← increment (m.load (nptr + Field.countZero))
      some (.next (m.store (nptr + Field.countZero) count) bitPos parent)

/-- The body of the loop. -/
def addBody (alloc : ℕ) (n : Word) (m : Machine) (bitPos : Word) (parent : Place) : Option Iteration :=
  let nptr := m.read parent
  if nptr = 0#32 then createLeaf alloc n m parent
  else if (m.load (nptr + Field.bitPos)).slt bitPos then
    let mask := bitRange bitPos (m.load (nptr + Field.bitPos))
    let diff := mask &&& (n ^^^ m.load (nptr + Field.number))
    if diff ≠ 0#32 then injectNode alloc n m bitPos parent nptr diff
    else useNode n m (m.load (nptr + Field.bitPos)) parent nptr
  else useNode n m bitPos parent nptr

/-- The loop, from its test `bit_pos >= 1` on. -/
def addLoop (alloc : ℕ) (n : Word) : ℕ → Machine → Word → Place → Option Machine
  | 0, _, _, _ => none
  | fuel + 1, m, bitPos, parent =>
    if bitPos.slt 1#32 then some m
    else do
      match ← addBody alloc n m bitPos parent with
      | .done m => some m
      | .next m bitPos parent => addLoop alloc n fuel m (bitPos.sshiftRight 1) parent

/-- `add_number`. -/
def addNumber (alloc : ℕ) (n : Word) (m : Machine) : Option Machine := addLoop alloc n 32 m (1#32 <<< 30) .tree

/-! ### `take_numbers` -/

/-- `take_numbers_2`. -/
def takeNumbers2 : ℕ → Machine → Place → Buffer → Option (Machine × Buffer)
  | 0, _, _, _ => none
  | fuel + 1, m, parent, buffer =>
    let nptr := m.read parent
    if nptr = 0#32 then some (m, buffer)
    else if m.load (nptr + Field.bitPos) = 1#32 then
      let n := m.load (nptr + Field.number)
      let (count0, buffer) := drain (n &&& ~~~1#32) (m.load (nptr + Field.countZero)) buffer.written buffer.room
      let m := m.store (nptr + Field.countZero) count0
      let (count1, buffer) := drain (n ||| 1#32) (m.load (nptr + Field.countOne)) buffer.written buffer.room
      let m := m.store (nptr + Field.countOne) count1
      if m.load (nptr + Field.countZero) = 0#32 ∧ m.load (nptr + Field.countOne) = 0#32 then do
        let m ← m.release nptr
        some (m.write 0#32 parent, buffer)
      else some (m, buffer)
    else do
      let (m, buffer) ← takeNumbers2 fuel m (.at (nptr + Field.zero)) buffer
      let (m, buffer) ← takeNumbers2 fuel m (.at (nptr + Field.one)) buffer
      if m.load (nptr + Field.zero) = 0#32 ∧ m.load (nptr + Field.one) = 0#32 then
        let m ← m.release nptr
        some (m.write 0#32 parent, buffer)
      else some (m, buffer)

/-- `take_numbers`: the numbers put in the buffer; their number is returned. -/
def takeNumbers (fuel : ℕ) (m : Machine) (maxNums : ℕ) : Option (Machine × List Word) := do
  let (m, buffer) ← takeNumbers2 fuel m .tree ⟨[], maxNums⟩
  some (m, buffer.written)

/-- `release_tree`. -/
def releaseTree : ℕ → Machine → Word → Option Machine
  | 0, _, _ => none
  | fuel + 1, m, nptr =>
    if nptr = 0#32 then some m
    else if (1#32).slt (m.load (nptr + Field.bitPos)) then do
      let m ← releaseTree fuel m (m.load (nptr + Field.zero))
      let m ← releaseTree fuel m (m.load (nptr + Field.one))
      m.release nptr
    else m.release nptr

/-! ### Runs -/

inductive Call
  | add (n : Word)
  | take (maxNums : ℕ)

/-- The calls in turn, and what each `take_numbers` returns. -/
def runCalls (fuel : ℕ) : List Call → Machine → Option (Machine × List (List Word))
  | [], m => some (m, [])
  | .add n :: cs, m => do
    let m ← addNumber fuel n m
    runCalls fuel cs m
  | .take maxNums :: cs, m => do
    let (m, out) ← takeNumbers fuel m maxNums
    let (m, outs) ← runCalls fuel cs m
    some (m, out :: outs)

/-- After `init_heap`, with `tree` set to `NULL`. -/
def initial (h : Heap) (heapStart : Word) : Machine := ⟨initHeap h heapStart, 0#32⟩

end CompSys.A6.RadixBytes
