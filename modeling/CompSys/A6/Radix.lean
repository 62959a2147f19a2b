import CompSys.Lib.OneHot

/-! # The radix tree in memory (`A6/handout/radix.c`)

`int`s are `BitVec 32`. A `struct node` is a cell addressed by a pointer of any type `P`; `NULL` is
`none`. `allocate` may return any pointer that is not in use. A function returns `none` where C
leaves the behaviour undefined: on a pointer to no node, on the member of the union the node was not
last written with, on `INT_MAX + 1`, and on a double `release`. Loops and the recursion take fuel. -/

namespace CompSys.A6.Radix

open CompSys.Lib.OneHot

abbrev Word := BitVec 32

/-- `union { struct leaf leaf; struct interior interior; }`. -/
inductive Payload (P : Type)
  | leaf (countZero countOne : Word)
  | interior (zero one : Option P)

/-- `struct node`. -/
structure Node (P : Type) where
  bitPos : Word
  number : Word
  rest : Payload P

/-- The nodes allocated and not released, their contents, and the variable `tree`. -/
structure State (P : Type) where
  live : Finset P
  node : P → Node P
  tree : Option P

/-- What `allocate` returns, by the nodes in use. -/
structure Fresh (P : Type) where
  pick : Finset P → P
  fresh : ∀ live, pick live ∉ live

/-- A `struct node**`: `&tree`, `&p->interior.zero` (`false`) or `&p->interior.one` (`true`). -/
inductive Slot (P : Type)
  | tree
  | child (one : Bool) (p : P)

variable {P : Type} [DecidableEq P]

/-! ### Memory -/

/-- `*p`. -/
def State.load (s : State P) (p : P) : Option (Node P) := if p ∈ s.live then some (s.node p) else none

/-- `*p = n`. -/
def State.store (s : State P) (p : P) (n : Node P) : Option (State P) :=
  if p ∈ s.live then some { s with node := Function.update s.node p n } else none

def State.allocate (s : State P) (f : Fresh P) : P × State P :=
  (f.pick s.live, { s with live := insert (f.pick s.live) s.live })

def State.release (s : State P) (p : P) : Option (State P) :=
  if p ∈ s.live then some { s with live := s.live.erase p } else none

/-- A pointer of `interior`. -/
def Payload.get : Payload P → Bool → Option (Option P)
  | .interior zero one, b => some (if b then one else zero)
  | .leaf _ _, _ => none

def Payload.set : Payload P → Bool → Option P → Payload P
  | .interior zero one, b, x => if b then .interior zero x else .interior x one
  | .leaf c0 c1, _, _ => .leaf c0 c1

/-- `*parent`. -/
def State.read (s : State P) : Slot P → Option (Option P)
  | .tree => some s.tree
  | .child b p => do (← s.load p).rest.get b

/-- `*parent = x`. -/
def State.write (s : State P) (parent : Slot P) (x : Option P) : Option (State P) :=
  match parent with
  | .tree => some { s with tree := x }
  | .child b p => do
    let n ← s.load p
    let _ ← n.rest.get b
    s.store p { n with rest := n.rest.set b x }

/-! ### Masks -/

/-- `0 - bit_pos - bit_pos`. -/
def higherBits (bitPos : Word) : Word := 0#32 - bitPos - bitPos

/-- `~higher_bits(bit_pos)`. -/
def notHigherBits (bitPos : Word) : Word := ~~~higherBits bitPos

def bitRange (bitPosHigh bitPosLow : Word) : Word := higherBits bitPosLow &&& notHigherBits bitPosHigh

/-- A comparison as an `int`. -/
def ofCond (c : Bool) : Word := if c then 1#32 else 0#32

/-- `c++`. -/
def increment (c : Word) : Option Word := if c = BitVec.intMax 32 then none else some (c + 1#32)

/-! ### `add_number` -/

/-- How the body of the loop ends: with a `return`, or at the end of an iteration. -/
inductive Iteration (P : Type)
  | done (s : State P)
  | next (s : State P) (bitPos : Word) (parent : Slot P)

/-- `while ((bit_pos & diff) == 0) bit_pos >>= 1`. -/
def findBit (diff : Word) : ℕ → Word → Option Word
  | 0, _ => none
  | fuel + 1, bitPos =>
    if bitPos &&& diff = 0#32 then findBit diff fuel (bitPos.sshiftRight 1) else some bitPos

/-- The subtree does not exist: a leaf is created. -/
def createLeaf (f : Fresh P) (number : Word) (s : State P) (parent : Slot P) :
    Option (Iteration P) := do
  let (nptr, s) := s.allocate f
  let s ← s.write parent (some nptr)
  let s ← s.store nptr ⟨1#32, number,
    .leaf (ofCond (number &&& 1#32 == 0#32)) (ofCond (number &&& 1#32 == 1#32))⟩
  some (.done s)

/-- The number differs from those in the subtree: a node is injected above it. -/
def injectNode (f : Fresh P) (number : Word) (s : State P) (bitPos : Word) (parent : Slot P)
    (nptr : P) (diff : Word) : Option (Iteration P) := do
  let bitPos ← findBit diff 32 bitPos
  let (nptr2, s) := s.allocate f
  let s ← s.write parent (some nptr2)
  if number &&& bitPos = 0#32 then
    let s ← s.store nptr2 ⟨bitPos, number, .interior none (some nptr)⟩
    some (.next s bitPos (.child false nptr2))
  else
    let s ← s.store nptr2 ⟨bitPos, number, .interior (some nptr) none⟩
    some (.next s bitPos (.child true nptr2))

/-- The node found is used: down into a subtree, or count at the leaf. -/
def useNode (number : Word) (s : State P) (bitPos : Word) (parent : Slot P) (nptr : P)
    (n : Node P) : Option (Iteration P) :=
  if (1#32).slt bitPos then
    if bitPos &&& number ≠ 0#32 then some (.next s bitPos (.child true nptr))
    else some (.next s bitPos (.child false nptr))
  else
    match n.rest with
    | .interior _ _ => none
    | .leaf countZero countOne =>
      if number &&& 1#32 ≠ 0#32 then do
        let countOne ← increment countOne
        let s ← s.store nptr { n with rest := .leaf countZero countOne }
        some (.next s bitPos parent)
      else do
        let countZero ← increment countZero
        let s ← s.store nptr { n with rest := .leaf countZero countOne }
        some (.next s bitPos parent)

/-- The body of the loop. -/
def addBody (f : Fresh P) (number : Word) (s : State P) (bitPos : Word) (parent : Slot P) :
    Option (Iteration P) := do
  match ← s.read parent with
  | none => createLeaf f number s parent
  | some nptr =>
    let n ← s.load nptr
    if n.bitPos.slt bitPos then
      let mask := bitRange bitPos n.bitPos
      let diff := mask &&& (number ^^^ n.number)
      if diff ≠ 0#32 then injectNode f number s bitPos parent nptr diff
      else useNode number s n.bitPos parent nptr n
    else useNode number s bitPos parent nptr n

/-- The loop, from its test `bit_pos >= 1` on. -/
def addLoop (f : Fresh P) (number : Word) : ℕ → State P → Word → Slot P → Option (State P)
  | 0, _, _, _ => none
  | fuel + 1, s, bitPos, parent =>
    if bitPos.slt 1#32 then some s
    else do
      match ← addBody f number s bitPos parent with
      | .done s => some s
      | .next s bitPos parent => addLoop f number fuel s (bitPos.sshiftRight 1) parent

/-- `add_number`. `bit_pos` starts at `1<<30` and every iteration shifts it right. -/
def addNumber (f : Fresh P) (number : Word) (s : State P) : Option (State P) :=
  addLoop f number 32 s (oneHot 30) .tree

/-! ### `take_numbers` -/

/-- The numbers written so far, and `end - buffer`. -/
structure Buffer where
  written : List Word
  room : ℕ

/-- `while (buffer < end && count) { *buffer++ = x; count--; }`. -/
def drain (x : Word) (count : Word) (written : List Word) : ℕ → Word × Buffer
  | 0 => (count, ⟨written, 0⟩)
  | room + 1 =>
    if count = 0#32 then (count, ⟨written, room + 1⟩)
    else drain x (count - 1#32) (written ++ [x]) room

/-- `take_numbers_2`. -/
def takeNumbers2 : ℕ → State P → Slot P → Buffer → Option (State P × Buffer)
  | 0, _, _, _ => none
  | fuel + 1, s, parent, buffer => do
    match ← s.read parent with
    | none => some (s, buffer)
    | some nptr =>
      let n ← s.load nptr
      if n.bitPos = 1#32 then
        match n.rest with
        | .interior _ _ => none
        | .leaf countZero countOne =>
          let (countZero, buffer) := drain (n.number &&& ~~~1#32) countZero buffer.written buffer.room
          let (countOne, buffer) := drain (n.number ||| 1#32) countOne buffer.written buffer.room
          let s ← s.store nptr { n with rest := .leaf countZero countOne }
          if countZero = 0#32 ∧ countOne = 0#32 then
            let s ← s.release nptr
            let s ← s.write parent none
            some (s, buffer)
          else some (s, buffer)
      else
        let (s, buffer) ← takeNumbers2 fuel s (.child false nptr) buffer
        let (s, buffer) ← takeNumbers2 fuel s (.child true nptr) buffer
        let zero ← s.read (.child false nptr)
        let one ← s.read (.child true nptr)
        if zero.isNone ∧ one.isNone then
          let s ← s.release nptr
          let s ← s.write parent none
          some (s, buffer)
        else some (s, buffer)

/-- `take_numbers`: the numbers put in the buffer; their number is returned. -/
def takeNumbers (fuel : ℕ) (s : State P) (maxNums : ℕ) : Option (State P × List Word) := do
  let (s, buffer) ← takeNumbers2 fuel s .tree ⟨[], maxNums⟩
  some (s, buffer.written)

/-- `release_tree`. -/
def releaseTree : ℕ → State P → Option P → Option (State P)
  | 0, _, _ => none
  | _ + 1, s, none => some s
  | fuel + 1, s, some nptr => do
    let n ← s.load nptr
    if (1#32).slt n.bitPos then
      let zero ← n.rest.get false
      let s ← releaseTree fuel s zero
      let n ← s.load nptr
      let one ← n.rest.get true
      let s ← releaseTree fuel s one
      s.release nptr
    else s.release nptr

/-- Before the first call. -/
def initial (node : P → Node P) : State P := ⟨∅, node, none⟩

end CompSys.A6.Radix
