import CompSys.A1.IdQuery

/-! # The search tree (`A1/id_query_bonus.c`)

Nodes are blocks of a heap, and `malloc` gives out the addresses in order; it is taken to succeed. What
the child pointers of a new block are is a parameter, since `construct_treeNode` sets only the other
two fields. The functions are recursive along the pointers, so they have the number of calls that may
be open as `fuel`; without enough of it, and on a pointer that is no block, they have no result. -/

namespace CompSys.A1.TreeIndex

open CompSys.A1.IdQuery

/-- `struct treeNode`. -/
structure TreeNode where
  osmId : Id
  value : ℕ
  left : Option ℕ
  right : Option ℕ
deriving DecidableEq, Repr

structure Heap where
  block : ℕ → Option TreeNode
  /-- The address that `malloc` returns next. -/
  next : ℕ

/-- Before the first `malloc`. -/
def Heap.empty : Heap := ⟨fun _ => none, 0⟩

/-- The block at a pointer that is not `NULL` is written. -/
def Heap.store (h : Heap) (p : ℕ) (node : TreeNode) : Heap :=
  { h with block := Function.update h.block p (some node) }

/-- The child pointers of the blocks that `malloc` returns, by their addresses. -/
abbrev Fresh := ℕ → Option ℕ × Option ℕ

/-- `malloc`, and the two fields that are set. -/
def Heap.alloc (fresh : Fresh) (h : Heap) (osmId : Id) (value : ℕ) : Heap :=
  ⟨Function.update h.block h.next (some ⟨osmId, value, (fresh h.next).1, (fresh h.next).2⟩), h.next + 1⟩

/-- `construct_treeNode(parent, r)`, where `record` is what `r` points to. -/
def constructTreeNode (fresh : Fresh) (r : ℕ) (record : Record) :
    ℕ → Heap → Option ℕ → Option (Heap × Option ℕ)
  | 0, _, _ => none
  | _ + 1, h, none => some (h.alloc fresh record.osmId r, some h.next)
  | fuel + 1, h, some parent =>
    match h.block parent with
    | none => none
    | some node =>
      if node.osmId.sle record.osmId then
        match constructTreeNode fresh r record fuel h node.right with
        | none => none
        | some (h, child) =>
          (h.block parent).map fun node => (h.store parent { node with right := child }, some parent)
      else
        match constructTreeNode fresh r record fuel h node.left with
        | none => none
        | some (h, child) =>
          (h.block parent).map fun node => (h.store parent { node with left := child }, some parent)

/-- The `for` of `mk_indexed`, at `i` with `n` records left. -/
def buildLoop (fresh : Fresh) (rs : List Record) (fuel : ℕ) :
    ℕ → ℕ → Heap → Option ℕ → Option (Heap × Option ℕ)
  | 0, _, h, root => some (h, root)
  | n + 1, i, h, root =>
    match rs[i]? with
    | none => none
    | some record =>
      match constructTreeNode fresh i record fuel h root with
      | none => none
      | some (h, root) => buildLoop fresh rs fuel n (i + 1) h root

/-- `mk_indexed`. -/
def mkIndexed (fresh : Fresh) (rs : List Record) (n fuel : ℕ) : Option (Heap × Option ℕ) :=
  buildLoop fresh rs fuel n 0 Heap.empty none

/-- `lookup_binary`. -/
def lookupBinary (h : Heap) (needle : Id) : ℕ → Option ℕ → Option (Option ℕ)
  | 0, _ => none
  | _ + 1, none => some none
  | fuel + 1, some data =>
    match h.block data with
    | none => none
    | some node =>
      if node.osmId = needle then some (some node.value)
      else if needle.slt node.osmId then lookupBinary h needle fuel node.left
      else lookupBinary h needle fuel node.right

/-- A lookup in the tree of all records. -/
def lookupTree (fresh : Fresh) (rs : List Record) (needle : Id) (fuel : ℕ) : Option (Option ℕ) :=
  (mkIndexed fresh rs rs.length fuel).bind fun tree => lookupBinary tree.1 needle fuel tree.2

end CompSys.A1.TreeIndex
