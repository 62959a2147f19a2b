import CompSys.A1.TreeLookup

/-! # The links of the search tree (`A1/id_query_bonus.c`)

`construct_treeNode` sets two fields of a new node, and leaves the child pointers as `malloc` returns them. They are
tested by the next call, by `lookup_binary` and by `free_indexed`, and a pointer that is not `NULL` stays in the tree
(`Built`): either it leads to no node, or to one that another pointer leads to. So the links are good if and only if
all child pointers of new blocks are `NULL` (`links_initialised_iff`). -/

namespace CompSys.A1.TreeLinks

open CompSys.Lib.SearchTree CompSys.A1.IdQuery CompSys.A1.TreeIndex CompSys.A1.TreeLookup

/-- `free_indexed`. -/
def freeIndexed : ℕ → Heap → Option ℕ → Option Heap
  | 0, _, _ => none
  | _ + 1, h, none => some h
  | fuel + 1, h, some data =>
    match h.block data with
    | none => none
    | some node =>
      match freeIndexed fuel h node.right with
      | none => none
      | some h =>
        match h.block data with
        | none => none
        | some node =>
          match freeIndexed fuel h node.left with
          | none => none
          | some h => (h.block data).map fun _ => { h with block := Function.update h.block data none }

/-! ### Paths -/

/-- A child pointer: `left` (`false`) or `right` (`true`). -/
def child (node : TreeNode) (b : Bool) : Option ℕ := if b then node.right else node.left

/-- The node with another child pointer. -/
def setChild (node : TreeNode) (b : Bool) (x : Option ℕ) : TreeNode :=
  if b then { node with right := x } else { node with left := x }

/-- A child pointer of the block that `malloc` returns at an address. -/
def freshChild (fresh : Fresh) (p : ℕ) (b : Bool) : Option ℕ := if b then (fresh p).2 else (fresh p).1

/-- Where a path of child pointers ends. -/
def follow (h : Heap) : Option ℕ → List Bool → Option ℕ
  | x, [] => x
  | none, _ :: _ => none
  | some p, b :: path => (h.block p).bind fun node => follow h (child node b) path

/-- **The links of the tree** at `root`, made of nodes for the records. -/
structure WellLinked (rs : List Record) (h : Heap) (root : Option ℕ) : Prop where
  /-- A node is one for a record of the array. -/
  record : ∀ p node, h.block p = some node → ∃ r, rs[node.value]? = some r ∧ node.osmId = r.osmId
  /-- A child pointer is `NULL` or leads to a node. -/
  valid : ∀ p node b q, h.block p = some node → child node b = some q → (h.block q).isSome = true
  /-- Exactly one path leads to a node. -/
  once : ∀ p, (h.block p).isSome = true → ∃! path, follow h root path = some p

/-- **The links are initialised**: building follows no pointer to something else, the tree has good links, lookups in
it end, and `free_indexed` frees every node, none of them twice. -/
def Initialised (fresh : Fresh) (rs : List Record) : Prop :=
  ∃ fuel h root, mkIndexed fresh rs rs.length fuel = some (h, root) ∧ WellLinked rs h root ∧
    (∀ needle, ∃ fuel found, lookupBinary h needle fuel root = some found) ∧
    ∃ fuel h', freeIndexed fuel h root = some h' ∧ ∀ p, h'.block p = none

variable {fresh fresh' : Fresh} {rs : List Record} {h h' : Heap} {root x y : Option ℕ} {node : TreeNode} {b : Bool}
variable {p q r fuel k : ℕ} {record : Record} {path : List Bool}

@[simp] theorem child_setChild_self : child (setChild node b x) b = x := by cases b <;> rfl

theorem child_setChild_of_ne {c : Bool} (hc : c ≠ b) : child (setChild node b x) c = child node c := by
  cases b <;> cases c <;> first | rfl | exact absurd rfl hc

@[simp] theorem setChild_osmId : (setChild node b x).osmId = node.osmId := by cases b <;> rfl

@[simp] theorem setChild_value : (setChild node b x).value = node.value := by cases b <;> rfl

theorem setChild_child : setChild node b (child node b) = node := by cases b <;> rfl

/-- One more pointer. -/
theorem follow_append (hpath : follow h x path = some p) (hp : h.block p = some node) (b : Bool) :
    follow h x (path ++ [b]) = child node b := by
  induction path generalizing x with
  | nil =>
    obtain rfl : x = some p := hpath
    rw [List.nil_append, follow, hp, Option.bind_some]
    cases child node b <;> rfl
  | cons c path ih =>
    rcases x with _ | q
    · exact nomatch hpath
    · rw [follow, Option.bind_eq_some_iff] at hpath
      obtain ⟨n, hn, hrest⟩ := hpath
      rw [List.cons_append, follow, hn, Option.bind_some]
      exact ih hrest

/-! ### One more node -/

/-- **What a call on a tree does**: a new node, and a pointer to it where there was `NULL`. -/
structure Attached (fresh : Fresh) (r : ℕ) (record : Record) (h h' : Heap) : Prop where
  next : h'.next = h.next + 1
  new : h'.block h.next = some ⟨record.osmId, r, (fresh h.next).1, (fresh h.next).2⟩
  slot : ∃ p b node, p ≠ h.next ∧ h.block p = some node ∧ child node b = none ∧
    h'.block p = some (setChild node b (some h.next)) ∧ ∀ q, q ≠ p → q ≠ h.next → h'.block q = h.block q

/-- What a call on a pointer returns. -/
def Returns (fresh : Fresh) (r : ℕ) (record : Record) (h : Heap) : Option ℕ → Heap × Option ℕ → Prop
  | none, result => result = (h.alloc fresh record.osmId r, some h.next)
  | some parent, result => result.2 = some parent ∧ Attached fresh r record h result.1

/-- The call on a child, and the pointer to it that is written back. -/
theorem attached_of_child {parent : ℕ} {c : Option ℕ} {h1 : Heap} (hnext : h.block h.next = none)
    (hparent : h.block parent = some node) (hcall : Returns fresh r record h (child node b) (h1, c)) :
    ∃ node1, h1.block parent = some node1 ∧
      Attached fresh r record h (h1.store parent (setChild node1 b c)) := by
  have hne : parent ≠ h.next := by
    rintro rfl
    rw [hnext] at hparent
    exact nomatch hparent
  rcases hc : child node b with _ | q
  · -- the new node is the child
    rw [hc] at hcall
    obtain ⟨rfl, rfl⟩ := Prod.mk.inj hcall
    have hsame : (h.alloc fresh record.osmId r).block parent = some node :=
      (Function.update_of_ne hne _ _).trans hparent
    refine ⟨node, hsame, rfl, ?_, parent, b, node, hne, hparent, hc, Function.update_self _ _ _, fun q hq hqn => ?_⟩
    · exact (Function.update_of_ne hne.symm _ _).trans (Function.update_self _ _ _)
    · exact (Function.update_of_ne hq _ _).trans (Function.update_of_ne hqn _ _)
  · -- the node is further down, and the pointer to the child is written as it was
    rw [hc] at hcall
    obtain ⟨rfl, hattached⟩ := hcall
    obtain ⟨p, d, n, hpn, hp, hd, hp', hframe⟩ := hattached.slot
    have hnode1 : ∃ node1, h1.block parent = some node1 ∧ child node1 b = some q := by
      by_cases hpp : parent = p
      · subst hpp
        obtain rfl := Option.some.inj (hparent.symm.trans hp)
        have hbd : b ≠ d := by
          rintro rfl
          rw [hc] at hd
          exact nomatch hd
        exact ⟨_, hp', (child_setChild_of_ne hbd).trans hc⟩
      · exact ⟨node, (hframe parent hpp hne).trans hparent, hc⟩
    obtain ⟨node1, hnode1, hchild⟩ := hnode1
    have hstore : h1.store parent (setChild node1 b (some q)) = h1 := by
      rw [← hchild, setChild_child, Heap.store, ← hnode1, Function.update_eq_self]
    exact ⟨node1, hnode1, by rw [hstore]; exact hattached⟩

/-- **`construct_treeNode`**, whatever the blocks hold. -/
theorem constructTreeNode_returns (hnext : h.block h.next = none) {result : Heap × Option ℕ}
    (hcall : constructTreeNode fresh r record fuel h x = some result) : Returns fresh r record h x result := by
  induction fuel generalizing x result with
  | zero => cases hcall
  | succ fuel ih =>
    rcases x with _ | parent
    · exact (Option.some.inj hcall).symm
    rw [constructTreeNode] at hcall
    rcases hparent : h.block parent with _ | node
    · simp only [hparent] at hcall
      cases hcall
    simp only [hparent] at hcall
    -- the same on both sides
    have hside : ∀ b, (∃ h1 c, constructTreeNode fresh r record fuel h (child node b) = some (h1, c) ∧
        ((h1.block parent).map fun node => (h1.store parent (setChild node b c), some parent)) = some result) →
        Returns fresh r record h (some parent) result := by
      rintro b ⟨h1, c, hrec, hwrite⟩
      obtain ⟨node1, hnode1, hattached⟩ := attached_of_child hnext hparent (ih hrec)
      rw [hnode1, Option.map_some, Option.some.injEq] at hwrite
      subst hwrite
      exact ⟨rfl, hattached⟩
    split_ifs at hcall
    · rcases hrec : constructTreeNode fresh r record fuel h node.right with _ | ⟨h1, c⟩
      · simp only [hrec] at hcall
        cases hcall
      · simp only [hrec] at hcall
        exact hside true ⟨h1, c, hrec, hcall⟩
    · rcases hrec : constructTreeNode fresh r record fuel h node.left with _ | ⟨h1, c⟩
      · simp only [hrec] at hcall
        cases hcall
      · simp only [hrec] at hcall
        exact hside false ⟨h1, c, hrec, hcall⟩

/-! ### The tree that is built -/

/-- **The tree after `k` records**, whatever the blocks hold. -/
structure Built (fresh : Fresh) (rs : List Record) (h : Heap) (root : Option ℕ) (k : ℕ) : Prop where
  next : h.next = k
  root : root = if k = 0 then none else some 0
  node_iff : ∀ p, (h.block p).isSome = true ↔ p < k
  record : ∀ p node, h.block p = some node → ∃ r, rs[node.value]? = some r ∧ node.osmId = r.osmId
  /-- A child pointer that `malloc` returned stays, if it is not `NULL`. -/
  kept : ∀ p node b a, h.block p = some node → freshChild fresh p b = some a → child node b = some a
  /-- A node below the root is at a child pointer that was `NULL`. -/
  linked : ∀ q, 0 < q → q < k →
    ∃ p node b, h.block p = some node ∧ freshChild fresh p b = none ∧ child node b = some q

theorem built_empty : Built fresh rs Heap.empty none 0 where
  next := rfl
  root := rfl
  node_iff p := iff_of_false nofun p.not_lt_zero
  record _ _ hp := nomatch hp
  kept _ _ _ _ hp := nomatch hp
  linked _ _ hq := absurd hq (Nat.not_lt_zero _)

theorem Built.next_eq_none (hbuilt : Built fresh rs h root k) : h.block h.next = none := by
  rw [← Option.not_isSome_iff_eq_none, hbuilt.node_iff, hbuilt.next]
  exact lt_irrefl k

theorem freshChild_eq (fresh : Fresh) (p : ℕ) (b : Bool) (osmId : Id) (value : ℕ) :
    child ⟨osmId, value, (fresh p).1, (fresh p).2⟩ b = freshChild fresh p b := rfl

/-- The first node. -/
theorem Built.alloc (hbuilt : Built fresh rs h root 0) (hr : rs[r]? = some record) :
    Built fresh rs (h.alloc fresh record.osmId r) (some h.next) 1 := by
  have hzero : h.next = 0 := hbuilt.next
  have hold : ∀ p, h.block p = none := fun p => by
    rw [← Option.not_isSome_iff_eq_none, hbuilt.node_iff]
    exact p.not_lt_zero
  have hnew : (h.alloc fresh record.osmId r).block 0 = some ⟨record.osmId, r, (fresh 0).1, (fresh 0).2⟩ := by
    rw [← hzero]
    exact Function.update_self _ _ _
  have hother : ∀ p, p ≠ 0 → (h.alloc fresh record.osmId r).block p = none := fun p hp =>
    (Function.update_of_ne (by rwa [hzero]) _ _).trans (hold p)
  have honly : ∀ p node, (h.alloc fresh record.osmId r).block p = some node →
      p = 0 ∧ node = ⟨record.osmId, r, (fresh 0).1, (fresh 0).2⟩ := by
    intro p node hp
    by_cases hp0 : p = 0
    · subst hp0
      exact ⟨rfl, (Option.some.inj (hnew.symm.trans hp)).symm⟩
    · rw [hother p hp0] at hp
      exact nomatch hp
  constructor
  case next => exact congrArg (· + 1) hzero
  case root => rw [hzero, if_neg one_ne_zero]
  case node_iff =>
    intro p
    rw [Nat.lt_one_iff]
    refine ⟨fun hp => ?_, fun hp => by rw [hp, hnew]; rfl⟩
    obtain ⟨node, hnode⟩ := Option.isSome_iff_exists.mp hp
    exact (honly p node hnode).1
  case record =>
    intro p node hp
    obtain ⟨-, rfl⟩ := honly p node hp
    exact ⟨record, hr, rfl⟩
  case kept =>
    intro p node b a hp ha
    obtain ⟨rfl, rfl⟩ := honly p node hp
    rwa [freshChild_eq]
  case linked => exact fun q hq hq1 => absurd hq (by omega)

/-- One more node. -/
theorem Built.attached (hbuilt : Built fresh rs h root k) (hk : k ≠ 0) (hr : rs[r]? = some record)
    (hattached : Attached fresh r record h h') : Built fresh rs h' root (k + 1) := by
  obtain ⟨hnext', hnew, p₀, b₀, node₀, hne, hp₀, hb₀, hp₀', hframe⟩ := hattached
  rw [hbuilt.next] at hnext' hnew hne hp₀' hframe
  -- the three kinds of blocks
  have hcases : ∀ p node, h'.block p = some node →
      (p = k ∧ node = ⟨record.osmId, r, (fresh k).1, (fresh k).2⟩) ∨
      (p = p₀ ∧ node = setChild node₀ b₀ (some k)) ∨ (p ≠ p₀ ∧ h.block p = some node) := by
    intro p node hp
    by_cases hpk : p = k
    · subst hpk
      exact Or.inl ⟨rfl, Option.some.inj (hp.symm.trans hnew)⟩
    by_cases hpp : p = p₀
    · subst hpp
      exact Or.inr (Or.inl ⟨rfl, Option.some.inj (hp.symm.trans hp₀')⟩)
    · exact Or.inr (Or.inr ⟨hpp, (hframe p hpp hpk).symm.trans hp⟩)
  constructor
  case next => exact hnext'
  case root => rw [hbuilt.root, if_neg hk, if_neg k.succ_ne_zero]
  case node_iff =>
    intro p
    by_cases hpk : p = k
    · exact iff_of_true (by rw [hpk, hnew]; rfl) (by omega)
    by_cases hpp : p = p₀
    · have hlt : p₀ < k := (hbuilt.node_iff p₀).mp (by rw [hp₀]; rfl)
      exact iff_of_true (by rw [hpp, hp₀']; rfl) (by omega)
    · rw [hframe p hpp hpk, hbuilt.node_iff]
      omega
  case record =>
    intro p node hp
    obtain ⟨-, rfl⟩ | ⟨-, rfl⟩ | ⟨-, hold⟩ := hcases p node hp
    · exact ⟨record, hr, rfl⟩
    · rw [setChild_value, setChild_osmId]
      exact hbuilt.record p₀ node₀ hp₀
    · exact hbuilt.record p node hold
  case kept =>
    intro p node b a hp ha
    obtain ⟨rfl, rfl⟩ | ⟨rfl, rfl⟩ | ⟨-, hold⟩ := hcases p node hp
    · rwa [freshChild_eq]
    · have hchild : child node₀ b = some a := hbuilt.kept p node₀ b a hp₀ ha
      have hb : b ≠ b₀ := by
        rintro rfl
        rw [hb₀] at hchild
        exact nomatch hchild
      rw [child_setChild_of_ne hb, hchild]
    · exact hbuilt.kept p node b a hold ha
  case linked =>
    intro q hq hqk
    by_cases hqk' : q = k
    · -- the new node is where there was `NULL`
      subst hqk'
      refine ⟨p₀, _, b₀, hp₀', ?_, child_setChild_self⟩
      rcases hfresh : freshChild fresh p₀ b₀ with _ | a
      · rfl
      · rw [hbuilt.kept p₀ node₀ b₀ a hp₀ hfresh] at hb₀
        exact nomatch hb₀
    · obtain ⟨p, node, b, hp, hfresh, hchild⟩ := hbuilt.linked q hq (by omega)
      have hpk : p < k := (hbuilt.node_iff p).mp (by rw [hp]; rfl)
      by_cases hpp : p = p₀
      · subst hpp
        obtain rfl := Option.some.inj (hp₀.symm.trans hp)
        have hb : b ≠ b₀ := by
          rintro rfl
          rw [hb₀] at hchild
          exact nomatch hchild
        exact ⟨p, _, b, hp₀', hfresh, (child_setChild_of_ne hb).trans hchild⟩
      · exact ⟨p, node, b, (hframe p hpp (by omega)).trans hp, hfresh, hchild⟩

/-- One more record. -/
theorem Built.construct (hbuilt : Built fresh rs h root k) (hr : rs[r]? = some record)
    (hcall : constructTreeNode fresh r record fuel h root = some (h', y)) : Built fresh rs h' y (k + 1) := by
  have hreturns := constructTreeNode_returns hbuilt.next_eq_none hcall
  have hroot := hbuilt.root
  split_ifs at hroot with hk
  · subst hroot hk
    obtain ⟨rfl, rfl⟩ := Prod.mk.inj hreturns
    exact hbuilt.alloc hr
  · subst hroot
    obtain ⟨rfl, hattached⟩ := hreturns
    exact hbuilt.attached hk hr hattached

/-- **The loop of `mk_indexed`**, whatever the blocks hold. -/
theorem Built.buildLoop (hbuilt : Built fresh rs h root k) (n : ℕ)
    (hcall : TreeIndex.buildLoop fresh rs fuel n k h root = some (h', y)) : Built fresh rs h' y (k + n) := by
  induction n generalizing k h root with
  | zero =>
    obtain ⟨rfl, rfl⟩ := Prod.mk.inj (Option.some.inj hcall)
    exact hbuilt
  | succ n ih =>
    rw [TreeIndex.buildLoop] at hcall
    rcases hr : rs[k]? with _ | record
    · simp only [hr] at hcall
      cases hcall
    simp only [hr] at hcall
    rcases hrec : constructTreeNode fresh k record fuel h root with _ | ⟨h1, root1⟩
    · simp only [hrec] at hcall
      cases hcall
    · simp only [hrec] at hcall
      have hrest := ih (hbuilt.construct hr hrec) hcall
      rwa [Nat.add_right_comm, Nat.add_assoc] at hrest

/-- A child pointer of a new block that is not `NULL` spoils the links. -/
theorem Built.freshChild_eq_none (hbuilt : Built fresh rs h root k) (hlinks : WellLinked rs h root) (hp : p < k)
    (b : Bool) : freshChild fresh p b = none := by
  rcases hfresh : freshChild fresh p b with _ | a
  · rfl
  exfalso
  obtain ⟨node, hnode⟩ := Option.isSome_iff_exists.mp ((hbuilt.node_iff p).mpr hp)
  have hchild := hbuilt.kept p node b a hnode hfresh
  have ha := hlinks.valid p node b a hnode hchild
  -- a path to `a` by this pointer
  obtain ⟨path, hpath, -⟩ := hlinks.once p ((hbuilt.node_iff p).mpr hp)
  have hlong : follow h root (path ++ [b]) = some a := (follow_append hpath hnode b).trans hchild
  have honly : ∀ other, follow h root other = some a → path ++ [b] = other := fun other =>
    (hlinks.once a ha).unique hlong
  rcases Nat.eq_zero_or_pos a with rfl | hpos
  · -- `a` is the root
    have hroot : root = some 0 := by rw [hbuilt.root, if_neg (by omega)]
    have hnil : path ++ [b] = [] := honly [] hroot
    exact List.append_ne_nil_of_right_ne_nil path (List.cons_ne_nil b []) hnil
  · -- `a` is at another pointer, where it was made
    obtain ⟨p', node', b', hp', hfresh', hchild'⟩ := hbuilt.linked a hpos ((hbuilt.node_iff a).mp ha)
    obtain ⟨path', hpath', -⟩ := hlinks.once p' (by rw [hp']; rfl)
    have hsame := honly _ ((follow_append hpath' hp' b').trans hchild')
    obtain ⟨rfl, hb⟩ := List.append_inj' hsame rfl
    obtain rfl := List.head_eq_of_cons_eq hb
    obtain rfl := Option.some.inj (hpath.symm.trans hpath')
    rw [hfresh] at hfresh'
    exact nomatch hfresh'

/-! ### The tree without other pointers -/

variable {t : Tree ℤ ℕ} {F : Finset ℕ}

theorem follow_cons {p : ℕ} {node : TreeNode} (hp : h.block p = some node) (b : Bool) (path : List Bool) :
    follow h (some p) (b :: path) = follow h (child node b) path := by
  rw [follow, hp, Option.bind_some]

/-- Paths do not leave the tree. -/
theorem mem_of_follow (hrepr : Repr h x t F) (hpath : follow h x path = some q) : q ∈ F := by
  induction hrepr generalizing path with
  | nil => cases path <;> exact nomatch hpath
  | @node p node left right F G block hl hr hp hd ihl ihr =>
    rw [Finset.mem_insert, Finset.mem_union]
    cases path with
    | nil => exact Or.inl (Option.some.inj hpath).symm
    | cons b path =>
      rw [follow_cons block] at hpath
      cases b with
      | false => exact Or.inr (Or.inl (ihl hpath))
      | true => exact Or.inr (Or.inr (ihr hpath))

/-- **One path** leads to each block of a tree. -/
theorem existsUnique_path (hrepr : Repr h x t F) (hq : q ∈ F) : ∃! path, follow h x path = some q := by
  induction hrepr with
  | nil => exact absurd hq (Finset.notMem_empty q)
  | @node p node left right F G block hl hr hp hd ihl ihr =>
    simp only [Finset.mem_insert, Finset.mem_union, not_or] at hq hp
    rcases hq with rfl | hq | hq
    · refine ⟨[], rfl, fun path hpath => ?_⟩
      cases path with
      | nil => rfl
      | cons b path =>
        rw [follow_cons block] at hpath
        cases b with
        | false => exact absurd (mem_of_follow hl hpath) hp.1
        | true => exact absurd (mem_of_follow hr hpath) hp.2
    · obtain ⟨path, hpath, honly⟩ := ihl hq
      refine ⟨false :: path, (follow_cons block false path).trans hpath, fun other hother => ?_⟩
      cases other with
      | nil => exact absurd (Option.some.inj hother ▸ hq) hp.1
      | cons b other =>
        rw [follow_cons block] at hother
        cases b with
        | false => rw [honly other hother]
        | true => exact absurd (mem_of_follow hr hother) (Finset.disjoint_left.mp hd hq)
    · obtain ⟨path, hpath, honly⟩ := ihr hq
      refine ⟨true :: path, (follow_cons block true path).trans hpath, fun other hother => ?_⟩
      cases other with
      | nil => exact absurd (Option.some.inj hother ▸ hq) hp.2
      | cons b other =>
        rw [follow_cons block] at hother
        cases b with
        | false => exact absurd (mem_of_follow hl hother) (Finset.disjoint_right.mp hd hq)
        | true => rw [honly other hother]

/-- **`free_indexed`** frees the blocks of a tree, and no others. -/
theorem freeIndexed_spec (hrepr : Repr h x t F) (hfuel : t.height < fuel) :
    ∃ h', freeIndexed fuel h x = some h' ∧ (∀ q ∈ F, h'.block q = none) ∧ ∀ q, q ∉ F → h'.block q = h.block q := by
  induction t generalizing h x F fuel with
  | nil =>
    cases hrepr
    obtain ⟨fuel, rfl⟩ := Nat.exists_eq_add_of_le' (show 1 ≤ fuel by omega)
    exact ⟨h, rfl, fun q hq => absurd hq (Finset.notMem_empty q), fun _ _ => rfl⟩
  | node left _ _ right ihl ihr =>
    cases hrepr with
    | @node p node _ _ F G block hl hr hp hd =>
      obtain ⟨fuel, rfl⟩ := Nat.exists_eq_add_of_le' (show 1 ≤ fuel by omega)
      rw [Tree.height_node] at hfuel
      rw [Finset.mem_union, not_or] at hp
      obtain ⟨h1, hright, hfreed1, hframe1⟩ := ihr hr (show right.height < fuel by omega)
      have hblock1 : h1.block p = some node := (hframe1 p hp.2).trans block
      have hl1 : Repr h1 node.left left F := hl.congr fun q hq => hframe1 q (Finset.disjoint_left.mp hd hq)
      obtain ⟨h2, hleft, hfreed2, hframe2⟩ := ihl hl1 (show left.height < fuel by omega)
      have hblock2 : h2.block p = some node := (hframe2 p hp.1).trans hblock1
      refine ⟨{ h2 with block := Function.update h2.block p none }, ?_, fun q hq => ?_, fun q hq => ?_⟩
      · simp only [freeIndexed, block, hright, hblock1, hleft, hblock2, Option.map_some]
      · by_cases hqp : q = p
        · rw [hqp]
          exact Function.update_self _ _ _
        refine (Function.update_of_ne hqp _ _).trans ?_
        by_cases hqF : q ∈ F
        · exact hfreed2 q hqF
        · simp only [Finset.mem_insert, Finset.mem_union, hqp, hqF, false_or] at hq
          exact (hframe2 q hqF).trans (hfreed1 q hq)
      · simp only [Finset.mem_insert, Finset.mem_union, not_or] at hq
        obtain ⟨hqp, hqF, hqG⟩ := hq
        exact (Function.update_of_ne hqp _ _).trans ((hframe2 q hqF).trans (hframe1 q hqG))

/-- The links of a tree of all nodes. -/
theorem Built.wellLinked (hbuilt : Built fresh rs h root k) (hrepr : Repr h root t F) (hF : ∀ p, p ∈ F ↔ p < k) :
    WellLinked rs h root := by
  have hmem : ∀ p, (h.block p).isSome = true ↔ p ∈ F := fun p => (hbuilt.node_iff p).trans (hF p).symm
  refine ⟨hbuilt.record, fun p node b q hp hq => ?_, fun p hp => existsUnique_path hrepr ((hmem p).mp hp)⟩
  have hpF : p ∈ F := (hmem p).mp (by rw [hp]; rfl)
  obtain ⟨path, hpath, -⟩ := existsUnique_path hrepr hpF
  exact (hmem q).mpr (mem_of_follow hrepr ((follow_append hpath hp b).trans hq))

/-- **The links are initialised if and only if `malloc` returns blocks whose child pointers are `NULL`.** -/
theorem links_initialised_iff (fresh : Fresh) (rs : List Record) :
    Initialised fresh rs ↔ ∀ p < rs.length, fresh p = (none, none) := by
  constructor
  · rintro ⟨fuel, h, root, hbuild, hlinks, -⟩ p hp
    have hbuilt : Built fresh rs h root rs.length := by
      have hloop := built_empty.buildLoop rs.length hbuild
      rwa [Nat.zero_add] at hloop
    have hnone := hbuilt.freshChild_eq_none hlinks hp
    exact Prod.ext (hnone false) (hnone true)
  · intro hfresh
    obtain ⟨h, root, F, hbuild, hrepr, hF⟩ := buildLoop_spec le_rfl rs.length 0 (Nat.zero_add _)
      (.nil (h := Heap.empty)) (fun p hp => absurd hp (Finset.notMem_empty p)) le_rfl
      (fun p _ hp => hfresh p (by rwa [Heap.empty, Nat.zero_add] at hp))
    have hbuilt : Built fresh rs h root rs.length := by
      have hloop := built_empty.buildLoop rs.length hbuild
      rwa [Nat.zero_add] at hloop
    have hFlt : ∀ p, p ∈ F ↔ p < rs.length := fun p => by
      rw [hF p, Heap.empty, Nat.zero_add, or_iff_right (Finset.notMem_empty p), and_iff_right p.zero_le]
    refine ⟨rs.length, h, root, hbuild, hbuilt.wellLinked hrepr hFlt,
      fun needle => ⟨_, _, lookupBinary_spec needle hrepr (Nat.lt_succ_self _)⟩, ?_⟩
    obtain ⟨h', hfree, hfreed, hframe⟩ := freeIndexed_spec hrepr (Nat.lt_succ_self _)
    refine ⟨_, h', hfree, fun p => ?_⟩
    by_cases hp : p ∈ F
    · exact hfreed p hp
    · rw [hframe p hp, ← Option.not_isSome_iff_eq_none, hbuilt.node_iff, ← hFlt]
      exact hp

/-- One record, in a block that begins with an old pointer: the tree has a node with a child that is none. -/
theorem old_pointer_followed :
    ¬ ∀ (fresh : Fresh) (rs : List Record), rs ≠ [] → Initialised fresh rs := by
  intro hall
  obtain ⟨fuel, h, root, hbuild, hlinks, -⟩ := hall (fun _ => (some 7, none)) [⟨1⟩] (List.cons_ne_nil _ _)
  cases fuel with
  | zero => exact nomatch hbuild
  | succ fuel =>
    obtain ⟨rfl, rfl⟩ := Prod.mk.inj (Option.some.inj hbuild)
    exact nomatch hlinks.valid 0 ⟨1, 0, some 7, none⟩ false 7 rfl rfl

end CompSys.A1.TreeLinks
