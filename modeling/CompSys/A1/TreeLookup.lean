import CompSys.A1.TreeIndex
import CompSys.Lib.SearchTree

/-! # The tree finds what the scans find

`Repr h x t F`: the blocks `F` of the heap, reached from the pointer `x`, are the search tree `t`.
`construct_treeNode` makes it the tree with one more key, in one more block (`constructTreeNode_spec`),
if the child pointers of this block are `NULL`. -/

namespace CompSys.A1.TreeLookup

open CompSys.Lib.SearchTree CompSys.A1.IdQuery CompSys.A1.TreeIndex

/-- The child pointers of new blocks are `NULL`. -/
def nullFresh : Fresh := fun _ => (none, none)

/-- The tree at the pointer `x`, made of the blocks `F`; keys are compared as signed numbers. -/
inductive Repr (h : Heap) : Option ℕ → Tree ℤ ℕ → Finset ℕ → Prop
  | nil : Repr h none .nil ∅
  | node {p : ℕ} {node : TreeNode} {left right : Tree ℤ ℕ} {F G : Finset ℕ}
      (block : h.block p = some node) (hl : Repr h node.left left F)
      (hr : Repr h node.right right G) (hp : p ∉ F ∪ G) (hd : Disjoint F G) :
    Repr h (some p) (.node left node.osmId.toInt node.value right) (insert p (F ∪ G))

variable {h h' : Heap} {x : Option ℕ} {t : Tree ℤ ℕ} {F G : Finset ℕ} {fuel : ℕ} {fresh : Fresh}

/-- A tree is not touched by what happens to other blocks. -/
theorem Repr.congr (hrepr : Repr h x t F) (hblock : ∀ p ∈ F, h'.block p = h.block p) :
    Repr h' x t F := by
  induction hrepr with
  | nil => exact .nil
  | @node p _ _ _ F G block _ _ hp hd ihl ihr =>
    refine .node ((hblock p (Finset.mem_insert_self p _)).trans block) (ihl fun q hq => hblock q ?_)
      (ihr fun q hq => hblock q ?_) hp hd
    · exact Finset.mem_insert_of_mem (Finset.mem_union_left _ hq)
    · exact Finset.mem_insert_of_mem (Finset.mem_union_right _ hq)

/-- What a call of `construct_treeNode` on the tree of the blocks `F` does to the heap. -/
structure Grows (h h' : Heap) (F : Finset ℕ) : Prop where
  next : h'.next = h.next + 1
  block : ∀ p, p ∉ F → p ≠ h.next → h'.block p = h.block p

/-- A block that is written at the root of two trees. -/
theorem Repr.store (p : ℕ) (node : TreeNode) {left right : Tree ℤ ℕ} (hl : Repr h node.left left F)
    (hr : Repr h node.right right G) (hp : p ∉ F ∪ G) (hd : Disjoint F G) :
    Repr (h.store p node) (some p) (.node left node.osmId.toInt node.value right)
      (insert p (F ∪ G)) := by
  have hframe : ∀ q ∈ F ∪ G, (h.store p node).block q = h.block q := fun q hq =>
    Function.update_of_ne (ne_of_mem_of_not_mem hq hp) _ _
  refine .node (Function.update_self _ _ _) (hl.congr fun q hq => ?_) (hr.congr fun q hq => ?_) hp hd
  · exact hframe q (Finset.mem_union_left _ hq)
  · exact hframe q (Finset.mem_union_right _ hq)

/-- A block of a tree whose child pointer is written after its subtree grew. -/
theorem Grows.store {p : ℕ} {node : TreeNode} (hgrows : Grows h h' F) (hF : F ⊆ G) (hp : p ∈ G) :
    Grows h (h'.store p node) G := by
  refine ⟨hgrows.next, fun q hq hnext => ?_⟩
  rw [← hgrows.block q (fun hqF => hq (hF hqF)) hnext]
  exact Function.update_of_ne (ne_of_mem_of_not_mem hp hq).symm _ _

/-- **One more key**, in one more block. -/
theorem constructTreeNode_spec (r : ℕ) (record : Record) (hrepr : Repr h x t F)
    (hfresh : fresh h.next = (none, none)) (hF : ∀ p ∈ F, p < h.next) (hfuel : t.height < fuel) :
    ∃ h' p, constructTreeNode fresh r record fuel h x = some (h', some p) ∧
      Repr h' (some p) (t.insert record.osmId.toInt r) (insert h.next F) ∧ Grows h h' F := by
  induction hrepr generalizing fuel with
  | nil =>
    obtain ⟨fuel, rfl⟩ := Nat.exists_eq_add_of_le' (show 1 ≤ fuel by omega)
    refine ⟨_, _, rfl, ?_, rfl, fun p _ hp => Function.update_of_ne hp _ _⟩
    have hblock : (h.alloc fresh record.osmId r).block h.next =
        some ⟨record.osmId, r, none, none⟩ :=
      (Function.update_self _ _ _).trans (by rw [hfresh])
    exact .node hblock .nil .nil (Finset.notMem_empty _) (Finset.disjoint_empty_left _)
  | @node p node left right F G block hl hr hp hd ihl ihr =>
    obtain ⟨fuel, rfl⟩ := Nat.exists_eq_add_of_le' (show 1 ≤ fuel by omega)
    rw [Tree.height_node] at hfuel
    have hnext : h.next ∉ insert p (F ∪ G) := fun hmem => absurd (hF _ hmem) (lt_irrefl _)
    simp only [Finset.mem_insert, Finset.mem_union, not_or] at hnext hp
    obtain ⟨hnp, hnF, hnG⟩ := hnext
    obtain ⟨hpF, hpG⟩ := hp
    have hFlt : ∀ q ∈ F, q < h.next := fun q hq =>
      hF q (Finset.mem_insert_of_mem (Finset.mem_union_left _ hq))
    have hGlt : ∀ q ∈ G, q < h.next := fun q hq =>
      hF q (Finset.mem_insert_of_mem (Finset.mem_union_right _ hq))
    by_cases hle : node.osmId.sle record.osmId = true
    · -- the new key goes to the right
      obtain ⟨h', child, hcall, hchild, hgrows⟩ := ihr hGlt (show right.height < fuel by omega)
      have hparent : h'.block p = some node := (hgrows.block p hpG (Ne.symm hnp)).trans block
      refine ⟨h'.store p { node with right := some child }, p, ?_, ?_, ?_⟩
      · simp only [constructTreeNode, block, hle, if_true, hcall, hparent, Option.map_some]
      · have hleft : Repr h' node.left left F := hl.congr fun q hq =>
          hgrows.block q (Finset.disjoint_left.mp hd hq) (ne_of_mem_of_not_mem hq hnF)
        have hroot := Repr.store p { node with right := some child } hleft hchild
          (by simp [hpF, hpG, Ne.symm hnp]) (Finset.disjoint_insert_right.mpr ⟨hnF, hd⟩)
        rw [Tree.insert, if_pos (BitVec.sle_iff_toInt_le.mp hle)]
        have hset : insert h.next (insert p (F ∪ G)) = insert p (F ∪ insert h.next G) := by
          rw [Finset.union_insert, Finset.insert_comm]
        rwa [hset]
      · exact hgrows.store (fun q hq => Finset.mem_insert_of_mem (Finset.mem_union_right _ hq))
          (Finset.mem_insert_self _ _)
    · obtain ⟨h', child, hcall, hchild, hgrows⟩ := ihl hFlt (show left.height < fuel by omega)
      have hparent : h'.block p = some node := (hgrows.block p hpF (Ne.symm hnp)).trans block
      refine ⟨h'.store p { node with left := some child }, p, ?_, ?_, ?_⟩
      · simp only [constructTreeNode, block, hle, Bool.false_eq_true, if_false, hcall, hparent,
          Option.map_some]
      · have hright : Repr h' node.right right G := hr.congr fun q hq =>
          hgrows.block q (Finset.disjoint_right.mp hd hq) (ne_of_mem_of_not_mem hq hnG)
        have hroot := Repr.store p { node with left := some child } hchild hright
          (by simp [hpF, hpG, Ne.symm hnp]) (Finset.disjoint_insert_left.mpr ⟨hnG, hd⟩)
        rw [Tree.insert, if_neg (fun h => hle (BitVec.sle_iff_toInt_le.mpr h))]
        have hset : insert h.next (insert p (F ∪ G)) = insert p (insert h.next F ∪ G) := by
          rw [Finset.insert_union, Finset.insert_comm]
        rwa [hset]
      · exact hgrows.store (fun q hq => Finset.mem_insert_of_mem (Finset.mem_union_left _ hq))
          (Finset.mem_insert_self _ _)

/-- **A lookup in memory** is one in the tree. -/
theorem lookupBinary_spec (needle : Id) (hrepr : Repr h x t F) (hfuel : t.height < fuel) :
    lookupBinary h needle fuel x = some (t.lookup needle.toInt) := by
  induction hrepr generalizing fuel with
  | nil =>
    obtain ⟨fuel, rfl⟩ := Nat.exists_eq_add_of_le' (show 1 ≤ fuel by omega)
    rfl
  | @node p node left right F G block hl hr hp hd ihl ihr =>
    obtain ⟨fuel, rfl⟩ := Nat.exists_eq_add_of_le' (show 1 ≤ fuel by omega)
    rw [Tree.height_node] at hfuel
    rw [Tree.lookup]
    by_cases heq : node.osmId = needle
    · simp only [lookupBinary, block, heq, if_true]
    · have hne : ¬ node.osmId.toInt = needle.toInt := fun h => heq (BitVec.toInt_inj.mp h)
      by_cases hlt : needle.slt node.osmId = true
      · have hlt' : needle.toInt < node.osmId.toInt := BitVec.slt_iff_toInt_lt.mp hlt
        simp only [lookupBinary, block, heq, hlt, if_false, if_true, hne, hlt']
        exact ihl (by omega)
      · have hlt' : ¬ needle.toInt < node.osmId.toInt := fun h => hlt (BitVec.slt_iff_toInt_lt.mpr h)
        simp only [lookupBinary, block, heq, hlt, if_false, hne, hlt', Bool.false_eq_true]
        exact ihr (by omega)

/-- The keys and values of the records. -/
def entries (rs : List Record) : List (ℤ × ℕ) := rs.mapIdx fun i r => (r.osmId.toInt, i)

/-- **The loop of `mk_indexed`** makes the insertions of the records that are left. -/
theorem buildLoop_spec {rs : List Record} (hfuel : rs.length ≤ fuel) (n i : ℕ)
    (hi : i + n = rs.length) (hrepr : Repr h x t F) (hF : ∀ p ∈ F, p < h.next) (hheight : t.height ≤ i)
    (hfresh : ∀ p, h.next ≤ p → p < h.next + n → fresh p = (none, none)) :
    ∃ h' x' F', buildLoop fresh rs fuel n i h x = some (h', x') ∧
      Repr h' x' (((entries rs).drop i).foldl (fun t e => t.insert e.1 e.2) t) F' ∧
      ∀ p, p ∈ F' ↔ p ∈ F ∨ (h.next ≤ p ∧ p < h.next + n) := by
  have hlen : (entries rs).length = rs.length := List.length_mapIdx
  induction n generalizing i h x t F with
  | zero =>
    exact ⟨h, x, F, rfl, by rwa [List.drop_of_length_le (by omega), List.foldl_nil],
      fun p => ⟨Or.inl, fun hp => hp.resolve_right (by omega)⟩⟩
  | succ n ih =>
    have hlt : i < rs.length := by omega
    obtain ⟨h1, p, hcall, hrepr1, hgrows⟩ :=
      constructTreeNode_spec i rs[i] hrepr (hfresh _ le_rfl (by omega)) hF (show t.height < fuel by omega)
    have hF1 : ∀ q ∈ insert h.next F, q < h1.next := by
      rw [hgrows.next]
      intro q hq
      rcases Finset.mem_insert.mp hq with rfl | hq
      · exact Nat.lt_succ_self _
      · exact (hF q hq).trans (Nat.lt_succ_self _)
    have hheight1 : (t.insert rs[i].osmId.toInt i).height ≤ i + 1 :=
      (Tree.height_insert_le _ _ t).trans (Nat.succ_le_succ hheight)
    obtain ⟨h', x', F', hloop, hrepr', hF'⟩ := ih (i + 1) (by omega) hrepr1 hF1 hheight1 (by
      rw [hgrows.next]
      exact fun p hp hpn => hfresh p (by omega) (by omega))
    refine ⟨h', x', F', ?_, ?_, fun p => ?_⟩
    · simp only [buildLoop, List.getElem?_eq_getElem hlt, hcall, hloop]
    · have hlt' : i < (entries rs).length := by omega
      have hentry : (entries rs)[i] = (rs[i].osmId.toInt, i) := List.getElem_mapIdx
      rwa [List.drop_eq_getElem_cons hlt', List.foldl_cons, hentry]
    · rw [hF' p, Finset.mem_insert, hgrows.next]
      by_cases hp : p = h.next
      · exact iff_of_true (Or.inl (Or.inl hp)) (Or.inr (by omega))
      · rw [or_iff_right hp]
        exact or_congr_right (by omega)

/-- The first record with the id is the one that the entries have first. -/
theorem find?_entries (rs : List Record) (needle : Id) :
    ((entries rs).find? fun e => decide (e.1 = needle.toInt)).map Prod.snd = firstWith rs needle := by
  rw [entries, firstWith, List.mapIdx_eq_zipIdx_map, List.find?_map, Option.map_map,
    List.findIdx?_eq_fst_find?_zipIdx]
  have hkey : ∀ r : Record, decide (r.osmId.toInt = needle.toInt) = decide (r.osmId = needle) :=
    fun r => by rw [decide_eq_decide, BitVec.toInt_inj]
  simp only [Function.comp_def, hkey]

/-- **The tree finds the first record with the id.** -/
theorem lookupTree_eq (rs : List Record) (needle : Id) (hfuel : rs.length < fuel) :
    lookupTree nullFresh rs needle fuel = some (firstWith rs needle) := by
  have hfresh : ∀ p, Heap.empty.next ≤ p → p < Heap.empty.next + rs.length → nullFresh p = (none, none) :=
    fun _ _ _ => rfl
  obtain ⟨h, x, F, hloop, hrepr, -⟩ := buildLoop_spec hfuel.le rs.length 0 (Nat.zero_add _)
    .nil (fun p hp => absurd hp (Finset.notMem_empty p)) le_rfl hfresh
  rw [List.drop_zero] at hrepr
  have hheight : (Tree.ofList (entries rs)).height < fuel := by
    have hle := Tree.height_ofList_le (entries rs)
    have hlen : (entries rs).length = rs.length := List.length_mapIdx
    omega
  rw [lookupTree, TreeIndex.mkIndexed, hloop, Option.bind_some, lookupBinary_spec needle hrepr hheight]
  exact congrArg some ((Tree.lookup_ofList (entries rs) needle.toInt).trans (find?_entries rs needle))

/-- **The three programs agree**: they return the first record with the id, in the order of the
array. As many calls as there are records, and one more, are open at once at most. -/
theorem lookups_agree (rs : List Record) (needle : Id) :
    (∀ fuel, rs.length < fuel → lookupTree nullFresh rs needle fuel = some (firstWith rs needle)) ∧
      ((IdQuery.mkIndexed rs rs.length).bind fun data => lookupIndexed data needle) =
        some (firstWith rs needle) ∧
      lookupNaive (mkNaive rs rs.length) needle = some (firstWith rs needle) := by
  refine ⟨fun fuel hfuel => lookupTree_eq rs needle hfuel, ?_, lookupNaive_eq rs needle⟩
  rw [mkIndexed_eq, Option.bind_some, lookupIndexed_eq]

/-- Of three equal keys the first is found, below a larger one. -/
example : lookupTree nullFresh [⟨9⟩, ⟨-3⟩, ⟨4⟩, ⟨-3⟩, ⟨-3⟩] (-3) 6 = some (some 1) := by decide

end CompSys.A1.TreeLookup
