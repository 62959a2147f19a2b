import CompSys.A1.IdQuery
import CompSys.Lib.Bisection
import CompSys.Lib.Fuel

/-! # Lookups by halving (`A1/id_query_binsort.c`)

The records are sorted by `qsort` with `compare_index_records`; a lookup halves the array. An `int` that
overflows and an access outside of the array have no defined result. `compare_index_records` is an order of
all the ids (`compareIndexRecords_order`), the search finds a record with the id if there is one
(`binarySearch_finds`), and with unique ids it is the record that the scan finds (`lookupBinary_exact`). -/

namespace CompSys.A1.BinSearch

open CompSys.Lib.Bisection CompSys.Lib.Fuel CompSys.A1.IdQuery

/-- `struct record`: the id, and the fields that no lookup reads. -/
structure Place (α : Type) extends Record where
  fields : α
deriving DecidableEq, Repr

variable {α : Type}

/-- `compare_index_records`. -/
def compareIndexRecords (recordA recordB : Place α) : ℤ :=
  if recordA.osmId.slt recordB.osmId then -1
  else if recordB.osmId.slt recordA.osmId then 1
  else 0

/-- `struct bin_data`. -/
structure BinData (α : Type) where
  rs : List (Place α)
  n : ℕ

/-- `mk_indexed`; `qsort` sorts the first `n` records. -/
def mkIndexed (qsort : (Place α → Place α → ℤ) → List (Place α) → List (Place α)) (rs : List (Place α))
    (n : ℕ) : BinData α := ⟨qsort compareIndexRecords (rs.take n) ++ rs.drop n, n⟩

/-- What `binary_search` returns: `NULL` or `&rs[i]`, if that is defined. -/
inductive Hit
  | undefined
  | null
  | record (i : ℕ)
deriving DecidableEq, Repr

/-- The values of an `int`. -/
def IsInt (z : ℤ) : Prop := -2 ^ 31 ≤ z ∧ z < 2 ^ 31

instance (z : ℤ) : Decidable (IsInt z) := inferInstanceAs (Decidable (_ ∧ _))

/-- `rs[i]`. -/
def recordAt (rs : List (Place α)) (i : ℤ) : Option (Place α) := if 0 ≤ i then rs[i.toNat]? else none

/-- The `while` of `binary_search`. The quotient of two `int`s is one already: `floor` leaves it as it is. -/
def searchLoop (rs : List (Place α)) (needle : Id) (left right : ℤ) : ℕ → Option Hit
  | 0 => none
  | fuel + 1 =>
    if left ≤ right then
      if ¬ IsInt (left + right) then some .undefined
      else
        let median := (left + right).tdiv 2
        match recordAt rs median with
        | none => some .undefined
        | some r =>
          if r.osmId.slt needle then
            if IsInt (median + 1) then searchLoop rs needle (median + 1) right fuel else some .undefined
          else if needle.slt r.osmId then
            if IsInt (median - 1) then searchLoop rs needle left (median - 1) fuel else some .undefined
          else some (.record median.toNat)
    else some .null

/-- `binary_search`. -/
def binarySearch (rs : List (Place α)) (n : ℕ) (needle : Id) (fuel : ℕ) : Option Hit :=
  searchLoop rs needle 0 (n - 1) fuel

/-- `lookup_binary`. -/
def lookupBinary (data : BinData α) (needle : Id) (fuel : ℕ) : Option Hit :=
  binarySearch data.rs data.n needle fuel

/-- The record at the pointer that is returned. -/
def Hit.value (rs : List (Place α)) : Hit → Option (Place α)
  | .record i => rs[i]?
  | _ => none

/-! ### Sorting -/

/-- A comparison function that orders its arguments. -/
structure Orders (compare : α → α → ℤ) : Prop where
  flip : ∀ a b, 0 ≤ compare a b ↔ compare b a ≤ 0
  trans : ∀ a b c, compare a b ≤ 0 → compare b c ≤ 0 → compare a c ≤ 0

/-- **`qsort`**: for a comparison function that orders, the result is a sorted permutation; equal elements
may come in any order. -/
structure Sorts (qsort : (α → α → ℤ) → List α → List α) : Prop where
  perm : ∀ compare rs, Orders compare → (qsort compare rs).Perm rs
  sorted : ∀ compare rs, Orders compare → (qsort compare rs).Pairwise fun a b => compare a b ≤ 0

/-- Merging sorts. -/
theorem sorts_mergeSort :
    Sorts fun (compare : α → α → ℤ) rs => rs.mergeSort fun a b => decide (compare a b ≤ 0) := by
  constructor
  · intro compare rs _
    exact List.mergeSort_perm _ _
  · intro compare rs horders
    have htrans : ∀ a b c, decide (compare a b ≤ 0) → decide (compare b c ≤ 0) → decide (compare a c ≤ 0) := by
      intro a b c
      simp only [decide_eq_true_eq]
      exact horders.trans a b c
    have htotal : ∀ a b, decide (compare a b ≤ 0) || decide (compare b a ≤ 0) := by
      intro a b
      simp only [Bool.or_eq_true, decide_eq_true_eq]
      rw [← horders.flip a b]
      exact le_total _ _
    simpa only [decide_eq_true_eq] using List.pairwise_mergeSort htrans htotal rs

theorem compareIndexRecords_le_iff (a b : Place α) :
    compareIndexRecords a b ≤ 0 ↔ a.osmId.toInt ≤ b.osmId.toInt := by
  unfold compareIndexRecords
  simp only [BitVec.slt_iff_toInt_lt]
  split_ifs with hlt hgt
  · exact iff_of_true (by omega) hlt.le
  · exact iff_of_false (by omega) (by omega)
  · exact iff_of_true le_rfl (by omega)

/-- **The comparison orders** records by their ids, as signed numbers. -/
theorem compareIndexRecords_order : Orders (compareIndexRecords (α := α)) := by
  constructor
  · intro a b
    rw [compareIndexRecords_le_iff]
    unfold compareIndexRecords
    simp only [BitVec.slt_iff_toInt_lt]
    split_ifs
    · exact iff_of_false (by omega) (by omega)
    · exact iff_of_true (by omega) (by omega)
    · exact iff_of_true le_rfl (by omega)
  · intro a b c hab hbc
    rw [compareIndexRecords_le_iff] at hab hbc ⊢
    exact hab.trans hbc

/-- The ids of the records, as signed numbers. -/
def ids (rs : List (Place α)) : List ℤ := rs.map fun r => r.osmId.toInt

theorem mkIndexed_eq {qsort : (Place α → Place α → ℤ) → List (Place α) → List (Place α)} (rs : List (Place α)) :
    mkIndexed qsort rs rs.length = ⟨qsort compareIndexRecords rs, rs.length⟩ := by
  rw [mkIndexed, List.take_length, List.drop_length, List.append_nil]

theorem ids_sorted {qsort : (Place α → Place α → ℤ) → List (Place α) → List (Place α)} (hq : Sorts qsort)
    (rs : List (Place α)) : (ids (qsort compareIndexRecords rs)).Pairwise (· ≤ ·) := by
  rw [ids, List.pairwise_map]
  exact (hq.sorted _ rs compareIndexRecords_order).imp fun h => (compareIndexRecords_le_iff _ _).mp h

/-! ### Searching -/

/-- **A record with the id, or `NULL` if there is none.** -/
def Finds (rs : List (Place α)) (needle : Id) : Hit → Prop
  | .undefined => False
  | .null => ∀ r ∈ rs, r.osmId ≠ needle
  | .record i => ∃ r, rs[i]? = some r ∧ r.osmId = needle

variable {rs : List (Place α)} {needle : Id} {left right : ℤ}

/-- One round of the loop looks at the record in the middle. -/
theorem searchLoop_round (hlen : rs.length ≤ 2 ^ 30) (hle : left ≤ right) (hleft : 0 ≤ left)
    (hright : right < rs.length) : ∃ (m : ℕ) (hlt : m < rs.length), left ≤ m ∧ m ≤ right ∧
      ∀ fuel, searchLoop rs needle left right (fuel + 1) =
        if rs[m].osmId.slt needle then searchLoop rs needle (m + 1) right fuel
        else if needle.slt rs[m].osmId then searchLoop rs needle left (m - 1) fuel
        else some (.record m) := by
  obtain ⟨m, hm⟩ : ∃ m : ℕ, (left + right).tdiv 2 = m := by
    refine ⟨((left + right) / 2).toNat, ?_⟩
    rw [Int.tdiv_eq_ediv_of_nonneg (by omega)]
    omega
  have hmid : left ≤ m ∧ m ≤ right := by
    rw [Int.tdiv_eq_ediv_of_nonneg (by omega)] at hm
    omega
  have hlt : m < rs.length := by omega
  have hat : recordAt rs m = some rs[m] := by
    rw [recordAt, if_pos (by omega), Int.toNat_natCast, List.getElem?_eq_getElem hlt]
  refine ⟨m, hlt, hmid.1, hmid.2, fun fuel => ?_⟩
  have hsum : IsInt (left + right) := ⟨by omega, by omega⟩
  have hup : IsInt (m + 1 : ℤ) := ⟨by omega, by omega⟩
  have hdown : IsInt (m - 1 : ℤ) := ⟨by omega, by omega⟩
  simp only [searchLoop, if_pos hle, hm, hat, not_true_eq_false, hsum, hup, hdown, if_true, if_false,
    Int.toNat_natCast]

/-- What is left of the search, by the number of records between the bounds. -/
theorem searchLoop_finds (hsorted : (ids rs).Pairwise (· ≤ ·)) (hlen : rs.length ≤ 2 ^ 30)
    (h : Encloses (ids rs) needle.toInt left right) :
    ∃ hit, Yields (searchLoop rs needle left right) hit ∧ Finds rs needle hit := by
  induction hn : (right + 1 - left).toNat using Nat.strong_induction_on generalizing left right with
  | _ n ih =>
  have hlength : (ids rs).length = rs.length := List.length_map _
  by_cases hle : left ≤ right
  · obtain ⟨m, hlt, hlow, hhigh, hround⟩ := searchLoop_round hlen hle h.left_nonneg (hlength ▸ h.right_lt)
    have hkey : (ids rs)[m]? = some rs[m].osmId.toInt := by
      rw [ids, List.getElem?_map, List.getElem?_eq_getElem hlt, Option.map_some]
    by_cases hbelow : rs[m].osmId.slt needle
    · obtain ⟨hit, hyields, hfinds⟩ := ih _ (by omega)
        (h.above hsorted hkey (BitVec.slt_iff_toInt_lt.mp hbelow)) rfl
      exact ⟨hit, hyields.next rfl fun fuel => by rw [hround fuel, if_pos hbelow], hfinds⟩
    by_cases habove : needle.slt rs[m].osmId
    · obtain ⟨hit, hyields, hfinds⟩ := ih _ (by omega)
        (h.below hsorted hkey (BitVec.slt_iff_toInt_lt.mp habove)) rfl
      exact ⟨hit, hyields.next rfl fun fuel => by rw [hround fuel, if_neg hbelow, if_pos habove], hfinds⟩
    · refine ⟨.record m, .now rfl fun fuel => by rw [hround fuel, if_neg hbelow, if_neg habove], rs[m], ?_, ?_⟩
      · exact List.getElem?_eq_getElem hlt
      · rw [BitVec.slt_iff_toInt_lt] at hbelow habove
        exact BitVec.eq_of_toInt_eq (by omega)
  · refine ⟨.null, .now rfl fun fuel => by rw [searchLoop, if_neg hle], fun r hr hid => ?_⟩
    refine h.notMem (by omega) ?_
    rw [← hid]
    exact List.mem_map_of_mem hr

/-- **The search ends and finds.** -/
theorem binarySearch_finds (hsorted : (ids rs).Pairwise (· ≤ ·)) (hlen : rs.length ≤ 2 ^ 30) (needle : Id) :
    ∃ hit, Yields (binarySearch rs rs.length needle) hit ∧ Finds rs needle hit := by
  have hstart : Encloses (ids rs) needle.toInt 0 ((ids rs).length - 1) := .start
  rw [ids, List.length_map] at hstart
  exact searchLoop_finds hsorted hlen hstart

/-- A record of an array with unique ids is the first with its id. -/
theorem firstWith_of_nodup {i : ℕ} {r : Place α} (hnodup : (rs.map fun r => r.osmId).Nodup)
    (hi : rs[i]? = some r) :
    firstWith (rs.map Place.toRecord) r.osmId = some i := by
  obtain ⟨hlt, rfl⟩ := List.getElem?_eq_some_iff.mp hi
  rw [firstWith, List.findIdx?_eq_some_iff_getElem]
  refine ⟨by rwa [List.length_map], ?_, fun j hj => ?_⟩
  · simp only [List.getElem_map, decide_true]
  · simp only [List.getElem_map, decide_eq_true_eq]
    intro heq
    refine List.nodup_iff_getElem?_ne_getElem?.mp hnodup j i hj (by rwa [List.length_map]) ?_
    rw [List.getElem?_map, List.getElem?_map, List.getElem?_eq_getElem (hj.trans hlt), List.getElem?_eq_getElem hlt]
    exact congrArg some heq

/-- **Lookups are exact**: for up to `2^30` records in any order, the lookup ends without an access outside of
the array; it returns a record with the id if there is one and `NULL` otherwise, and if the ids are unique
it returns the record that `lookup_naive` finds in the array as it was. -/
theorem lookupBinary_exact {qsort : (Place α → Place α → ℤ) → List (Place α) → List (Place α)}
    (hq : Sorts qsort) (rs : List (Place α)) (hn : rs.length ≤ 2 ^ 30) (needle : Id) :
    ∃ hit found, Yields (lookupBinary (mkIndexed qsort rs rs.length) needle) hit ∧
      lookupNaive (mkNaive (rs.map Place.toRecord) rs.length) needle = some found ∧
      ((∃ i r, hit = .record i ∧ (mkIndexed qsort rs rs.length).rs[i]? = some r ∧ r ∈ rs ∧ r.osmId = needle) ∨
        hit = .null ∧ ∀ r ∈ rs, r.osmId ≠ needle) ∧
      ((rs.map fun r => r.osmId).Nodup →
        hit.value (mkIndexed qsort rs rs.length).rs = found.bind fun i => rs[i]?) := by
  have hperm : (qsort compareIndexRecords rs).Perm rs := hq.perm _ rs compareIndexRecords_order
  have hnaive := lookupNaive_eq (rs.map Place.toRecord) needle
  rw [List.length_map] at hnaive
  have hfinds := binarySearch_finds (ids_sorted hq rs) (hperm.length_eq ▸ hn) needle
  rw [hperm.length_eq] at hfinds
  obtain ⟨hit, hyields, hfinds⟩ := hfinds
  rw [mkIndexed_eq]
  refine ⟨hit, _, hyields, hnaive, ?_, fun hnodup => ?_⟩
  · rcases hit with _ | _ | i
    · exact hfinds.elim
    · exact Or.inr ⟨rfl, fun r hr => hfinds r (hperm.mem_iff.mpr hr)⟩
    · obtain ⟨r, hr, hid⟩ := hfinds
      exact Or.inl ⟨i, r, rfl, hr, hperm.mem_iff.mp (List.mem_of_getElem? hr), hid⟩
  · rcases hit with _ | _ | i
    · exact hfinds.elim
    · have hnone : firstWith (rs.map Place.toRecord) needle = none := by
        rw [firstWith, List.findIdx?_eq_none_iff]
        intro r hr
        obtain ⟨place, hplace, rfl⟩ := List.mem_map.mp hr
        exact decide_eq_false (hfinds place (hperm.mem_iff.mpr hplace))
      rw [hnone]
      rfl
    · obtain ⟨r, hr, rfl⟩ := hfinds
      obtain ⟨j, hj⟩ := List.mem_iff_getElem?.mp (hperm.mem_iff.mp (List.mem_of_getElem? hr))
      rw [firstWith_of_nodup hnodup hj]
      exact hr.trans hj.symm

/-- Three records that are out of order. -/
def threePlaces : List (Place String) :=
  [⟨⟨7#64⟩, "seven"⟩, ⟨⟨-1#64⟩, "minus one"⟩, ⟨⟨3#64⟩, "three"⟩]

/-- **The last of three records** is found by its id. -/
theorem lookupBinary_three : ∃ hit,
    Yields (lookupBinary (mkIndexed (fun compare rs => rs.mergeSort fun a b => decide (compare a b ≤ 0))
      threePlaces 3) 3#64) hit ∧
    hit.value (mkIndexed (fun compare rs => rs.mergeSort fun a b => decide (compare a b ≤ 0)) threePlaces 3).rs =
      some ⟨⟨3#64⟩, "three"⟩ := by
  obtain ⟨hit, found, hyields, hnaive, -, hunique⟩ :=
    lookupBinary_exact sorts_mergeSort threePlaces (by decide) 3#64
  have hfound : lookupNaive (mkNaive (threePlaces.map Place.toRecord) 3) 3#64 = some (some 2) := by decide
  obtain rfl := Option.some.inj (hnaive.symm.trans hfound)
  exact ⟨hit, hyields, hunique (by decide)⟩

end CompSys.A1.BinSearch
