import Mathlib.Tactic

/-! # Lookups by scanning (`A1/id_query_naive.c`, `A1/id_query_indexed.c`)

A pointer into the array of records is an index of it, and `NULL` is `none`. Of a record only `osm_id`
is read. An access behind the end of an array has no defined result. `malloc` is taken to succeed, for
no records too. Both lookups return the first record with the id (`lookupNaive_eq`,
`lookupIndexed_eq`). -/

namespace CompSys.A1.IdQuery

/-- `int64_t`. -/
abbrev Id := BitVec 64

structure Record where
  osmId : Id
deriving DecidableEq, Repr

/-- The loop of both lookups, at `i` with `n` elements left: what `hit` makes of the first element
with the id. -/
def scanLoop {α : Type} (osmId : α → Id) (hit : ℕ → α → ℕ) (xs : List α) (needle : Id) :
    ℕ → ℕ → Option (Option ℕ)
  | 0, _ => some none
  | n + 1, i =>
    match xs[i]? with
    | none => none
    | some x =>
      if osmId x = needle then some (some (hit i x)) else scanLoop osmId hit xs needle n (i + 1)

/-! ### `id_query_naive.c` -/

/-- `struct naive_data`. -/
structure NaiveData where
  rs : List Record
  n : ℕ

def mkNaive (rs : List Record) (n : ℕ) : NaiveData := ⟨rs, n⟩

def lookupNaive (data : NaiveData) (needle : Id) : Option (Option ℕ) :=
  scanLoop Record.osmId (fun i _ => i) data.rs needle data.n 0

/-! ### `id_query_indexed.c` -/

/-- `struct index_record`. -/
structure IndexRecord where
  osmId : Id
  record : ℕ

/-- `struct indexed_data`. -/
structure IndexedData where
  irs : List IndexRecord
  n : ℕ

/-- The `for` of `mk_indexed`, at `i` with `n` records left; `irs` is filled up to `i`. -/
def fillLoop (rs : List Record) : ℕ → ℕ → List IndexRecord → Option (List IndexRecord)
  | 0, _, irs => some irs
  | n + 1, i, irs =>
    match rs[i]? with
    | none => none
    | some r => fillLoop rs n (i + 1) (irs ++ [⟨r.osmId, i⟩])

def mkIndexed (rs : List Record) (n : ℕ) : Option IndexedData :=
  (fillLoop rs n 0 []).map fun irs => ⟨irs, n⟩

def lookupIndexed (data : IndexedData) (needle : Id) : Option (Option ℕ) :=
  scanLoop IndexRecord.osmId (fun _ r => r.record) data.irs needle data.n 0

/-! ### What they find -/

/-- **The first record with the id**, in the order of the array. -/
def firstWith (rs : List Record) (needle : Id) : Option ℕ :=
  rs.findIdx? fun r => decide (r.osmId = needle)

/-- A scan finds the first element with the id behind `i`. -/
theorem scanLoop_eq {α : Type} (osmId : α → Id) (hit : ℕ → α → ℕ) (xs : List α) (needle : Id) :
    ∀ n i, i + n = xs.length → (∀ j x, xs[j]? = some x → hit j x = j) →
      scanLoop osmId hit xs needle n i =
        some (((xs.drop i).findIdx? fun x => decide (osmId x = needle)).map (· + i)) := by
  intro n
  induction n with
  | zero =>
    intro i hi _
    rw [scanLoop, List.drop_of_length_le (by omega), List.findIdx?_nil, Option.map_none]
  | succ n ih =>
    intro i hi hhit
    have hlt : i < xs.length := by omega
    have hget : xs[i]? = some xs[i] := List.getElem?_eq_getElem hlt
    rw [scanLoop, hget, List.drop_eq_getElem_cons hlt, List.findIdx?_cons]
    by_cases hx : osmId xs[i] = needle
    · simp only [hx, if_true, decide_true, Option.map_some, hhit i _ hget, Nat.zero_add]
    · simp only [hx, if_false, decide_false, ih (i + 1) (by omega) hhit, Option.map_map,
        Bool.false_eq_true]
      congr 2
      funext k
      simp only [Function.comp_apply]
      omega

theorem lookupNaive_eq (rs : List Record) (needle : Id) :
    lookupNaive (mkNaive rs rs.length) needle = some (firstWith rs needle) := by
  rw [lookupNaive, mkNaive, scanLoop_eq _ _ _ _ _ _ (Nat.zero_add _) (fun _ _ _ => rfl),
    List.drop_zero, firstWith]
  simp only [Nat.add_zero, Option.map_id']

/-- The index of the records. -/
def indexRecords (rs : List Record) : List IndexRecord := rs.mapIdx fun i r => ⟨r.osmId, i⟩

theorem fillLoop_eq (rs : List Record) : ∀ n i, i + n = rs.length →
    fillLoop rs n i ((indexRecords rs).take i) = some (indexRecords rs) := by
  have hlen : (indexRecords rs).length = rs.length := List.length_mapIdx
  intro n
  induction n with
  | zero =>
    intro i hi
    rw [fillLoop, List.take_of_length_le (by omega)]
  | succ n ih =>
    intro i hi
    have hlt : i < rs.length := by omega
    have hentry : (indexRecords rs)[i]? = some ⟨rs[i].osmId, i⟩ := by
      rw [indexRecords, List.getElem?_mapIdx, List.getElem?_eq_getElem hlt, Option.map_some]
    rw [fillLoop, List.getElem?_eq_getElem hlt]
    simp only
    rw [← ih (i + 1) (by omega), List.take_add_one, hentry, Option.toList_some]

theorem mkIndexed_eq (rs : List Record) :
    mkIndexed rs rs.length = some ⟨indexRecords rs, rs.length⟩ := by
  have hfill := fillLoop_eq rs rs.length 0 (Nat.zero_add _)
  rw [List.take_zero] at hfill
  rw [mkIndexed, hfill, Option.map_some]

theorem lookupIndexed_eq (rs : List Record) (needle : Id) :
    lookupIndexed ⟨indexRecords rs, rs.length⟩ needle = some (firstWith rs needle) := by
  have hlen : (indexRecords rs).length = rs.length := List.length_mapIdx
  have hrecord : ∀ j x, (indexRecords rs)[j]? = some x → IndexRecord.record x = j := by
    intro j x hx
    rw [indexRecords, List.getElem?_mapIdx, Option.map_eq_some_iff] at hx
    obtain ⟨_, _, rfl⟩ := hx
    rfl
  have hids : (indexRecords rs).map IndexRecord.osmId = rs.map Record.osmId := by
    refine List.ext_getElem? fun i => ?_
    rw [indexRecords, List.getElem?_map, List.getElem?_mapIdx, Option.map_map, List.getElem?_map]
    rfl
  have hfirst : ((indexRecords rs).findIdx? fun x => decide (x.osmId = needle)) =
      firstWith rs needle := by
    have hmap := congrArg (fun ids => ids.findIdx? fun x => decide (x = needle)) hids
    simpa only [firstWith, List.findIdx?_map, Function.comp_def] using hmap
  rw [lookupIndexed, scanLoop_eq _ _ _ _ _ _ (by rw [hlen]; exact Nat.zero_add _) hrecord,
    List.drop_zero, hfirst]
  simp only [Nat.add_zero, Option.map_id']

end CompSys.A1.IdQuery
