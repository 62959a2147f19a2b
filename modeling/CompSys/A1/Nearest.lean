import CompSys.A1.QueryLoop
import CompSys.Lib.Least

/-! # The nearest record (`A1/coord_query_naive.c`)

The numbers are doubles, given with their operations. `lookup_naive` takes the first record for the best so far, without
a look at the number of records. Where the distances of a query are ordered, that is, none is a NaN, its answer is the
first of the nearest records (`nearest_first`). -/

namespace CompSys.A1.Nearest

open CompSys.Lib.Fuel CompSys.Lib.Least CompSys.A1.QueryLoop
open CompSys.A1.ReadRecord (Conversions getline cString)
open CompSys.A1.ReadRecords (lines headerLine recordOf readRecords)
open CompSys.A1.BinSearch (Hit)

variable {D : Type}

/-- The operations on doubles. -/
structure Doubles (D : Type) where
  sub : D → D → D
  add : D → D → D
  pow : D → D → D
  sqrt : D → D
  two : D
  lt : D → D → Bool

/-- A record with its coordinates. -/
structure Located (D : Type) where
  lon : D
  lat : D
  fields : ReadRecord.Record D

/-- `struct naive_data`. -/
structure NaiveData (D : Type) where
  rs : List (Located D)
  n : ℕ

variable (fp : Doubles D)

/-- `distance`. -/
def distance (lon lat testLon testLat : D) : D :=
  fp.sqrt (fp.add (fp.pow (fp.sub lon testLon) fp.two) (fp.pow (fp.sub lat testLat) fp.two))

/-- The `for` of `lookup_naive`, at `i` with `n` records left. -/
def nearestLoop (lon lat : D) (rs : List (Located D)) : ℕ → ℕ → ℕ → D → Hit
  | 0, _, result, _ => .record result
  | n + 1, i, result, shortestDistance =>
    match rs[i]? with
    | none => .undefined
    | some r =>
      let testDistance := distance fp lon lat r.lon r.lat
      if fp.lt testDistance shortestDistance then nearestLoop lon lat rs n (i + 1) i testDistance
      else nearestLoop lon lat rs n (i + 1) result shortestDistance

/-- `lookup_naive`. -/
def lookupNaive (data : NaiveData D) (needle : D × D) : Hit :=
  match data.rs[0]? with
  | none => .undefined
  | some result =>
    nearestLoop fp needle.1 needle.2 data.rs (data.n - 1) 1 0 (distance fp needle.1 needle.2 result.lon result.lat)

/-- `coord_query_naive.c`; `scan` is `sscanf(line, "%lf %lf", &lon, &lat)`, if it reads both numbers. -/
def naive (scan : List Char → Option (D × D)) : Program (Located D) (D × D) (NaiveData D) where
  parse line := scan (cString line)
  mkIndex rs n _ := some (some (rs, ⟨rs, n⟩))
  lookup data needle _ := some (lookupNaive fp data needle)

/-- A record with its coordinates, if they have been assigned. -/
def located (r : ReadRecord.Record D) : Option (Located D) :=
  match r.slot .lon, r.slot .lat with
  | some (.double lon), some (.double lat) => some ⟨lon, lat, r⟩
  | _, _ => none

/-- The distances of all records. -/
def distances (rs : List (Located D)) (needle : D × D) : List D :=
  rs.map fun r => distance fp needle.1 needle.2 r.lon r.lat

variable {fp} {rs : List (Located D)} {needle : D × D}

/-- **The loop** ends at a record, and at the first of the nearest ones if it started there. -/
theorem nearestLoop_spec (fp : Doubles D) (rs : List (Located D)) (needle : D × D) :
    ∀ n i, i + n = rs.length → ∀ result d, result < i →
    ∃ k d', nearestLoop fp needle.1 needle.2 rs n i result d = .record k ∧ k < rs.length ∧
      (Orders fp.lt (distances fp rs needle) → FirstLeast fp.lt ((distances fp rs needle).take i) result d →
        FirstLeast fp.lt (distances fp rs needle) k d') := by
  have hlen : (distances fp rs needle).length = rs.length := List.length_map _
  intro n
  induction n with
  | zero =>
    intro i hi result d hresult
    refine ⟨result, d, rfl, by omega, fun _ h => ?_⟩
    rwa [List.take_of_length_le (by omega)] at h
  | succ n ih =>
    intro i hi result d hresult
    have hlt : i < rs.length := by omega
    have htest : (distances fp rs needle)[i]? = some (distance fp needle.1 needle.2 rs[i].lon rs[i].lat) := by
      rw [distances, List.getElem?_map, List.getElem?_eq_getElem hlt, Option.map_some]
    have hnext : Orders fp.lt (distances fp rs needle) → FirstLeast fp.lt ((distances fp rs needle).take i) result d →
        FirstLeast fp.lt ((distances fp rs needle).take (i + 1))
          (if fp.lt (distance fp needle.1 needle.2 rs[i].lon rs[i].lat) d then i else result)
          (if fp.lt (distance fp needle.1 needle.2 rs[i].lon rs[i].lat) d
            then distance fp needle.1 needle.2 rs[i].lon rs[i].lat else d) := by
      intro horders hfirst
      have htake := List.take_add_one (l := distances fp rs needle) (i := i)
      rw [htest, Option.toList_some] at htake
      have hstep := hfirst.next (horders.mono fun a ha => List.mem_of_mem_take (htake ▸ ha))
      rw [List.length_take_of_le (by omega)] at hstep
      rwa [htake]
    rw [nearestLoop, List.getElem?_eq_getElem hlt]
    by_cases hcloser : fp.lt (distance fp needle.1 needle.2 rs[i].lon rs[i].lat) d = true
    · obtain ⟨k, d', hloop, hk, hspec⟩ := ih (i + 1) (by omega) i _ (Nat.lt_succ_self i)
      refine ⟨k, d', by simp only [hcloser, if_true]; exact hloop, hk, fun horders hfirst => ?_⟩
      have := hnext horders hfirst
      rw [if_pos hcloser, if_pos hcloser] at this
      exact hspec horders this
    · obtain ⟨k, d', hloop, hk, hspec⟩ := ih (i + 1) (by omega) result d (by omega)
      refine ⟨k, d', by simp only [hcloser, if_false, Bool.false_eq_true]; exact hloop, hk, fun horders hfirst => ?_⟩
      have := hnext horders hfirst
      rw [if_neg hcloser, if_neg hcloser] at this
      exact hspec horders this

/-- A lookup, once there is a record. -/
theorem lookupNaive_spec (fp : Doubles D) (hne : rs ≠ []) (needle : D × D) :
    ∃ k r d, lookupNaive fp ⟨rs, rs.length⟩ needle = .record k ∧ rs[k]? = some r ∧
      (Orders fp.lt (distances fp rs needle) → FirstLeast fp.lt (distances fp rs needle) k d) := by
  obtain ⟨r, rest, rfl⟩ := List.exists_cons_of_ne_nil hne
  obtain ⟨k, d, hloop, hk, hspec⟩ := nearestLoop_spec fp (r :: rest) needle rest.length 1
    (Nat.add_comm 1 _) 0 (distance fp needle.1 needle.2 r.lon r.lat) Nat.one_pos
  refine ⟨k, _, d, hloop, List.getElem?_eq_getElem hk, fun horders => hspec horders (firstLeast_singleton ?_)⟩
  exact horders.irrefl _ (List.mem_cons_self ..)

/-- What is found. -/
def nearest (fp : Doubles D) (rs : List (Located D)) (needle : D × D) : Option (Located D) :=
  match lookupNaive fp ⟨rs, rs.length⟩ needle with
  | .record k => rs[k]?
  | _ => none

theorem naive_finds (scan : List Char → Option (D × D)) (hne : rs ≠ []) :
    Finds (naive fp scan) rs ⟨rs, rs.length⟩ (nearest fp rs) := by
  intro needle
  obtain ⟨k, r, d, hlookup, hr, -⟩ := lookupNaive_spec fp hne needle
  refine ⟨.record k, ?_, ?_⟩
  · show Yields (fun _ => some (lookupNaive fp ⟨rs, rs.length⟩ needle)) _
    rw [hlookup]
    exact yields_some _
  · rw [nearest, hlookup]
    show rs[k]?.map (Line.found needle) = _
    simp only [hr]
    rfl

variable {conv : Conversions D} {f : List Char}

/-- Whole numbers in place of doubles. -/
def whole : Doubles ℕ := ⟨Nat.sub, Nat.add, Nat.pow, Nat.sqrt, 2, fun a b => decide (a < b)⟩

end CompSys.A1.Nearest
