import CompSys.A1.BinSearch
import CompSys.A1.ReadRecords

/-! # The query programs (`A1/id_query.c`, `A1/coord_query.c`)

`id_query_loop` and `coord_query_loop` differ in the queries and in what they print of them. Both are given an index by
three function pointers (`Program`). They read the dataset, build the index, and answer a query for each line of the
input. The clock is read twice around each of these steps.

If the lookup function of a program finds what a function `find` of the queries says, its output is that of `find`
(`queries_yield`), whatever the index is. -/

namespace CompSys.A1.QueryLoop

open CompSys.Lib.Fuel CompSys.A1.ReadRecord CompSys.A1.ReadRecords
open CompSys.A1.BinSearch (Hit)

variable {R Q ι D : Type}

/-- How a line of the input is read, and `mk_index` and `lookup`. Without enough fuel there is no result; `mkIndex` has
none either where its result is not defined, and it may leave the records in another order. -/
structure Program (R Q ι : Type) where
  /-- The query, if the line gives one. -/
  parse : List Char → Option Q
  mkIndex : List R → ℕ → ℕ → Option (Option (List R × ι))
  lookup : ι → Q → ℕ → Option Hit

/-- A line of the output. -/
inductive Line (R Q : Type)
  | readingRecords (ms : ℤ)
  | buildingIndex (ms : ℤ)
  /-- The query, and the name, the longitude and the latitude of the record. -/
  | found (needle : Q) (r : R)
  | notFound (needle : Q)
  | queryTime (us : ℤ)
  | totalRuntime (us : ℤ)

/-- How a program ends. -/
inductive Exit (R Q : Type)
  | undefined
  /-- With what it returns, its output, and the records whose lines were freed. -/
  | returned (status : ℤ) (stdout : List (Line R Q)) (freed : List R)

/-- `(int) x`. -/
def asInt (x : BitVec 64) : ℤ := (x.setWidth 32).toInt

/-- The readings of the clock, one after another. -/
abbrev Clock := ℕ → BitVec 64

/-- `runtime`, of the two readings from `k` on. -/
def runtime (clock : Clock) (k : ℕ) : BitVec 64 := clock (k + 1) - clock k

/-- The line that is printed for the pointer that `lookup` returned. -/
def answer (rs : List R) (needle : Q) : Hit → Option (Line R Q)
  | .undefined => none
  | .null => some (.notFound needle)
  | .record i => rs[i]?.map (.found needle)

/-- The `while` over the lines of the input. -/
def queries (p : Program R Q ι) (clock : Clock) (rs : List R) (index : ι) :
    ℕ → BitVec 64 → List Char → ℕ → Option (Option (List (Line R Q)))
  | _, _, _, 0 => none
  | k, sum, stdin, fuel + 1 =>
    match getline stdin with
    | none => some (some [.totalRuntime (asInt sum)])
    | some (line, stdin) =>
      match p.parse line with
      | none => some none
      | some needle =>
        (p.lookup index needle fuel).bind fun hit =>
          (answer rs needle hit).elim (some none) fun out =>
            (queries p clock rs index (k + 2) (sum + runtime clock k) stdin fuel).map
              (·.map ([out, .queryTime (asInt (runtime clock k))] ++ ·))

/-- Behind the loop: `free_records` has freed the lines. -/
def finish (clock : Clock) (rs : List R) : Option (List (Line R Q)) → Exit R Q
  | none => .undefined
  | some out =>
    .returned 0 (.readingRecords ((asInt (runtime clock 0)).tdiv 1000) ::
      .buildingIndex ((asInt (runtime clock 2)).tdiv 1000) :: out) rs

/-- Behind `mk_index`. -/
def withIndex (p : Program R Q ι) (clock : Clock) (stdin : List Char) :
    Option (List R × ι) → ℕ → Option (Exit R Q)
  | none, _ => some .undefined
  | some (rs, index), fuel => (queries p clock rs index 4 0 stdin fuel).map (finish clock rs)

/-- Behind `read_records`. -/
def withRecords (p : Program R Q ι) (clock : Clock) (stdin : List Char) :
    Option (Option (List R)) → ℕ → Option (Exit R Q)
  | none, _ => some .undefined
  | some none, _ => some (.returned 1 [] [])
  | some (some rs), fuel => (p.mkIndex rs rs.length fuel).bind fun built => withIndex p clock stdin built fuel

/-- **`id_query_loop`** and **`coord_query_loop`**, when `readRecords` is what `read_records` returns. -/
def queryLoop (p : Program R Q ι) (clock : Clock) (argc : ℤ) (readRecords : ℕ → Option (Option (Option (List R))))
    (stdin : List Char) (fuel : ℕ) : Option (Exit R Q) :=
  if argc ≠ 2 then some (.returned 1 [] [])
  else (readRecords fuel).bind fun records => withRecords p clock stdin records fuel

/-- What `read_records` leaves in `rs` and `n`, as far as a program looks at it: `view` is what it needs of a record,
if that has been assigned. -/
def records (view : ReadRecord.Record D → Option R) : ReadRecords.Outcome D → Option (Option (List R))
  | .undefined => none
  | .returned none _ => some none
  | .returned (some rs) n => ((rs.take n).mapM view).map some

/-- `read_records`. -/
def read (view : ReadRecord.Record D → Option R) (conv : Conversions D) (file : Option (List Char)) (fuel : ℕ) :
    Option (Option (Option (List R))) :=
  (readRecords conv file fuel).map (records view)

/-! ### What a program prints -/

/-- The answers to some queries, the next readings of the clock being those from `k` on, and the sum of the times. -/
def answers (find : Q → Option R) (clock : Clock) : ℕ → BitVec 64 → List Q → List (Line R Q)
  | _, sum, [] => [.totalRuntime (asInt sum)]
  | k, sum, needle :: needles =>
    [(find needle).elim (.notFound needle) (.found needle), .queryTime (asInt (runtime clock k))] ++
      answers find clock (k + 2) (sum + runtime clock k) needles

/-- What the whole program prints. -/
def output (find : Q → Option R) (clock : Clock) (needles : List Q) : List (Line R Q) :=
  .readingRecords ((asInt (runtime clock 0)).tdiv 1000) :: .buildingIndex ((asInt (runtime clock 2)).tdiv 1000) ::
    answers find clock 4 0 needles

/-- The lookup function finds what `find` says. -/
def Finds (p : Program R Q ι) (rs : List R) (index : ι) (find : Q → Option R) : Prop :=
  ∀ needle, ∃ hit, Yields (p.lookup index needle) hit ∧
    answer rs needle hit = some ((find needle).elim (.notFound needle) (.found needle))

variable {p : Program R Q ι} {clock : Clock} {rs : List R} {index : ι} {find : Q → Option R}

/-- **The loop answers what `find` says.** -/
theorem queries_yield (clock : Clock) (hfinds : Finds p rs index find) {needles : List Q} {stdin : List Char}
    (hparse : (lines stdin).mapM p.parse = some needles) (k : ℕ) (sum : BitVec 64) :
    Yields (queries p clock rs index k sum stdin) (some (answers find clock k sum needles)) := by
  induction hls : lines stdin generalizing stdin needles k sum with
  | nil =>
    obtain rfl := lines_eq_nil_iff.mp hls
    rw [hls, List.mapM_nil] at hparse
    obtain rfl := Option.some.inj hparse
    exact .now rfl fun _ => rfl
  | cons line ls ih =>
    obtain ⟨⟨line', rest⟩, hread⟩ : ∃ read, getline stdin = some read := by
      rw [← Option.isSome_iff_exists, Option.isSome_iff_ne_none, Ne, getline_eq_none, ← lines_eq_nil_iff, hls]
      exact List.cons_ne_nil _ _
    obtain ⟨rfl, rfl⟩ := List.cons.inj ((lines_eq hread).symm.trans hls)
    rw [hls, List.mapM_cons, Option.bind_eq_bind, Option.bind_eq_some_iff] at hparse
    obtain ⟨needle, hneedle, hrest⟩ := hparse
    rw [Option.bind_eq_bind, Option.bind_eq_some_iff] at hrest
    obtain ⟨needles', hneedles, heq⟩ := hrest
    obtain rfl := Option.some.inj heq
    obtain ⟨hit, hhit, hanswer⟩ := hfinds needle
    have hgo := (ih hneedles (k + 2) (sum + runtime clock k) rfl).map
      (·.map ([(find needle).elim (.notFound needle) (.found needle), .queryTime (asInt (runtime clock k))] ++ ·))
    refine Yields.next rfl (fun fuel => ?_) (hhit.bind (g := fun hit fuel =>
      (answer rs needle hit).elim (some none) fun out =>
        (queries p clock rs index (k + 2) (sum + runtime clock k) rest fuel).map
          (·.map ([out, .queryTime (asInt (runtime clock k))] ++ ·))) (by rw [hanswer]; exact hgo))
    simp only [queries, hread, hneedle]

/-- **A dataset is read**, record by record. -/
theorem read_yields {view : ReadRecord.Record D → Option R} {conv : Conversions D} {f : List Char}
    (hheader : (lines f).head? = some headerLine) (hlen : (lines f).length ≤ 100 * 2 ^ 24)
    (hrows : (lines f).tail.mapM (fun line => view (recordOf conv line)) = some rs) :
    Yields (read view conv (some f)) (some (some rs)) := by
  obtain ⟨⟨line, g⟩, hread⟩ : ∃ read, getline f = some read := by
    rw [← Option.isSome_iff_exists, Option.isSome_iff_ne_none, Ne, getline_eq_none,
      ← lines_eq_nil_iff]
    intro hnil
    rw [hnil] at hheader
    cases hheader
  rw [lines_eq hread] at hheader hlen hrows
  obtain rfl := Option.some.inj hheader
  obtain ⟨hfew, -⟩ := readLoop_yields conv (f := g) (k := 0) (by omega) (Eq.refl 100)
    (show ([] : List (List Char)).length < 100 by decide)
  rw [← readRecords_header hread, List.length_nil, Nat.zero_add] at hfew
  obtain ⟨m, hm⟩ := hfew (by rw [List.length_cons] at hlen; omega)
  have hrecords := hm.map (records view)
  rw [List.nil_append, records, filled, List.take_left' (List.length_map _), List.mapM_map] at hrecords
  rw [List.tail_cons] at hrows
  rwa [show view ∘ recordOf conv = fun line => view (recordOf conv line) from rfl, hrows] at hrecords

/-- **A whole run**, from a dataset that was read. -/
theorem queryLoop_yields {readRecords : ℕ → Option (Option (Option (List R)))} {rs₀ : List R}
    (hread : Yields readRecords (some (some rs₀))) (hindex : Yields (p.mkIndex rs₀ rs₀.length) (some (rs, index)))
    (hfinds : Finds p rs index find) {needles : List Q} {stdin : List Char}
    (hparse : (lines stdin).mapM p.parse = some needles) :
    Yields (queryLoop p clock 2 readRecords stdin) (.returned 0 (output find clock needles) rs) := by
  have hqueries := (queries_yield clock hfinds hparse 4 0).map (finish clock rs)
  have hbuilt : Yields (withRecords p clock stdin (some (some rs₀))) (.returned 0 (output find clock needles) rs) :=
    hindex.bind (g := withIndex p clock stdin) hqueries
  exact hread.bind (g := withRecords p clock stdin) hbuilt

/-- A dataset with the record of one line. -/
def oneRow : List Char := headerLine ++ dataLine letters

/-- Numbers are read as the lengths of the texts. -/
def lengths : Conversions ℕ := ⟨fun s => BitVec.ofNat 64 s.length, fun s => BitVec.ofNat 32 s.length, List.length⟩

end CompSys.A1.QueryLoop
