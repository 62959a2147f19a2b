import CompSys.A1.ReadRecord
import CompSys.Lib.Fuel

/-! # A whole dataset (`A1/record.c`)

`read_records` reads records into an array whose capacity is doubled where it is full. `malloc` and `realloc`
are taken to succeed; a record outside of the allocation and an `int` that overflows have no defined result.
A dataset is read as it should be unless the file is empty, where the header is not missed, or has so many
lines that the capacity overflows (`readRecords_iff`). -/

namespace CompSys.A1.ReadRecords

open CompSys.Lib.Fuel CompSys.A1.ReadRecord

variable {D : Type}

/-- The name of a column. -/
def word : Field → String
  | .name => "name"
  | .alternativeNames => "alternative_names"
  | .osmType => "osm_type"
  | .osmId => "osm_id"
  | .class_ => "class"
  | .type => "type"
  | .lon => "lon"
  | .lat => "lat"
  | .placeRank => "place_rank"
  | .importance => "importance"
  | .street => "street"
  | .city => "city"
  | .county => "county"
  | .state => "state"
  | .country => "country"
  | .countryCode => "country_code"
  | .displayName => "display_name"
  | .west => "west"
  | .south => "south"
  | .east => "east"
  | .north => "north"
  | .wikidata => "wikidata"
  | .wikipedia => "wikipedia"
  | .housenumbers => "housenumbers"

/-- The line that `input_looks_ok` compares the first line with. -/
def headerLine : List Char := dataLine (header.map fun field => (word field).toList)

/-- `input_looks_ok`, and the rest of the file. -/
def inputLooksOk (f : List Char) : ℤ × List Char :=
  match getline f with
  | none => (-1, f)
  | some (line, f) => (if cString (line ++ ['\x00']) = headerLine then 1 else 0, f)

/-- What `read_records` returns, and `*n` then, if that is defined. -/
inductive Outcome (D : Type)
  | undefined
  | returned (rs : Option (List (Record D))) (n : ℕ)

/-- The `while` of `read_records`, with the allocation `rs` of `capacity` records. -/
def readLoop (conv : Conversions D) (rs : List (Record D)) (capacity i : ℕ) (f : List Char) : ℕ → Option (Outcome D)
  | 0 => none
  | fuel + 1 =>
    match rs[i]? with
    | none => some .undefined
    | some r =>
      match readRecord conv r f with
      | none => some (.returned (some rs) i)
      | some (r, f) =>
        if i + 1 = capacity then
          if capacity * 2 < 2 ^ 31 then
            readLoop conv (rs.set i r ++ List.replicate (capacity * 2 - rs.length) fresh) (capacity * 2) (i + 1)
              f fuel
          else some .undefined
        else readLoop conv (rs.set i r) capacity (i + 1) f fuel

/-- `read_records`; there is no file if it cannot be opened. -/
def readRecords (conv : Conversions D) (file : Option (List Char)) (fuel : ℕ) : Option (Outcome D) :=
  match file with
  | none => some (.returned none 0)
  | some f =>
    let looks := inputLooksOk f
    if looks.1 = 0 then some (.returned none 0)
    else readLoop conv (List.replicate 100 fresh) 100 0 looks.2 fuel

/-! ### Lines -/

/-- The lines of a file, with their newlines. -/
def lines : List Char → List (List Char)
  | [] => []
  | c :: f =>
    if c = '\n' then [c] :: lines f
    else match lines f with
      | [] => [[c]]
      | line :: rest => (c :: line) :: rest

variable {f g line : List Char}

theorem getline_eq_none : getline f = none ↔ f = [] := by
  rcases f with _ | ⟨c, f⟩
  · exact iff_of_true rfl rfl
  · refine iff_of_false ?_ (List.cons_ne_nil c f)
    rw [getline]
    split_ifs
    · exact not_false
    · split
      · exact Option.some_ne_none _
      · exact Option.some_ne_none _

/-- **`getline` reads line after line.** -/
theorem lines_eq (h : getline f = some (line, g)) : lines f = line :: lines g := by
  induction f generalizing line with
  | nil => exact absurd h (Option.some_ne_none _).symm
  | cons c f ih =>
    rw [getline] at h
    rw [lines]
    split_ifs at h ⊢ with hc
    · obtain ⟨rfl, rfl⟩ := Prod.mk.inj (Option.some.inj h)
      rfl
    · split at h
      · rename_i hnone
        obtain ⟨rfl, rfl⟩ := Prod.mk.inj (Option.some.inj h)
        rw [getline_eq_none.mp hnone, lines]
      · rename_i line' g' hsome
        obtain ⟨rfl, rfl⟩ := Prod.mk.inj (Option.some.inj h)
        rw [ih hsome]

/-- A newline ends a line. -/
theorem newline_notMem (h : getline f = some (line, g)) : '\n' ∉ line.dropLast := by
  induction f generalizing line with
  | nil => exact absurd h (Option.some_ne_none _).symm
  | cons c f ih =>
    rw [getline] at h
    split_ifs at h with hc
    · obtain ⟨rfl, rfl⟩ := Prod.mk.inj (Option.some.inj h)
      exact List.not_mem_nil
    · split at h
      · obtain ⟨rfl, rfl⟩ := Prod.mk.inj (Option.some.inj h)
        exact List.not_mem_nil
      · rename_i line' g' hsome
        obtain ⟨rfl, rfl⟩ := Prod.mk.inj (Option.some.inj h)
        rcases line' with _ | ⟨d, line'⟩
        · exact List.not_mem_nil
        · rw [List.dropLast_cons_cons, List.mem_cons, not_or]
          exact ⟨Ne.symm hc, ih hsome⟩

theorem lines_eq_nil_iff : lines f = [] ↔ f = [] := by
  constructor
  · intro h
    rw [← getline_eq_none, ← Option.not_isSome_iff_eq_none, Option.isSome_iff_exists]
    rintro ⟨⟨line, g⟩, hread⟩
    rw [lines_eq hread] at h
    exact absurd h (List.cons_ne_nil _ _)
  · rintro rfl
    rfl

/-! ### The header -/

theorem zero_notMem_headerLine : '\x00' ∉ headerLine := by
  have hwords : ∀ field ∈ header, '\x00' ∉ (word field).toList := by decide
  refine zero_notMem_dataLine fun name hname => ?_
  obtain ⟨field, hfield, rfl⟩ := List.mem_map.mp hname
  exact hwords field hfield

/-- **The header is recognized.** -/
theorem cString_eq_headerLine (h : getline f = some (line, g)) :
    cString (line ++ ['\x00']) = headerLine ↔ line = headerLine := by
  constructor
  · intro hstring
    by_cases hzero : '\x00' ∈ line
    · -- the zero would stand behind the newline of the header
      obtain ⟨before, rest, rfl, hbefore⟩ := List.eq_append_cons_of_mem hzero
      rw [List.append_assoc, List.cons_append, cString_eq hbefore] at hstring
      have hnewline := newline_notMem h
      rw [List.dropLast_append_of_ne_nil (List.cons_ne_nil _ _), hstring, headerLine, dataLine] at hnewline
      simp at hnewline
    · rwa [cString_eq hzero []] at hstring
  · rintro rfl
    exact cString_eq zero_notMem_headerLine []

/-- **What `input_looks_ok` makes of the first line.** -/
theorem inputLooksOk_eq (h : getline f = some (line, g)) :
    inputLooksOk f = (if line = headerLine then 1 else 0, g) := by
  simp only [inputLooksOk, h, cString_eq_headerLine h]

/-! ### The loop -/

variable {conv : Conversions D}

/-- The record that a line makes. -/
def recordOf (conv : Conversions D) (line : List Char) : Record D :=
  readColumns conv steps { (fresh : Record D) with line := line ++ ['\x00'] } 0

/-- An allocation of `capacity` records, with those of the lines `done` at its front. -/
def filled (conv : Conversions D) (done : List (List Char)) (capacity : ℕ) : List (Record D) :=
  done.map (recordOf conv) ++ List.replicate (capacity - done.length) fresh

variable {done : List (List Char)} {capacity : ℕ}

theorem filled_length (h : done.length ≤ capacity) : (filled conv done capacity).length = capacity := by
  rw [filled, List.length_append, List.length_map, List.length_replicate]
  omega

theorem filled_next (h : done.length < capacity) : (filled conv done capacity)[done.length]? = some fresh := by
  have hlen : done.length = (done.map (recordOf conv)).length := (List.length_map _).symm
  rw [filled, List.getElem?_append_right (by omega), List.getElem?_replicate, if_pos (by omega)]

theorem filled_set (h : done.length < capacity) (line : List Char) :
    (filled conv done capacity).set done.length (recordOf conv line) = filled conv (done ++ [line]) capacity := by
  have hlen : (done.map (recordOf conv)).length = done.length := List.length_map _
  obtain ⟨free, hfree⟩ := Nat.exists_eq_add_of_lt h
  rw [filled, filled, List.set_append_right _ _ (by omega), hlen, Nat.sub_self, List.map_append, List.length_append,
    show capacity - done.length = free + 1 by omega, List.length_singleton,
    show capacity - (done.length + 1) = free by omega, List.replicate_succ, List.set_cons_zero, List.append_assoc]
  rfl

theorem filled_grow (h : done.length ≤ capacity) (n : ℕ) :
    filled conv done capacity ++ List.replicate n fresh = filled conv done (capacity + n) := by
  rw [filled, filled, List.append_assoc, List.replicate_append_replicate]
  congr 2
  omega

/-- One more line. -/
theorem readRecord_line (h : getline f = some (line, g)) :
    readRecord conv fresh f = some (recordOf conv line, g) := by
  rw [readRecord, h]
  rfl

/-- One round of the loop, while there are lines. -/
theorem readLoop_line (conv : Conversions D) (h : getline f = some (line, g)) (hlt : done.length < capacity)
    (fuel : ℕ) :
    readLoop conv (filled conv done capacity) capacity done.length f (fuel + 1) =
      if done.length + 1 = capacity then
        if capacity * 2 < 2 ^ 31 then
          readLoop conv (filled conv (done ++ [line]) (capacity * 2)) (capacity * 2) (done ++ [line]).length g fuel
        else some .undefined
      else readLoop conv (filled conv (done ++ [line]) capacity) capacity (done ++ [line]).length g fuel := by
  have hgrown : filled conv (done ++ [line]) capacity ++
      List.replicate (capacity * 2 - (filled conv done capacity).length) fresh =
      filled conv (done ++ [line]) (capacity * 2) := by
    rw [filled_length hlt.le, filled_grow (by rw [List.length_append, List.length_singleton]; omega)]
    congr 1
    omega
  simp only [readLoop, filled_next hlt, readRecord_line h, filled_set hlt, hgrown, List.length_append,
    List.length_singleton]

theorem readLoop_end (hf : f = []) (hlt : done.length < capacity) (fuel : ℕ) :
    readLoop conv (filled conv done capacity) capacity done.length f (fuel + 1) =
      some (.returned (some (filled conv done capacity)) done.length) := by
  subst hf
  simp only [readLoop, filled_next hlt]
  rfl

/-- **The loop**: the capacity is `100 * 2^k`, and can be doubled while `k < 24`. -/
theorem readLoop_yields (conv : Conversions D) {k : ℕ} (hk : k ≤ 24) (hcapacity : capacity = 100 * 2 ^ k)
    (hlt : done.length < capacity) :
    (done.length + (lines f).length < 100 * 2 ^ 24 → ∃ m,
      Yields (readLoop conv (filled conv done capacity) capacity done.length f)
        (.returned (some (filled conv (done ++ lines f) m)) (done.length + (lines f).length))) ∧
    (100 * 2 ^ 24 ≤ done.length + (lines f).length →
      Yields (readLoop conv (filled conv done capacity) capacity done.length f) .undefined) := by
  have hpow : 2 ^ k ≤ 2 ^ 24 := Nat.pow_le_pow_right (by omega) hk
  induction hls : lines f generalizing f done capacity k with
  | nil =>
    refine ⟨fun _ => ⟨capacity, ?_⟩, fun hmany => ?_⟩
    · rw [List.append_nil]
      exact .now rfl (readLoop_end (lines_eq_nil_iff.mp hls) hlt)
    · rw [List.length_nil] at hmany
      omega
  | cons line ls ih =>
    obtain ⟨⟨line', g⟩, hread⟩ : ∃ read, getline f = some read := by
      rw [← Option.isSome_iff_exists, Option.isSome_iff_ne_none, Ne, getline_eq_none, ← lines_eq_nil_iff, hls]
      exact List.cons_ne_nil _ _
    obtain ⟨rfl, rfl⟩ := List.cons.inj ((lines_eq hread).symm.trans hls)
    have hround := readLoop_line conv hread hlt
    have hlength : (done ++ [line']).length = done.length + 1 := by rw [List.length_append, List.length_singleton]
    have htotal : done.length + (line' :: lines g).length = (done ++ [line']).length + (lines g).length := by
      rw [hlength, List.length_cons]
      omega
    have hlines : done ++ line' :: lines g = done ++ [line'] ++ lines g := by
      rw [List.append_assoc, List.singleton_append]
    rw [htotal, hlines]
    by_cases hfull : done.length + 1 = capacity
    · rcases Nat.lt_or_ge k 24 with hk' | hk'
      · have hnext : capacity * 2 = 100 * 2 ^ (k + 1) := by rw [hcapacity, pow_succ]; omega
        have hpow' : 2 ^ (k + 1) ≤ 2 ^ 24 := Nat.pow_le_pow_right (by omega) hk'
        obtain ⟨hfew, hmany⟩ := ih hk' hnext (show (done ++ [line']).length < capacity * 2 by omega) hpow' rfl
        have hgo : ∀ fuel, _ := fun fuel => (hround fuel).trans
          (by rw [if_pos hfull, if_pos (show capacity * 2 < 2 ^ 31 by omega)])
        refine ⟨fun h => ?_, fun h => (hmany h).next rfl hgo⟩
        obtain ⟨m, hm⟩ := hfew h
        exact ⟨m, hm.next rfl hgo⟩
      · obtain rfl : k = 24 := le_antisymm hk hk'
        refine ⟨fun h => by omega, fun _ => .now rfl fun fuel => ?_⟩
        rw [hround fuel, if_pos hfull, if_neg (by omega)]
    · obtain ⟨hfew, hmany⟩ := ih hk hcapacity (show (done ++ [line']).length < capacity by omega) hpow rfl
      have hgo : ∀ fuel, _ := fun fuel => (hround fuel).trans (by rw [if_neg hfull])
      refine ⟨fun h => ?_, fun h => (hmany h).next rfl hgo⟩
      obtain ⟨m, hm⟩ := hfew h
      exact ⟨m, hm.next rfl hgo⟩

/-! ### The dataset -/

/-- **A dataset is read as it should be**: without the header nothing, and behind it one record for each line. -/
def ReadsDataset (conv : Conversions D) (file : Option (List Char)) (outcome : Outcome D) : Prop :=
  match file with
  | none => outcome = .returned none 0
  | some f =>
    if (lines f).head? = some headerLine then
      ∃ rs, outcome = .returned (some rs) (lines f).tail.length ∧
        rs.take (lines f).tail.length = (lines f).tail.map (recordOf conv)
    else outcome = .returned none 0

/-- The loop from the start. -/
theorem readRecords_header (h : getline f = some (headerLine, g)) :
    readRecords conv (some f) = readLoop conv (filled conv [] 100) 100 ([] : List (List Char)).length g := by
  funext fuel
  have hfilled : filled conv [] 100 = List.replicate 100 fresh := rfl
  rw [readRecords, inputLooksOk_eq h, if_pos rfl, hfilled]
  rfl

/-- **An empty file** is taken for a dataset without records. -/
theorem readRecords_empty (conv : Conversions D) :
    Yields (readRecords conv (some [])) (.returned (some (List.replicate 100 fresh)) 0) :=
  .now rfl fun _ => rfl

/-- **`read_records` is complete and guarded** if and only if the file cannot be opened, or is not empty and,
if it starts with the header, has at most `100 * 2^24` lines. -/
theorem readRecords_iff (conv : Conversions D) (file : Option (List Char)) :
    (∃ outcome, Yields (readRecords conv file) outcome ∧ ReadsDataset conv file outcome) ↔
      ∀ f, file = some f → f ≠ [] ∧ ((lines f).head? = some headerLine → (lines f).length ≤ 100 * 2 ^ 24) := by
  rcases file with _ | f
  · exact iff_of_true ⟨_, yields_some _, rfl⟩ nofun
  simp only [Option.some.injEq, forall_eq']
  rcases hread : getline f with _ | ⟨line, g⟩
  · obtain rfl := getline_eq_none.mp hread
    refine iff_of_false ?_ fun h => h.1 rfl
    rintro ⟨outcome, hyields, hreads⟩
    obtain rfl := hyields.unique (readRecords_empty conv)
    exact absurd hreads nofun
  have hne : f ≠ [] := fun hf => absurd (hread.symm.trans (getline_eq_none.mpr hf)) (Option.some_ne_none _)
  have hlines := lines_eq hread
  rw [and_iff_right hne, hlines, List.head?_cons, Option.some.injEq, List.length_cons]
  by_cases hheader : line = headerLine
  · subst hheader
    obtain ⟨hfew, hmany⟩ := readLoop_yields conv (f := g) (k := 0) (by omega) (Eq.refl 100)
      (show ([] : List (List Char)).length < 100 by decide)
    rw [← readRecords_header hread, List.length_nil, Nat.zero_add] at hfew hmany
    simp only [ReadsDataset, hlines, List.head?_cons, if_true, List.tail_cons, true_imp_iff]
    rcases Nat.lt_or_ge (lines g).length (100 * 2 ^ 24) with hlt | hge
    · obtain ⟨m, hm⟩ := hfew hlt
      refine iff_of_true ⟨_, hm, _, rfl, ?_⟩ (by omega)
      rw [List.nil_append, filled, List.take_left' (List.length_map _)]
    · refine iff_of_false ?_ (by omega)
      rintro ⟨outcome, hyields, rs, rfl, -⟩
      exact absurd (hyields.unique (hmany hge)) nofun
  · refine iff_of_true ⟨.returned none 0, ?_, ?_⟩ fun h => absurd h hheader
    · have hlooks : readRecords conv (some f) = fun _ => some (.returned none 0) := by
        funext fuel
        rw [readRecords, inputLooksOk_eq hread, if_neg hheader]
        rfl
      rw [hlooks]
      exact yields_some _
    · simp only [ReadsDataset, hlines, List.head?_cons, Option.some.injEq, if_neg hheader]

/-- **The empty file has no header**, and is not rejected. -/
theorem empty_file_accepted : Yields (readRecords (D := ℚ) ⟨fun _ => 0, fun _ => 0, fun _ => 0⟩ (some []))
      (.returned (some (List.replicate 100 fresh)) 0) ∧
    ¬ ∃ outcome, Yields (readRecords (D := ℚ) ⟨fun _ => 0, fun _ => 0, fun _ => 0⟩ (some [])) outcome ∧
      ReadsDataset ⟨fun _ => 0, fun _ => 0, fun _ => 0⟩ (some []) outcome := by
  have hyields := readRecords_empty (D := ℚ) ⟨fun _ => 0, fun _ => 0, fun _ => 0⟩
  refine ⟨hyields, ?_⟩
  rintro ⟨outcome, hother, hreads⟩
  obtain rfl := hother.unique hyields
  exact absurd hreads nofun

end CompSys.A1.ReadRecords
