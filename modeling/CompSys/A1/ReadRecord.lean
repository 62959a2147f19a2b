import Mathlib.Tactic

/-! # One record of a dataset (`A1/record.c`)

A file is the text that is left of it. A record is its 24 fields, `none` where nothing has been assigned, and
the line that the texts among them point into. The conversions of numbers are given; each is made of the rest
of the line, before the separator is overwritten. The columns go to the fields by position
(`readRecord_value`); the column `south` goes to `west`, and the last column nowhere
(`readRecord_unassigned`). -/

namespace CompSys.A1.ReadRecord

/-- The fields of `struct record`. -/
inductive Field
  | name
  | alternativeNames
  | osmType
  | osmId
  | class_
  | type
  | lon
  | lat
  | placeRank
  | importance
  | street
  | city
  | county
  | state
  | country
  | countryCode
  | displayName
  | west
  | south
  | east
  | north
  | wikidata
  | wikipedia
  | housenumbers
deriving DecidableEq, Repr

/-- The types of fields: `const char *`, `int64_t`, `int`, `double`. -/
inductive Kind
  | text
  | long
  | int
  | double
deriving DecidableEq, Repr

def Field.kind : Field → Kind
  | .osmId => .long
  | .placeRank => .int
  | .lon | .lat | .importance | .west | .south | .east | .north => .double
  | _ => .text

/-- What a field holds, of the doubles `D`; a text is a pointer into the line. -/
inductive Slot (D : Type)
  | pointer (offset : ℕ)
  | long (v : BitVec 64)
  | int (v : BitVec 32)
  | double (v : D)

/-- `struct record`. -/
structure Record (D : Type) where
  slot : Field → Option (Slot D)
  line : List Char

/-- `atol`, `atoi` and `atof`, of the characters up to the zero. -/
structure Conversions (D : Type) where
  atol : List Char → BitVec 64
  atoi : List Char → BitVec 32
  atof : List Char → D

variable {D : Type} (conv : Conversions D)

/-- The characters up to the zero. -/
def cString (s : List Char) : List Char := s.takeWhile (· ≠ '\x00')

/-- What a step makes of the text at `start`. -/
def Conversions.slot (kind : Kind) (start : ℕ) (text : List Char) : Slot D :=
  match kind with
  | .text => .pointer start
  | .long => .long (conv.atol text)
  | .int => .int (conv.atoi text)
  | .double => .double (conv.atof text)

/-- `strstr(start, "\t")`. -/
def tabFrom (line : List Char) (start : ℕ) : Option ℕ :=
  ((cString (line.drop start)).findIdx? (· = '\t')).map (start + ·)

/-- The fields in the order of the steps of `read_record`: `west` twice, and no `south`. -/
def steps : List Field :=
  [.name, .alternativeNames, .osmType, .osmId, .class_, .type, .lon, .lat, .placeRank, .importance, .street,
    .city, .county, .state, .country, .countryCode, .displayName, .west, .west, .east, .north, .wikidata,
    .wikipedia, .housenumbers]

/-- The steps of `read_record` from `start` on: where there is one more tab, the field is assigned, the tab
overwritten with a zero, and the next step starts behind it. -/
def readColumns : List Field → Record D → ℕ → Record D
  | [], r, _ => r
  | field :: fields, r, start =>
    match tabFrom r.line start with
    | none => readColumns fields r start
    | some tab =>
      readColumns fields ⟨Function.update r.slot field
        (some (conv.slot field.kind start (cString (r.line.drop start)))), r.line.set tab '\x00'⟩ (tab + 1)

/-- `getline`: the next line with its newline, and the rest of the file. -/
def getline : List Char → Option (List Char × List Char)
  | [] => none
  | c :: f =>
    if c = '\n' then some ([c], f)
    else match getline f with
      | none => some ([c], [])
      | some (line, f) => some (c :: line, f)

/-- `read_record` into the record `r`; `none` is `-1`. -/
def readRecord (r : Record D) (f : List Char) : Option (Record D × List Char) :=
  (getline f).map fun read => (readColumns conv steps { r with line := read.1 ++ ['\x00'] } 0, read.2)

/-- A record that `malloc` or `realloc` has made room for. -/
def fresh : Record D := ⟨fun _ => none, []⟩

/-! ### What the columns are to give -/

/-- The columns of the header that `input_looks_ok` demands. -/
def header : List Field :=
  [.name, .alternativeNames, .osmType, .osmId, .class_, .type, .lon, .lat, .placeRank, .importance, .street,
    .city, .county, .state, .country, .countryCode, .displayName, .west, .south, .east, .north, .wikidata,
    .wikipedia, .housenumbers]

/-- The value of a field. -/
inductive Value (D : Type)
  | text (s : List Char)
  | long (v : BitVec 64)
  | int (v : BitVec 32)
  | double (v : D)

def Slot.value (line : List Char) : Slot D → Value D
  | .pointer offset => .text (cString (line.drop offset))
  | .long v => .long v
  | .int v => .int v
  | .double v => .double v

def Record.value (r : Record D) (field : Field) : Option (Value D) := (r.slot field).map (Slot.value r.line)

def Conversions.value (kind : Kind) (text : List Char) : Value D :=
  match kind with
  | .text => .text text
  | .long => .long (conv.atol text)
  | .int => .int (conv.atoi text)
  | .double => .double (conv.atof text)

/-- A data line. -/
def dataLine (columns : List (List Char)) : List Char := List.intercalate ['\t'] columns ++ ['\n']

/-- **Every field holds the column of its name.** -/
structure AssignsColumns (columns : List (List Char)) (r : Record D) : Prop where
  assigned : ∀ field, (r.slot field).isSome
  value : ∀ (i : ℕ) (field : Field) (column : List Char), header[i]? = some field → columns[i]? = some column →
    r.value field = some (conv.value field.kind column)

/-! ### The steps -/

variable {conv} {fields : List Field} {field : Field} {r : Record D} {start : ℕ}

/-- A field that no step names is not assigned. -/
theorem readColumns_slot (h : field ∉ fields) : (readColumns conv fields r start).slot field = r.slot field := by
  induction fields generalizing r start with
  | nil => rfl
  | cons first fields ih =>
    rw [List.mem_cons, not_or] at h
    obtain ⟨hne, h⟩ := h
    rw [readColumns]
    split
    · exact ih h
    · rw [ih h]
      exact Function.update_of_ne hne _ _

theorem tabFrom_ge {line : List Char} {tab : ℕ} (h : tabFrom line start = some tab) : start ≤ tab := by
  obtain ⟨i, -, rfl⟩ := Option.map_eq_some_iff.mp h
  omega

/-- What lies before `start` stays as it is. -/
theorem readColumns_take (conv : Conversions D) (fields : List Field) (r : Record D) (start : ℕ) :
    (readColumns conv fields r start).line.take start = r.line.take start := by
  induction fields generalizing r start with
  | nil => rfl
  | cons first fields ih =>
    rw [readColumns]
    split
    · exact ih r start
    · rename_i tab htab
      have hge := tabFrom_ge htab
      have htake := congrArg (List.take start) (ih ⟨Function.update r.slot first
        (some (conv.slot first.kind start (cString (r.line.drop start)))), r.line.set tab '\x00'⟩ (tab + 1))
      rw [List.take_take, List.take_take, min_eq_left (by omega)] at htake
      rw [htake, List.take_set_of_le hge]

/-! ### A data line -/

/-- A column: no separator, no end of the line, no zero. -/
structure Clean (column : List Char) : Prop where
  tab : '\t' ∉ column
  newline : '\n' ∉ column
  zero : '\x00' ∉ column

variable {column done rest : List Char} {columns : List (List Char)}

theorem cString_append (h : '\x00' ∉ column) (rest : List Char) :
    cString (column ++ rest) = column ++ cString rest := by
  rw [cString, List.takeWhile_append_of_pos]
  · rfl
  · intro c hc
    exact decide_eq_true fun hzero => h (hzero ▸ hc)

theorem cString_eq (h : '\x00' ∉ column) (rest : List Char) : cString (column ++ '\x00' :: rest) = column := by
  rw [cString_append h]
  exact List.append_nil _

theorem intercalate_cons (hne : columns ≠ []) :
    List.intercalate ['\t'] (column :: columns) = column ++ '\t' :: List.intercalate ['\t'] columns := by
  obtain ⟨next, columns, rfl⟩ := List.exists_cons_of_ne_nil hne
  simp only [List.intercalate, List.intersperse, List.flatten_cons, List.singleton_append]

/-- The separator behind a column. -/
theorem tabFrom_column (h : Clean column) : tabFrom (done ++ (column ++ '\t' :: rest)) done.length =
    some (done.length + column.length) := by
  have hfind : (column ++ '\t' :: cString rest).findIdx? (· = '\t') = some column.length := by
    rw [List.findIdx?_append, List.findIdx?_eq_none_iff.mpr, Option.none_or, List.findIdx?_cons]
    · simp
    · exact fun c hc => decide_eq_false fun htab => h.tab (htab ▸ hc)
  have hstring : cString (column ++ '\t' :: rest) = column ++ '\t' :: cString rest := by
    rw [cString_append h.zero]
    rfl
  rw [tabFrom, List.drop_left, hstring, hfind]
  rfl

/-- No separator is left in the last column. -/
theorem tabFrom_last (h : Clean column) : tabFrom (done ++ (column ++ ['\n', '\x00'])) done.length = none := by
  have hstring : cString (column ++ ['\n', '\x00']) = column ++ ['\n'] := cString_append h.zero _
  rw [tabFrom, List.drop_left, hstring, Option.map_eq_none_iff, List.findIdx?_eq_none_iff]
  intro c hc
  rcases List.mem_append.mp hc with hc | hc
  · exact decide_eq_false fun htab => h.tab (htab ▸ hc)
  · obtain rfl := List.mem_singleton.mp hc
    rfl

/-- What a step sees: a text ends where the column does, a number may go on behind it. -/
def seen (kind : Kind) (columns : List (List Char)) : List Char :=
  if kind = .text then columns.headD [] else dataLine columns

/-- One step over one column. -/
theorem readColumns_column (hclean : Clean column) (hline : r.line = done ++ (column ++ '\t' :: rest)) :
    readColumns conv (field :: fields) r done.length =
      readColumns conv fields ⟨Function.update r.slot field
        (some (conv.slot field.kind done.length (cString (column ++ '\t' :: rest)))),
        (done ++ (column ++ ['\x00'])) ++ rest⟩ (done ++ (column ++ ['\x00'])).length := by
  have hset : (done ++ (column ++ '\t' :: rest)).set (done.length + column.length) '\x00' =
      (done ++ (column ++ ['\x00'])) ++ rest := by
    rw [List.set_append_right _ _ (by omega), Nat.add_sub_cancel_left, List.set_append_right _ _ le_rfl,
      Nat.sub_self]
    simp only [List.set_cons_zero, List.append_assoc, List.singleton_append]
  rw [readColumns, hline, tabFrom_column hclean]
  simp only [hset, List.drop_left, List.length_append, List.length_singleton, Nat.add_assoc]

/-- The steps behind the last separator do nothing. -/
theorem readColumns_last (h : Clean column) (hline : r.line = done ++ (column ++ ['\n', '\x00'])) :
    readColumns conv fields r done.length = r := by
  induction fields with
  | nil => rfl
  | cons first fields ih => rw [readColumns, hline, tabFrom_last h, ih]

theorem dataLine_cons (hne : columns ≠ []) :
    dataLine (column :: columns) = column ++ '\t' :: dataLine columns := by
  rw [dataLine, intercalate_cons hne, List.append_assoc]
  rfl

theorem dataLine_singleton : dataLine [column] = column ++ ['\n'] := by
  simp only [dataLine, List.intercalate, List.intersperse, List.flatten_cons, List.flatten_nil, List.append_nil]

theorem notMem_intercalate {c : Char} (htab : c ≠ '\t') (hcolumns : ∀ column ∈ columns, c ∉ column) :
    c ∉ List.intercalate ['\t'] columns := by
  induction columns with
  | nil => exact List.not_mem_nil
  | cons column columns ih =>
    obtain ⟨hcolumn, hcolumns⟩ := List.forall_mem_cons.mp hcolumns
    rcases columns with _ | ⟨next, columns⟩
    · rwa [List.intercalate, List.intersperse, List.flatten_cons, List.flatten_nil, List.append_nil]
    · rw [intercalate_cons (List.cons_ne_nil _ _), List.mem_append, List.mem_cons, not_or, not_or]
      exact ⟨hcolumn, htab, ih hcolumns⟩

theorem zero_notMem_dataLine (h : ∀ column ∈ columns, '\x00' ∉ column) : '\x00' ∉ dataLine columns := by
  rw [dataLine, List.mem_append, not_or]
  exact ⟨notMem_intercalate (by decide) h, by decide⟩

/-- The text of a column that the steps have passed. -/
theorem cString_readColumns (conv : Conversions D) (fields : List Field) (hcolumn : Clean column)
    (hline : r.line = (done ++ (column ++ ['\x00'])) ++ rest) :
    cString ((readColumns conv fields r (done ++ (column ++ ['\x00'])).length).line.drop done.length) =
      column := by
  have htake := readColumns_take conv fields r (done ++ (column ++ ['\x00'])).length
  rw [hline, List.take_left] at htake
  rw [← List.take_append_drop (done ++ (column ++ ['\x00'])).length (readColumns conv fields r _).line, htake,
    List.append_assoc, List.drop_left, List.append_assoc, List.singleton_append, cString_eq hcolumn.zero]

/-- The column of the first step. -/
theorem readColumns_first (hclean : ∀ c ∈ column :: columns, Clean c) (hne : columns ≠ [])
    (hlater : field ∉ fields) (hline : r.line = done ++ (dataLine (column :: columns) ++ ['\x00'])) :
    (readColumns conv (field :: fields) r done.length).value field =
      some (conv.value field.kind (seen field.kind (column :: columns))) := by
  have hcolumn := hclean column List.mem_cons_self
  have hzero : '\x00' ∉ dataLine (column :: columns) :=
    zero_notMem_dataLine fun column hc => (hclean column hc).zero
  rw [dataLine_cons hne] at hzero
  rw [dataLine_cons hne, List.append_assoc, List.cons_append] at hline
  have hstring : cString (column ++ '\t' :: (dataLine columns ++ ['\x00'])) =
      column ++ '\t' :: dataLine columns := by
    have hcut := cString_eq hzero []
    rwa [List.append_assoc, List.cons_append] at hcut
  rw [readColumns_column hcolumn hline, hstring]
  set after : Record D := ⟨_, (done ++ (column ++ ['\x00'])) ++ (dataLine columns ++ ['\x00'])⟩ with hafter
  have hslot : (readColumns conv fields after (done ++ (column ++ ['\x00'])).length).slot field =
      some (conv.slot field.kind done.length (column ++ '\t' :: dataLine columns)) := by
    rw [readColumns_slot hlater, hafter]
    exact Function.update_self _ _ _
  have htext := cString_readColumns conv fields hcolumn (show after.line = _ from rfl)
  rw [Record.value, hslot, Option.map_some, seen]
  rcases hkind : field.kind with _ | _ | _ | _
  · simp only [Conversions.slot, Conversions.value, Slot.value, if_true, htext]
    rfl
  · simp only [Conversions.slot, Conversions.value, Slot.value, dataLine_cons hne, reduceCtorEq, if_false]
  · simp only [Conversions.slot, Conversions.value, Slot.value, dataLine_cons hne, reduceCtorEq, if_false]
  · simp only [Conversions.slot, Conversions.value, Slot.value, dataLine_cons hne, reduceCtorEq, if_false]

/-- **A column is what its step has assigned**, if no later step assigns the same field. -/
theorem readColumns_value {i : ℕ} (hclean : ∀ column ∈ columns, Clean column) (hi : i + 1 < columns.length)
    (hfield : fields[i]? = some field) (hlater : field ∉ fields.drop (i + 1))
    (hline : r.line = done ++ (dataLine columns ++ ['\x00'])) :
    (readColumns conv fields r done.length).value field =
      some (conv.value field.kind (seen field.kind (columns.drop i))) := by
  induction i generalizing columns fields r done with
  | zero =>
    rcases columns with _ | ⟨column, columns⟩
    · simp at hi
    rcases fields with _ | ⟨first, fields⟩
    · simp at hfield
    obtain rfl : first = field := by simpa using hfield
    have hne : columns ≠ [] := by
      rintro rfl
      simp at hi
    exact readColumns_first hclean hne hlater hline
  | succ i ih =>
    rcases columns with _ | ⟨column, columns⟩
    · simp at hi
    rcases fields with _ | ⟨first, fields⟩
    · simp at hfield
    have hne : columns ≠ [] := by
      rintro rfl
      simp at hi
    obtain ⟨hcolumn, hclean⟩ := List.forall_mem_cons.mp hclean
    rw [dataLine_cons hne, List.append_assoc, List.cons_append] at hline
    rw [readColumns_column hcolumn hline, List.drop_succ_cons]
    rw [List.length_cons] at hi
    exact ih hclean (by omega) hfield hlater rfl

/-- **A field that only steps behind the last separator name** is not assigned. -/
theorem readColumns_unassigned (hne : columns ≠ []) (hclean : ∀ column ∈ columns, Clean column)
    (hearlier : field ∉ fields.take (columns.length - 1))
    (hline : r.line = done ++ (dataLine columns ++ ['\x00'])) :
    (readColumns conv fields r done.length).slot field = r.slot field := by
  induction columns generalizing fields r done with
  | nil => exact absurd rfl hne
  | cons column columns ih =>
    obtain ⟨hcolumn, hclean⟩ := List.forall_mem_cons.mp hclean
    by_cases hlast : columns = []
    · subst hlast
      rw [dataLine_singleton, List.append_assoc] at hline
      rw [readColumns_last hcolumn hline]
    rcases fields with _ | ⟨first, fields⟩
    · rfl
    obtain ⟨n, hn⟩ := Nat.exists_eq_add_of_le' (List.length_pos_iff.mpr hlast)
    rw [List.length_cons, Nat.add_sub_cancel, hn, List.take_succ_cons, List.mem_cons, not_or] at hearlier
    rw [dataLine_cons hlast, List.append_assoc, List.cons_append] at hline
    rw [readColumns_column hcolumn hline, ih hlast hclean (by rw [hn]; exact hearlier.2) rfl]
    exact Function.update_of_ne hearlier.1 _ _

/-! ### `read_record` -/

theorem getline_line {line : List Char} (h : '\n' ∉ line) (f : List Char) :
    getline (line ++ '\n' :: f) = some (line ++ ['\n'], f) := by
  induction line with
  | nil => rfl
  | cons c line ih =>
    rw [List.mem_cons, not_or] at h
    rw [List.cons_append, getline, if_neg (Ne.symm h.1), ih h.2]
    rfl

theorem readRecord_dataLine (hnewline : ∀ column ∈ columns, '\n' ∉ column) (r : Record D) (f : List Char) :
    readRecord conv r (dataLine columns ++ f) =
      some (readColumns conv steps { r with line := dataLine columns ++ ['\x00'] } 0, f) := by
  have hline := getline_line (notMem_intercalate (by decide) hnewline) f
  rw [readRecord, dataLine, List.append_assoc, List.singleton_append, hline]
  rfl

/-- **The columns of a data line**: apart from `west`, each of the first 23 steps leaves its column in its
field. -/
theorem readRecord_value {r' : Record D} {f f' : List Char} {i : ℕ} (hlen : columns.length = 24)
    (hclean : ∀ column ∈ columns, Clean column) (h : readRecord conv r (dataLine columns ++ f) = some (r', f'))
    (hi : i < 23) (hwest : i ≠ 17) (hfield : steps[i]? = some field) :
    r'.value field = some (conv.value field.kind (seen field.kind (columns.drop i))) := by
  rw [readRecord_dataLine fun column hc => (hclean column hc).newline] at h
  obtain ⟨rfl, rfl⟩ := Prod.mk.inj (Option.some.inj h)
  have hlater : ∀ i < 23, i ≠ 17 → ∀ field, steps[i]? = some field → field ∉ steps.drop (i + 1) := by decide
  change (readColumns conv steps _ ([] : List Char).length).value field = _
  exact readColumns_value hclean (by omega) hfield (hlater i hi hwest field hfield) rfl

/-- **The fields that are not assigned**: no step names `south`, and no separator stands behind the last
column. -/
theorem readRecord_unassigned {r' : Record D} {f f' : List Char} (hlen : columns.length = 24)
    (hclean : ∀ column ∈ columns, Clean column) (h : readRecord conv r (dataLine columns ++ f) = some (r', f')) :
    r'.slot .south = r.slot .south ∧ r'.slot .housenumbers = r.slot .housenumbers := by
  rw [readRecord_dataLine fun column hc => (hclean column hc).newline] at h
  obtain ⟨rfl, rfl⟩ := Prod.mk.inj (Option.some.inj h)
  have hne : columns ≠ [] := List.ne_nil_of_length_eq_add_one hlen
  refine ⟨readColumns_slot (by decide), ?_⟩
  change (readColumns conv steps _ ([] : List Char).length).slot .housenumbers = _
  refine readColumns_unassigned hne hclean ?_ rfl
  rw [hlen]
  decide

/-- **No line assigns every column to the field of its name.** -/
theorem readRecord_never_assigns (conv : Conversions D) (columns : List (List Char)) (f : List Char) :
    ¬ ∃ r f', readRecord conv fresh (dataLine columns ++ f) = some (r, f') ∧ AssignsColumns conv columns r := by
  rintro ⟨r, f', hread, hassigns⟩
  obtain ⟨⟨line, rest⟩, -, hr⟩ := Option.map_eq_some_iff.mp hread
  obtain ⟨rfl, rfl⟩ := Prod.mk.inj hr
  have hsouth := hassigns.assigned .south
  rw [readColumns_slot (by decide)] at hsouth
  exact absurd hsouth Bool.noConfusion

/-- The columns `A` to `X`. -/
def letters : List (List Char) := (List.range 24).map fun i => [Char.ofNat (65 + i)]

/-- **A line of 24 letters**: `west` holds the column of `south`, and two fields hold nothing. -/
theorem south_in_west : letters.length = 24 ∧ (∀ column ∈ letters, Clean column) ∧
    ∃ r, readRecord (D := List Char) ⟨fun _ => 0, fun _ => 0, fun s => s.take 1⟩ fresh (dataLine letters) =
        some (r, []) ∧
      header[18]? = some .south ∧ letters[18]? = some ['S'] ∧ r.value .west = some (.double ['S']) ∧
      r.slot .south = none ∧ r.slot .housenumbers = none ∧
      ¬ AssignsColumns ⟨fun _ => 0, fun _ => 0, fun s => s.take 1⟩ letters r := by
  have hclean : ∀ column ∈ letters, Clean column := by
    have hall : ∀ column ∈ letters, '\t' ∉ column ∧ '\n' ∉ column ∧ '\x00' ∉ column := by decide
    exact fun column hc => ⟨(hall column hc).1, (hall column hc).2.1, (hall column hc).2.2⟩
  have hread : readRecord (D := List Char) ⟨fun _ => 0, fun _ => 0, fun s => s.take 1⟩ fresh
      (dataLine letters ++ []) = _ := readRecord_dataLine (fun column hc => (hclean column hc).newline) fresh []
  rw [List.append_nil] at hread
  obtain ⟨hsouth, hnumbers⟩ := readRecord_unassigned (f := []) rfl hclean (by rw [List.append_nil]; exact hread)
  refine ⟨rfl, hclean, _, hread, rfl, by decide, ?_, hsouth, hnumbers, fun hassigns => ?_⟩
  · exact readRecord_value (f := []) (i := 18) rfl hclean (by rw [List.append_nil]; exact hread) (by omega)
      (by omega) rfl
  · have hassigned := hassigns.assigned .south
    rw [hsouth] at hassigned
    exact absurd hassigned Bool.noConfusion

end CompSys.A1.ReadRecord
