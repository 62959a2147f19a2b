import CompSys.A5.PagedMemory

/-! # The assembly table (`A5/src/assembly.c`)

The text of each instruction, by its address, in a hash table with linear probing over four entries. An
address is an `int`: probing starts at `addr % table_size`, which is below the table if the address is
negative and no multiple of the size. An access outside of the table, and a size that no longer fits an
`int`, have no defined result: the operation then gives `none`. `calloc` and `strdup` are taken to succeed. -/

namespace CompSys.A5.AssemblyTable

open CompSys.A5.PagedMemory

/-- `struct entry` with `valid` set. -/
structure Entry where
  addr : Word
  text : List Char
deriving DecidableEq, Repr

/-- `struct assembly`; `none` is an entry that is not valid. -/
structure Assembly where
  tableSize : ℕ
  lookupTable : ℕ → Option Entry

/-- A table fresh from `calloc`. -/
def calloc (size : ℕ) : Assembly := ⟨size, fun _ => none⟩

/-- `assembly_create`. -/
def assemblyCreate : Assembly := calloc 4

/-- `addr % as->table_size`, if that is an index. -/
def startIndex (as : Assembly) (addr : Word) : Option ℕ :=
  let idx := addr.toInt.tmod as.tableSize
  if idx < 0 then none else some idx.toNat

/-- The loop over `offset`, of which `n` are left: the first entry that is `found`; `none` is `NOT_FOUND`. -/
def probe (as : Assembly) (found : Option Entry → Bool) : ℕ → ℕ → Option ℕ
  | 0, _ => none
  | n + 1, idx =>
    if found (as.lookupTable idx) then some idx
    else probe as found n (if idx + 1 = as.tableSize then 0 else idx + 1)

/-- `assembly_find_entry`. -/
def assemblyFindEntry (as : Assembly) (addr : Word) : Option (Option ℕ) :=
  (startIndex as addr).map (probe as (fun e => e.any (·.addr = addr)) 4)

/-- `assembly_find_empty`. -/
def assemblyFindEmpty (as : Assembly) (addr : Word) : Option (Option ℕ) :=
  (startIndex as addr).map (probe as (fun e => e.isNone) 4)

/-- `as->lookup_table[idx] = e`. -/
def setEntry (as : Assembly) (idx : ℕ) (e : Entry) : Assembly :=
  { as with lookupTable := Function.update as.lookupTable idx (some e) }

/-- The `for` over the old table, from `i` on, with `n` entries left: the new table, or `some none` if it is too
small. -/
def rehash (oldTable : ℕ → Option Entry) (as : Assembly) (i : ℕ) : ℕ → Option (Option Assembly)
  | 0 => some (some as)
  | n + 1 =>
    match oldTable i with
    | none => rehash oldTable as (i + 1) n
    | some e =>
      match assemblyFindEmpty as e.addr with
      | none => none
      | some none => some none
      | some (some newIdx) => rehash oldTable (setEntry as newIdx e) (i + 1) n

/-- The `do` of `assembly_grow_and_rehash`. A size doubles at most 31 times before it is no `int`. -/
def growLoop (old : Assembly) (newSize : ℕ) : ℕ → Option Assembly
  | 0 => none
  | rounds + 1 =>
    if 2 ^ 31 ≤ newSize then none
    else
      match rehash old.lookupTable (calloc newSize) 0 old.tableSize with
      | none => none
      | some none => growLoop old (1 + newSize * 2) rounds
      | some (some as) => some as

/-- `assembly_grow_and_rehash`. -/
def assemblyGrowAndRehash (as : Assembly) : Option Assembly := growLoop as (1 + 2 * as.tableSize) 32

/-- The `while` of `assembly_set`: the table, and the index of an empty entry. -/
def emptyLoop (as : Assembly) (addr : Word) : ℕ → Option (Assembly × ℕ)
  | 0 => none
  | rounds + 1 =>
    match assemblyFindEmpty as addr with
    | none => none
    | some (some idx) => some (as, idx)
    | some none => (assemblyGrowAndRehash as).bind fun as => emptyLoop as addr rounds

/-- `assembly_set`. -/
def assemblySet (as : Assembly) (addr : Word) (text : List Char) : Option Assembly :=
  match assemblyFindEntry as addr with
  | none => none
  | some (some idx) => some (setEntry as idx ⟨addr, text⟩)
  | some none => (emptyLoop as addr 32).map fun place => setEntry place.1 place.2 ⟨addr, text⟩

end CompSys.A5.AssemblyTable
