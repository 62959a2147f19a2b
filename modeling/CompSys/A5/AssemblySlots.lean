import CompSys.A5.AssemblyPlaces

/-! # The slots of the assembly table (`A5/src/assembly.c`)

`Event`: a search for an address, which `assembly_find_entry` and `assembly_find_empty` make, and an access to a slot of
a table. The functions below list the events of those of `CompSys.A5.AssemblyTable`, up to a slot outside of its table:
behind it nothing is defined. Where a search begins is a remainder that C truncates, so for a negative address it is
negative, or `0`; the test that wraps the index around is one for equality, and does not see an index that begins below
the table. -/

namespace CompSys.A5.AssemblySlots

open CompSys.A5.PagedMemory (Word)
open CompSys.A5.AssemblyTable CompSys.A5.AssemblyFills

inductive Event
  /-- A search of a table of this size for the address. -/
  | search (tableSize : ℕ) (addr : Word)
  /-- `lookup_table[idx]`, in a table of this size. -/
  | slot (tableSize : ℕ) (idx : ℤ)
deriving DecidableEq, Repr

/-- The slots that the loop over `offset` reads, with `n` left. -/
def probeSlots (as : Assembly) (found : Option Entry → Bool) : ℕ → ℤ → List ℤ
  | 0, _ => []
  | n + 1, idx =>
    if idx < 0 ∨ as.tableSize ≤ idx then [idx]
    else idx :: if found (as.lookupTable idx.toNat) then []
      else probeSlots as found n (if idx + 1 = as.tableSize then 0 else idx + 1)

def searchEvents (as : Assembly) (found : Option Entry → Bool) (addr : Word) : List Event :=
  .search as.tableSize addr :: (probeSlots as found 4 (addr.toInt.tmod as.tableSize)).map (.slot as.tableSize)

def findEntryEvents (as : Assembly) (addr : Word) : List Event :=
  searchEvents as (fun e => e.any (·.addr = addr)) addr

def findEmptyEvents (as : Assembly) (addr : Word) : List Event := searchEvents as (fun e => e.isNone) addr

/-- The `for` of `assembly_grow_and_rehash` reads `old_table[i]` and writes `as->lookup_table[new_idx]`. -/
def rehashEvents (old : Assembly) (as : Assembly) (i : ℕ) : ℕ → List Event
  | 0 => []
  | n + 1 =>
    .slot old.tableSize i ::
      match old.lookupTable i with
      | none => rehashEvents old as (i + 1) n
      | some e =>
        findEmptyEvents as e.addr ++
          match assemblyFindEmpty as e.addr with
          | some (some newIdx) => .slot as.tableSize newIdx :: rehashEvents old (setEntry as newIdx e) (i + 1) n
          | _ => []

def growEvents (old : Assembly) (newSize : ℕ) : ℕ → List Event
  | 0 => []
  | rounds + 1 =>
    if 2 ^ 31 ≤ newSize then []
    else rehashEvents old (calloc newSize) 0 old.tableSize ++
      match rehash old.lookupTable (calloc newSize) 0 old.tableSize with
      | some none => growEvents old (1 + newSize * 2) rounds
      | _ => []

/-- The `while` of `assembly_set`. -/
def emptyEvents (as : Assembly) (addr : Word) : ℕ → List Event
  | 0 => []
  | rounds + 1 =>
    findEmptyEvents as addr ++
      match assemblyFindEmpty as addr with
      | some none =>
        growEvents as (1 + 2 * as.tableSize) 32 ++
          match assemblyGrowAndRehash as with
          | none => []
          | some as => emptyEvents as addr rounds
      | _ => []

def assemblySetEvents (as : Assembly) (addr : Word) : List Event :=
  findEntryEvents as addr ++
    match assemblyFindEntry as addr with
    | some none => emptyEvents as addr 32
    | _ => []

/-- Calls of `assembly_set`, one after the other. -/
def setsEvents : Assembly → List (Word × List Char) → List Event
  | _, [] => []
  | as, (addr, text) :: calls =>
    assemblySetEvents as addr ++
      match assemblySet as addr text with
      | none => []
      | some as => setsEvents as calls

/-- The index is one of the table. -/
def Inside (tableSize : ℕ) (idx : ℤ) : Prop := 0 ≤ idx ∧ idx < tableSize

/-- The address is no negative `int`, or a multiple of the size of the table. -/
def Fits (tableSize : ℕ) (addr : Word) : Prop := 0 ≤ addr.toInt ∨ (tableSize : ℤ) ∣ addr.toInt

/-! ### Searches -/

variable {as as' old : Assembly} {found : Option Entry → Bool} {addr : Word} {e : Entry} {size i n : ℕ} {idx : ℤ}
variable {P : Word → Prop} {events events' : List Event}

/-- Where a search begins. -/
theorem inside_start_iff (hpos : 0 < size) : Inside size (addr.toInt.tmod size) ↔ Fits size addr := by
  have hlt : addr.toInt.tmod size < size := Int.tmod_lt_of_pos _ (by omega)
  rw [Inside, and_iff_left hlt, Fits]
  constructor
  · intro hstart
    by_contra hneg
    rw [not_or, not_le] at hneg
    -- the remainder of a negative number is that of its absolute value, negated
    have habs : addr.toInt.tmod size = -(-addr.toInt).tmod size := by rw [← Int.neg_tmod, neg_neg]
    have hle := Int.tmod_nonneg (size : ℤ) (show 0 ≤ -addr.toInt by omega)
    exact hneg.2 (Int.dvd_of_tmod_eq_zero (by omega))
  · rintro (hnonneg | hdvd)
    · exact Int.tmod_nonneg _ hnonneg
    · exact (Int.tmod_eq_zero_of_dvd hdvd).ge

/-- **Wrapping around** keeps an index in the table. -/
theorem inside_of_mem_probeSlots (hidx : Inside as.tableSize idx) : ∀ j ∈ probeSlots as found n idx,
    Inside as.tableSize j := by
  induction n generalizing idx with
  | zero => exact fun j hj => nomatch hj
  | succ n ih =>
    have hin : ¬ (idx < 0 ∨ as.tableSize ≤ idx) := by
      obtain ⟨h0, hlt⟩ := hidx
      omega
    intro j hj
    rw [probeSlots, if_neg hin] at hj
    rcases List.mem_cons.mp hj with rfl | hj
    · exact hidx
    split_ifs at hj with hfound hend
    · exact nomatch hj
    · exact ih ⟨le_rfl, by omega⟩ j hj
    · exact ih ⟨by omega, by omega⟩ j hj

/-- What a probe finds is a slot that it reads. -/
theorem mem_probeSlots {idx : ℕ} (hidx : idx < as.tableSize) (h : probe as found n idx = some i) :
    (i : ℤ) ∈ probeSlots as found n idx := by
  induction n generalizing idx with
  | zero => exact nomatch h
  | succ n ih =>
    have hin : ¬ ((idx : ℤ) < 0 ∨ (as.tableSize : ℤ) ≤ idx) := by omega
    rw [probeSlots, if_neg hin, Int.toNat_natCast]
    rw [probe] at h
    by_cases hfound : found (as.lookupTable idx) = true
    · rw [if_pos hfound, Option.some.injEq] at h
      rw [h]
      exact List.mem_cons_self
    · rw [if_neg hfound] at h ⊢
      refine List.mem_cons_of_mem _ ?_
      by_cases hend : idx + 1 = as.tableSize
      · rw [if_pos hend] at h
        have hend' : (idx : ℤ) + 1 = as.tableSize := by omega
        rw [if_pos hend']
        exact_mod_cast ih (show 0 < as.tableSize by omega) h
      · rw [if_neg hend] at h
        have hend' : ¬ (idx : ℤ) + 1 = as.tableSize := by omega
        rw [if_neg hend']
        exact_mod_cast ih (show idx + 1 < as.tableSize by omega) h

/-- What `assembly_find_empty` returns is a slot of the table. -/
theorem lt_of_findEmpty (hpos : 0 < as.tableSize) (h : assemblyFindEmpty as addr = some (some i)) :
    i < as.tableSize := by
  rw [assemblyFindEmpty, Option.map_eq_some_iff] at h
  obtain ⟨j, hstart, hprobe⟩ := h
  have hlt : addr.toInt.tmod as.tableSize < as.tableSize := Int.tmod_lt_of_pos _ (by omega)
  rw [startIndex] at hstart
  split_ifs at hstart with hneg
  obtain rfl := Option.some.inj hstart
  have hmem := mem_probeSlots (by omega) hprobe
  obtain ⟨-, hi⟩ := inside_of_mem_probeSlots ⟨by omega, by omega⟩ _ hmem
  omega

/-! ### Events -/

/-- **Events that are explained by their searches**: all slots are inside if all addresses that are searched for fit,
and every search reads the slot where it begins. -/
structure Explained (P : Word → Prop) (events : List Event) : Prop where
  start : ∀ size addr, .search size addr ∈ events → 0 < size ∧ .slot size (addr.toInt.tmod size) ∈ events
  inside : (∀ size addr, .search size addr ∈ events → Fits size addr) →
    ∀ size idx, .slot size idx ∈ events → Inside size idx
  /-- The addresses are of this kind. -/
  addrs : ∀ size addr, .search size addr ∈ events → P addr

theorem Explained.nil : Explained P [] := ⟨nofun, nofun, nofun⟩

theorem Explained.append (h : Explained P events) (h' : Explained P events') : Explained P (events ++ events') := by
  refine ⟨fun size addr hmem => ?_, fun hfits size idx hmem => ?_, fun size addr hmem => ?_⟩
  · rcases List.mem_append.mp hmem with hmem | hmem
    · exact ⟨(h.start size addr hmem).1, List.mem_append_left _ (h.start size addr hmem).2⟩
    · exact ⟨(h'.start size addr hmem).1, List.mem_append_right _ (h'.start size addr hmem).2⟩
  · rcases List.mem_append.mp hmem with hmem | hmem
    · exact h.inside (fun size addr hs => hfits size addr (List.mem_append_left _ hs)) size idx hmem
    · exact h'.inside (fun size addr hs => hfits size addr (List.mem_append_right _ hs)) size idx hmem
  · rcases List.mem_append.mp hmem with hmem | hmem
    · exact h.addrs size addr hmem
    · exact h'.addrs size addr hmem

/-- A slot that is inside whatever the searches are. -/
theorem Explained.cons (hidx : Inside size idx) (h : Explained P events) : Explained P (.slot size idx :: events) := by
  have hslot : Explained P [.slot size idx] := by
    refine ⟨fun _ _ hmem => ?_, fun _ _ _ hmem => ?_, fun _ _ hmem => ?_⟩
    · exact nomatch List.mem_singleton.mp hmem
    · obtain ⟨rfl, rfl⟩ := Event.slot.inj (List.mem_singleton.mp hmem)
      exact hidx
    · exact nomatch List.mem_singleton.mp hmem
  exact hslot.append h

theorem explained_search (found : Option Entry → Bool) (hpos : 0 < as.tableSize) (haddr : P addr) :
    Explained P (searchEvents as found addr) := by
  have honly : ∀ size a, .search size a ∈ searchEvents as found addr → size = as.tableSize ∧ a = addr := by
    intro size a hmem
    rcases List.mem_cons.mp hmem with heq | hmem
    · exact Event.search.inj heq
    · obtain ⟨_, -, heq⟩ := List.mem_map.mp hmem
      exact nomatch heq
  refine ⟨fun size a hmem => ?_, fun hfits size idx hmem => ?_, fun size a hmem => ?_⟩
  · obtain ⟨rfl, rfl⟩ := honly size a hmem
    refine ⟨hpos, List.mem_cons_of_mem _ (List.mem_map.mpr ⟨_, ?_, rfl⟩)⟩
    by_cases hin : a.toInt.tmod as.tableSize < 0 ∨ as.tableSize ≤ a.toInt.tmod as.tableSize
    · rw [probeSlots, if_pos hin]
      exact List.mem_singleton_self _
    · rw [probeSlots, if_neg hin]
      exact List.mem_cons_self
  · rcases List.mem_cons.mp hmem with heq | hmem
    · exact nomatch heq
    · obtain ⟨j, hj, heq⟩ := List.mem_map.mp hmem
      obtain ⟨rfl, rfl⟩ := Event.slot.inj heq
      exact inside_of_mem_probeSlots ((inside_start_iff hpos).mpr (hfits _ _ List.mem_cons_self)) _ hj
  · rw [(honly size a hmem).2]
    exact haddr

/-! ### Tables -/

/-- A table for addresses of a kind. -/
structure Table (P : Word → Prop) (as : Assembly) : Prop where
  pos : 0 < as.tableSize
  addrs : ∀ i e, as.lookupTable i = some e → P e.addr

theorem Table.calloc (hpos : 0 < size) : Table P (calloc size) := ⟨hpos, nofun⟩

theorem Table.set (h : Table P as) (haddr : P e.addr) : Table P (setEntry as i e) := by
  refine ⟨h.pos, fun j f hj => ?_⟩
  rcases setEntry_some hj with ⟨-, rfl⟩ | ⟨-, hj⟩
  · exact haddr
  · exact h.addrs j f hj

/-- **Rehashing.** -/
theorem rehash_explained (hold : Table P old) (h : Table P as) (hn : i + n = old.tableSize) :
    Explained P (rehashEvents old as i n) ∧
      ∀ as', rehash old.lookupTable as i n = some (some as') → Table P as' := by
  induction n generalizing as i with
  | zero =>
    refine ⟨.nil, fun as' has' => ?_⟩
    obtain rfl := Option.some.inj (Option.some.inj has')
    exact h
  | succ n ih =>
    have hi : Inside old.tableSize i := ⟨by omega, by omega⟩
    rcases he : old.lookupTable i with _ | e
    · obtain ⟨hrest, hresult⟩ := ih h (show i + 1 + n = old.tableSize by omega)
      rw [rehashEvents, rehash, he]
      exact ⟨.cons hi hrest, hresult⟩
    · have haddr := hold.addrs i e he
      have hsearch := explained_search (fun e => e.isNone) h.pos haddr
      rcases hempty : assemblyFindEmpty as e.addr with _ | _ | newIdx
      · rw [rehashEvents, rehash, he]
        simp only [hempty]
        exact ⟨.cons hi (hsearch.append .nil), by rintro as' ⟨⟩⟩
      · rw [rehashEvents, rehash, he]
        simp only [hempty]
        exact ⟨.cons hi (hsearch.append .nil), by rintro as' ⟨⟩⟩
      · have hidx : Inside as.tableSize newIdx := ⟨by omega, by exact_mod_cast lt_of_findEmpty h.pos hempty⟩
        obtain ⟨hrest, hresult⟩ := ih (h.set (i := newIdx) haddr) (show i + 1 + n = old.tableSize by omega)
        rw [rehashEvents, rehash, he]
        simp only [hempty]
        exact ⟨.cons hi (hsearch.append (.cons hidx hrest)), hresult⟩

theorem growLoop_explained (hold : Table P old) (rounds : ℕ) {newSize : ℕ} (hpos : 0 < newSize) :
    Explained P (growEvents old newSize rounds) ∧ ∀ as', growLoop old newSize rounds = some as' → Table P as' := by
  induction rounds generalizing newSize with
  | zero => exact ⟨.nil, nofun⟩
  | succ rounds ih =>
    rw [growEvents, growLoop]
    split_ifs
    · exact ⟨.nil, nofun⟩
    obtain ⟨hevents, hresult⟩ := rehash_explained hold (Table.calloc hpos) (Nat.zero_add old.tableSize)
    rcases hrehash : rehash old.lookupTable (calloc newSize) 0 old.tableSize with _ | _ | as1
    · exact ⟨hevents.append .nil, nofun⟩
    · obtain ⟨hrest, hresult'⟩ := ih (show 0 < 1 + newSize * 2 by omega)
      exact ⟨hevents.append hrest, hresult'⟩
    · refine ⟨hevents.append .nil, fun as' has' => ?_⟩
      obtain rfl := Option.some.inj has'
      exact hresult _ hrehash

theorem emptyLoop_explained (h : Table P as) (haddr : P addr) (rounds : ℕ) :
    Explained P (emptyEvents as addr rounds) ∧
      ∀ place, emptyLoop as addr rounds = some place → Table P place.1 := by
  induction rounds generalizing as with
  | zero => exact ⟨.nil, nofun⟩
  | succ rounds ih =>
    have hsearch := explained_search (fun e => e.isNone) h.pos haddr
    rcases hempty : assemblyFindEmpty as addr with _ | _ | idx
    · rw [emptyEvents, emptyLoop]
      simp only [hempty]
      exact ⟨hsearch.append .nil, nofun⟩
    · obtain ⟨hgrow, hgrown⟩ := growLoop_explained h 32 (show 0 < 1 + 2 * as.tableSize by omega)
      rw [emptyEvents, emptyLoop]
      simp only [hempty]
      rcases has1 : assemblyGrowAndRehash as with _ | as1
      · exact ⟨hsearch.append (hgrow.append .nil), nofun⟩
      · obtain ⟨hrest, hresult⟩ := ih (hgrown as1 has1)
        exact ⟨hsearch.append (hgrow.append hrest), hresult⟩
    · rw [emptyEvents, emptyLoop]
      simp only [hempty]
      refine ⟨hsearch.append .nil, fun place hplace => ?_⟩
      obtain rfl := Option.some.inj hplace
      exact h

/-- **`assembly_set`.** -/
theorem assemblySet_explained (h : Table P as) (haddr : P addr) (text : List Char) :
    Explained P (assemblySetEvents as addr) ∧ ∀ as', assemblySet as addr text = some as' → Table P as' := by
  have hsearch := explained_search (fun e => e.any (·.addr = addr)) h.pos haddr
  obtain ⟨hloop, hplace⟩ := emptyLoop_explained h haddr 32
  rcases hfind : assemblyFindEntry as addr with _ | _ | idx
  · rw [assemblySetEvents, assemblySet]
    simp only [hfind]
    exact ⟨hsearch.append .nil, nofun⟩
  · rw [assemblySetEvents, assemblySet]
    simp only [hfind]
    refine ⟨hsearch.append hloop, fun as' has' => ?_⟩
    obtain ⟨place, hsome, rfl⟩ := Option.map_eq_some_iff.mp has'
    exact (hplace place hsome).set haddr
  · rw [assemblySetEvents, assemblySet]
    simp only [hfind]
    refine ⟨hsearch.append .nil, fun as' has' => ?_⟩
    obtain rfl := Option.some.inj has'
    exact h.set haddr

/-- **Every run** of calls. -/
theorem sets_explained (h : Table P as) {calls : List (Word × List Char)} (hcalls : ∀ c ∈ calls, P c.1) :
    Explained P (setsEvents as calls) := by
  induction calls generalizing as with
  | nil => exact .nil
  | cons c calls ih =>
    obtain ⟨addr, text⟩ := c
    obtain ⟨hset, hresult⟩ := assemblySet_explained h (hcalls _ List.mem_cons_self) text
    rw [setsEvents]
    rcases has1 : assemblySet as addr text with _ | as1
    · exact hset.append .nil
    · exact hset.append (ih (hresult as1 has1) fun c hc => hcalls c (List.mem_cons_of_mem _ hc))

/-- **All slots are inside of their tables if and only if every search is for an address that is no negative `int`, or
a multiple of the size of the table.** Runs with addresses that are no negative `int`s have no other searches. -/
theorem slots_inside_iff (calls : List (Word × List Char)) :
    ((∀ size idx, .slot size idx ∈ setsEvents assemblyCreate calls → Inside size idx) ↔
      ∀ size addr, .search size addr ∈ setsEvents assemblyCreate calls → Fits size addr) ∧
    ((∀ c ∈ calls, 0 ≤ c.1.toInt) →
      ∀ size idx, .slot size idx ∈ setsEvents assemblyCreate calls → Inside size idx) := by
  have hfour : 0 < 4 := by omega
  have hall : Explained (fun _ => True) (setsEvents assemblyCreate calls) :=
    sets_explained (Table.calloc hfour) fun _ _ => trivial
  refine ⟨⟨fun hslots size addr hsearch => ?_, hall.inside⟩, fun hcalls => ?_⟩
  · obtain ⟨hpos, hstart⟩ := hall.start size addr hsearch
    exact (inside_start_iff hpos).mp (hslots _ _ hstart)
  · have hnonneg : Explained (fun a => 0 ≤ a.toInt) (setsEvents assemblyCreate calls) :=
      sets_explained (Table.calloc hfour) hcalls
    exact hnonneg.inside fun size addr hsearch => Or.inl (hnonneg.addrs size addr hsearch)

/-- The first five instructions of a section at `80000000`: the first is searched for from slot `-2` of nine. -/
theorem below_the_table : ¬ ∀ calls : List (Word × List Char), (∀ c ∈ calls, c.1.toNat % 4 = 0) →
    ∀ size idx, .slot size idx ∈ setsEvents assemblyCreate calls → Inside size idx := by
  intro hall
  have hmem : Event.slot 9 (-2) ∈ setsEvents assemblyCreate
      ([0x80000000, 0x80000004, 0x80000008, 0x8000000c, 0x80000010].map fun addr => (addr, ['x'])) := by
    decide +kernel
  exact absurd (hall _ (by decide) _ _ hmem).1 (by decide)

end CompSys.A5.AssemblySlots
