import CompSys.Lib.Extents

/-! # Segregated pools

A pool of blocks that tile an interval of addresses. Every block is either *taken* or on the *free
list* of its own size, exactly once (`Valid`). The pool *grows* by a row of blocks of one size at its
end, a free block is *taken* from the front of its list, and a taken block is *given back* to the list
of its size. Blocks never move, join or split, so a block that comes back is taken again at the size it
had before (`Valid.size_unique`). -/

namespace CompSys.Lib.Segregated

open CompSys.Lib.Extents

/-- The blocks, the free lists by block size, and the addresses of the taken blocks. -/
structure Pool where
  blocks : List Extent
  free : ℕ → List ℕ
  taken : List ℕ

/-- The pool without blocks. -/
def Pool.empty : Pool := ⟨[], fun _ => [], []⟩

/-- `n` more blocks of size `s` from `top` on. -/
def Pool.grow (p : Pool) (top s n : ℕ) : Pool :=
  { p with
    blocks := p.blocks ++ row top s n
    free := Function.update p.free s ((row top s n).map Extent.addr) }

/-- The first free block of size `s` is taken. -/
def Pool.take (p : Pool) (s a : ℕ) (l : List ℕ) : Pool :=
  { p with free := Function.update p.free s l, taken := a :: p.taken }

/-- A taken block of size `s` is free again. -/
def Pool.giveBack (p : Pool) (s a : ℕ) : Pool :=
  { p with free := Function.update p.free s (a :: p.free s), taken := p.taken.erase a }

/-- **Every block is taken or on the free list of its size, once.** -/
structure Valid (lo hi : ℕ) (p : Pool) : Prop where
  tiles : Tiles lo p.blocks hi
  nodup_taken : p.taken.Nodup
  nodup_free : ∀ s, (p.free s).Nodup
  mem_taken : ∀ a ∈ p.taken, ∃ b ∈ p.blocks, b.addr = a
  mem_free : ∀ s, ∀ a ∈ p.free s, ⟨a, s⟩ ∈ p.blocks ∧ a ∉ p.taken
  accounted : ∀ b ∈ p.blocks, b.addr ∈ p.taken ∨ b.addr ∈ p.free b.size

variable {p : Pool} {lo hi : ℕ}

theorem valid_empty (lo : ℕ) : Valid lo lo .empty := by
  refine ⟨rfl, List.nodup_nil, fun _ => List.nodup_nil, ?_, ?_, ?_⟩ <;> simp [Pool.empty]

/-- The size of a block is determined by its address. -/
theorem Valid.size_unique (h : Valid lo hi p) {a s s' : ℕ} (hs : ⟨a, s⟩ ∈ p.blocks)
    (hs' : ⟨a, s'⟩ ∈ p.blocks) : s = s' := by
  have := h.tiles.eq_of_addr hs hs' rfl
  simpa using this

/-- **A free block is on the list of its size only.** -/
theorem Valid.free_unique (h : Valid lo hi p) {b : Extent} (hb : b ∈ p.blocks) {s : ℕ}
    (ha : b.addr ∈ p.free s) : s = b.size :=
  h.size_unique (h.mem_free s _ ha).1 hb

/-- **Growing** a pool whose list of that size is used up. -/
theorem Valid.grow (h : Valid lo hi p) {s : ℕ} (hs : 0 < s) (n : ℕ) (hnil : p.free s = []) :
    Valid lo (hi + n * s) (p.grow hi s n) := by
  have hrow := tiles_row hs hi n
  have hold : ∀ b ∈ p.blocks, ∀ c ∈ row hi s n, b.addr ≠ c.addr := by
    intro b hb c hc heq
    have h1 := h.tiles.inside hb
    have h2 := hrow.inside hc
    unfold Extent.stop at h1
    omega
  refine ⟨h.tiles.append hrow, h.nodup_taken, ?_, ?_, ?_, ?_⟩
  · intro s'
    by_cases hs' : s' = s
    · subst hs'
      simp only [Pool.grow, Function.update_self, row, List.map_map]
      refine List.Nodup.map ?_ List.nodup_range
      intro i j hij
      simp only [Function.comp_apply, Nat.add_left_cancel_iff] at hij
      exact Nat.eq_of_mul_eq_mul_right hs hij
    · simp only [Pool.grow, Function.update_of_ne hs']
      exact h.nodup_free s'
  · intro a ha
    obtain ⟨b, hb, hba⟩ := h.mem_taken a ha
    exact ⟨b, List.mem_append_left _ hb, hba⟩
  · intro s' a ha
    by_cases hs' : s' = s
    · subst hs'
      simp only [Pool.grow, Function.update_self, List.mem_map] at ha
      obtain ⟨c, hc, rfl⟩ := ha
      have hcs : c = ⟨c.addr, s'⟩ := by
        obtain ⟨i, -, rfl⟩ := mem_row.mp hc
        rfl
      refine ⟨List.mem_append_right _ (hcs ▸ hc), fun ht => ?_⟩
      obtain ⟨b, hb, hba⟩ := h.mem_taken _ ht
      exact hold b hb c hc hba
    · simp only [Pool.grow, Function.update_of_ne hs'] at ha
      obtain ⟨hb, ht⟩ := h.mem_free s' a ha
      exact ⟨List.mem_append_left _ hb, ht⟩
  · intro b hb
    rcases List.mem_append.mp hb with hb | hb
    · rcases h.accounted b hb with ht | hf
      · exact Or.inl ht
      · refine Or.inr ?_
        by_cases hs' : b.size = s
        · rw [hs', hnil] at hf
          cases hf
        · simp only [Pool.grow, Function.update_of_ne hs']
          exact hf
    · refine Or.inr ?_
      obtain ⟨i, hi, rfl⟩ := mem_row.mp hb
      simp only [Pool.grow, Function.update_self]
      exact List.mem_map_of_mem hb

/-- **Taking** the first block of a list. -/
theorem Valid.take (h : Valid lo hi p) {s a : ℕ} {l : List ℕ} (hfree : p.free s = a :: l) :
    Valid lo hi (p.take s a l) := by
  have ha : a ∈ p.free s := by rw [hfree]; exact List.mem_cons_self
  obtain ⟨hblock, hnot⟩ := h.mem_free s a ha
  have hnd := h.nodup_free s
  rw [hfree] at hnd
  obtain ⟨hal, hl⟩ := List.nodup_cons.mp hnd
  refine ⟨h.tiles, List.nodup_cons.mpr ⟨hnot, h.nodup_taken⟩, ?_, ?_, ?_, ?_⟩
  · intro s'
    by_cases hs' : s' = s
    · subst hs'
      simpa only [Pool.take, Function.update_self] using hl
    · simpa only [Pool.take, Function.update_of_ne hs'] using h.nodup_free s'
  · intro c hc
    rcases List.mem_cons.mp hc with rfl | hc
    · exact ⟨_, hblock, rfl⟩
    · exact h.mem_taken c hc
  · intro s' c hc
    by_cases hs' : s' = s
    · subst hs'
      simp only [Pool.take, Function.update_self] at hc
      obtain ⟨hcb, hct⟩ := h.mem_free s' c (by rw [hfree]; exact List.mem_cons_of_mem _ hc)
      refine ⟨hcb, fun hm => ?_⟩
      rcases List.mem_cons.mp hm with rfl | hm
      · exact hal hc
      · exact hct hm
    · simp only [Pool.take, Function.update_of_ne hs'] at hc
      obtain ⟨hcb, hct⟩ := h.mem_free s' c hc
      refine ⟨hcb, fun hm => ?_⟩
      rcases List.mem_cons.mp hm with rfl | hm
      · exact hs' (h.size_unique hcb hblock)
      · exact hct hm
  · intro b hb
    rcases h.accounted b hb with ht | hf
    · exact Or.inl (List.mem_cons_of_mem _ ht)
    · by_cases hs' : b.size = s
      · rw [hs', hfree] at hf
        rcases List.mem_cons.mp hf with hba | hbl
        · exact Or.inl (List.mem_cons.mpr (Or.inl hba))
        · refine Or.inr ?_
          simpa only [Pool.take, hs', Function.update_self] using hbl
      · refine Or.inr ?_
        simpa only [Pool.take, Function.update_of_ne hs'] using hf

/-- **Giving back** a taken block. -/
theorem Valid.giveBack (h : Valid lo hi p) {s a : ℕ} (ht : a ∈ p.taken) (hblock : ⟨a, s⟩ ∈ p.blocks) :
    Valid lo hi (p.giveBack s a) := by
  have hnot : ∀ s', a ∉ p.free s' := fun s' hm => (h.mem_free s' a hm).2 ht
  have herase : ∀ c, c ∈ p.taken.erase a ↔ c ≠ a ∧ c ∈ p.taken := fun c =>
    h.nodup_taken.mem_erase_iff
  refine ⟨h.tiles, h.nodup_taken.erase a, ?_, ?_, ?_, ?_⟩
  · intro s'
    by_cases hs' : s' = s
    · subst hs'
      simp only [Pool.giveBack, Function.update_self]
      exact List.nodup_cons.mpr ⟨hnot s', h.nodup_free s'⟩
    · simpa only [Pool.giveBack, Function.update_of_ne hs'] using h.nodup_free s'
  · intro c hc
    exact h.mem_taken c ((herase c).mp hc).2
  · intro s' c hc
    simp only [Pool.giveBack] at hc ⊢
    rw [herase]
    by_cases hs' : s' = s
    · subst hs'
      rw [Function.update_self] at hc
      rcases List.mem_cons.mp hc with rfl | hc
      · exact ⟨hblock, fun hm => hm.1 rfl⟩
      · obtain ⟨hcb, hct⟩ := h.mem_free s' c hc
        exact ⟨hcb, fun hm => hct hm.2⟩
    · rw [Function.update_of_ne hs'] at hc
      obtain ⟨hcb, hct⟩ := h.mem_free s' c hc
      exact ⟨hcb, fun hm => hct hm.2⟩
  · intro b hb
    simp only [Pool.giveBack]
    rw [herase]
    by_cases hs' : b.size = s
    · subst hs'
      rw [Function.update_self]
      by_cases hba : b.addr = a
      · exact Or.inr (List.mem_cons.mpr (Or.inl hba))
      · rcases h.accounted b hb with ht' | hf
        · exact Or.inl ⟨hba, ht'⟩
        · exact Or.inr (List.mem_cons_of_mem _ hf)
    · rw [Function.update_of_ne hs']
      rcases h.accounted b hb with ht' | hf
      · refine Or.inl ⟨?_, ht'⟩
        rintro rfl
        exact hs' (h.size_unique hb hblock)
      · exact Or.inr hf

end CompSys.Lib.Segregated
