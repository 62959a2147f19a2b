import CompSys.A6.Alloc
import CompSys.Lib.Links
import CompSys.Lib.Segregated

/-! # The heap of the allocator is a segregated pool

`Represents start h p`: the blocks of the pool `p` tile memory from the start of the heap up to
`free_space`, header `k` leads through the free blocks of size `8 * k`, and the first word of a taken
block is its size. Every operation keeps this: a chunk that is carved lets the pool grow
(`refill_spec`), `unlink` takes a block (`unlink_spec`), `release` gives it back (`release_spec`), and a
write inside a taken block, after its size, changes nothing (`write_represents`). -/

namespace CompSys.A6.AllocHeap

open CompSys.Lib.Extents CompSys.Lib.Links CompSys.Lib.Segregated CompSys.Lib.Words
open CompSys.A6.Alloc

/-! ### Carving -/

/-- `n` blocks of size `s` from `lo` on, pushed on a list from the last to the first. -/
def pushRow (lo s : ℕ) : ℕ → Word → Memory → Word × Memory
  | 0, header, mem => (header, mem)
  | n + 1, header, mem =>
    pushRow lo s n (BitVec.ofNat 32 (lo + n * s)) (store mem (BitVec.ofNat 32 (lo + n * s)) header)

/-- The addresses of a list, as pointers. -/
def pointers (l : List ℕ) : List Word := l.map (BitVec.ofNat 32)

/-- **The loop pushes a row** of blocks not below the chunk, and goes on below it. -/
theorem carve_row {chunk : Word} {lo s : ℕ} (hlo : chunk.toNat ≤ lo) (fuel : ℕ) {n : ℕ}
    (hn : ∀ i < n, lo + i * s < 2 ^ 32) (header : Word) (mem : Memory) :
    carve chunk (BitVec.ofNat 32 s) (n + fuel) (BitVec.ofNat 32 (lo + n * s) - BitVec.ofNat 32 s)
        header mem =
      carve chunk (BitVec.ofNat 32 s) fuel (BitVec.ofNat 32 lo - BitVec.ofNat 32 s)
        (pushRow lo s n header mem).1 (pushRow lo s n header mem).2 := by
  induction n generalizing header mem with
  | zero => simp [pushRow]
  | succ n ih =>
    have hsub : BitVec.ofNat 32 (lo + (n + 1) * s) - BitVec.ofNat 32 s
        = BitVec.ofNat 32 (lo + n * s) := by
      rw [show lo + (n + 1) * s = lo + n * s + s by ring, BitVec.ofNat_add, BitVec.add_sub_cancel]
    have hlt := hn n (Nat.lt_succ_self n)
    have hge : chunk ≤ BitVec.ofNat 32 (lo + n * s) := by
      rw [BitVec.le_def, BitVec.toNat_ofNat, Nat.mod_eq_of_lt hlt]
      omega
    rw [hsub, show n + 1 + fuel = n + fuel + 1 by omega, carve, if_pos hge]
    exact ih (fun i hi => hn i (by omega)) _ _

/-- The loop ends when the next block would start below the chunk. -/
theorem carve_end {chunk endChunk : Word} (h : ¬ chunk ≤ endChunk) (size : Word) (fuel : ℕ)
    (header : Word) (mem : Memory) :
    carve chunk size (fuel + 1) endChunk header mem = some (header, mem) := by
  rw [carve, if_neg h]

theorem pushRow_header (lo s n : ℕ) (header : Word) (mem : Memory) :
    (pushRow lo s (n + 1) header mem).1 = BitVec.ofNat 32 lo := by
  induction n generalizing header mem with
  | zero => simp [pushRow]
  | succ n ih =>
    rw [pushRow]
    exact ih _ _

/-- Words below the row are left alone. -/
theorem pushRow_frame {lo s n : ℕ} (hs : 4 ≤ s) (hn : lo + n * s ≤ 2 ^ 32) (header : Word)
    (mem : Memory) {x : Word} (hx : x.toNat + 4 ≤ lo) :
    load (pushRow lo s n header mem).2 x = load mem x := by
  induction n generalizing header mem with
  | zero => rfl
  | succ n ih =>
    have hmul : (n + 1) * s = n * s + s := by ring
    have ha : (BitVec.ofNat 32 (lo + n * s)).toNat = lo + n * s := by
      rw [BitVec.toNat_ofNat]
      omega
    rw [pushRow, ih (by omega), load_store_apart mem header (by omega) (by omega)]
    refine Or.inl ?_
    simp only [wordAt, Extent.stop, ha]
    omega

/-- **The row is linked** in front of what was there. -/
theorem pushRow_chain {lo s n : ℕ} (hs : 4 ≤ s) (hlo : 0 < lo) (hn : lo + n * s ≤ 2 ^ 32)
    {header : Word} {mem : Memory} {l : List Word} (h : Chain (load mem) 0#32 header l)
    (hl : ∀ z ∈ l, lo + n * s ≤ z.toNat ∧ z.toNat + 4 ≤ 2 ^ 32) :
    Chain (load (pushRow lo s n header mem).2) 0#32 (pushRow lo s n header mem).1
      (pointers ((row lo s n).map Extent.addr) ++ l) := by
  induction n generalizing header mem l with
  | zero => simpa [pushRow, row, pointers] using h
  | succ n ih =>
    have hmul : (n + 1) * s = n * s + s := by ring
    have ha : (BitVec.ofNat 32 (lo + n * s)).toNat = lo + n * s := by
      rw [BitVec.toNat_ofNat]
      omega
    have hne : BitVec.ofNat 32 (lo + n * s) ≠ 0#32 := by
      intro h0
      rw [h0] at ha
      simp only [BitVec.toNat_zero] at ha
      omega
    have hpush := h.push (y := BitVec.ofNat 32 (lo + n * s)) hne (load_store mem _ header)
      fun z hz => by
        have hz' := hl z hz
        refine load_store_apart mem header (by omega) hz'.2 (Or.inr ?_)
        simp only [wordAt, Extent.stop, ha]
        omega
    have hrow := ih (by omega) hpush fun z hz => by
      rcases List.mem_cons.mp hz with rfl | hz
      · omega
      · have := hl z hz
        omega
    rw [pushRow, row_succ]
    simpa [pointers] using hrow

/-! ### The pool in memory -/

/-- **The heap holds the pool.** -/
structure Represents (start : ℕ) (h : Heap) (p : Pool) : Prop where
  ready : h.initialized = true
  valid : Valid start h.freeSpace.toNat p
  sizes : ∀ b ∈ p.blocks, 8 ≤ b.size ∧ b.size ≤ 4088 ∧ b.size % 8 = 0
  chain : ∀ k : Fin numSizes,
    Chain (load h.mem) 0#32 (h.smallBlockHeaders k) (pointers (p.free (8 * k)))
  tag : ∀ b ∈ p.blocks, b.addr ∈ p.taken →
    load h.mem (BitVec.ofNat 32 b.addr) = BitVec.ofNat 32 b.size

variable {start : ℕ} {h : Heap} {p : Pool} {k : Fin numSizes} {n fuel : ℕ}

theorem clearHeaders_ready (hi : h.initialized = true) : clearHeaders h = h := by
  simp only [clearHeaders, hi, Bool.not_true, Bool.false_eq_true, if_false]

/-- Where blocks are. -/
theorem Represents.bounds (hr : Represents start h p) {b : Extent} (hb : b ∈ p.blocks) :
    start ≤ b.addr ∧ b.addr + b.size ≤ h.freeSpace.toNat ∧ 8 ≤ b.size ∧ b.size ≤ 4088 ∧
      b.addr + 8 < 2 ^ 32 ∧ (BitVec.ofNat 32 b.addr).toNat = b.addr := by
  obtain ⟨h1, -, h2⟩ := hr.valid.tiles.inside hb
  obtain ⟨h3, h4, -⟩ := hr.sizes b hb
  have := h.freeSpace.isLt
  unfold Extent.stop at h2
  refine ⟨h1, h2, h3, h4, by omega, ?_⟩
  rw [BitVec.toNat_ofNat]
  omega

/-- The first words of two blocks are apart. -/
theorem Represents.load_other (hr : Represents start h p) {b c : Extent} (hb : b ∈ p.blocks)
    (hc : c ∈ p.blocks) (hne : c.addr ≠ b.addr) (v : Word) :
    load (store h.mem (BitVec.ofNat 32 b.addr) v) (BitVec.ofNat 32 c.addr)
      = load h.mem (BitVec.ofNat 32 c.addr) := by
  obtain ⟨-, -, hb8, -, hb32, hb⟩ := hr.bounds ‹b ∈ p.blocks›
  obtain ⟨-, -, hc8, -, hc32, hc⟩ := hr.bounds ‹c ∈ p.blocks›
  have hap := hr.valid.tiles.apart ‹c ∈ p.blocks› ‹b ∈ p.blocks› (fun he => hne (by rw [he]))
  refine load_store_apart h.mem v (by omega) (by omega) (hap.mono ?_ ?_ ?_ ?_) <;>
    simp only [wordAt, Extent.stop, hb, hc] <;> omega

/-- A list survives a store to a block that is not on it. -/
theorem Represents.chain_store (hr : Represents start h p) {b : Extent} (hb : b ∈ p.blocks) (v : Word)
    {s : ℕ} {l : List ℕ} (hl : ∀ a ∈ l, a ∈ p.free s ∧ a ≠ b.addr) {x : Word}
    (hx : Chain (load h.mem) 0#32 x (pointers l)) :
    Chain (load (store h.mem (BitVec.ofNat 32 b.addr) v)) 0#32 x (pointers l) := by
  refine hx.congr fun z hz => ?_
  obtain ⟨a, ha, rfl⟩ := List.mem_map.mp hz
  obtain ⟨hf, hne⟩ := hl a ha
  exact hr.load_other (c := ⟨a, s⟩) hb (hr.valid.mem_free s a hf).1 hne v

/-- A free list is empty if and only if its header is `NULL`. -/
theorem Represents.free_eq_nil_iff (hr : Represents start h p) (k : Fin numSizes) :
    p.free (8 * k) = [] ↔ h.smallBlockHeaders k = 0#32 := by
  rw [← (hr.chain k).eq_nil_iff, pointers, List.map_eq_nil_iff]

theorem class_ne {k k' : Fin numSizes} (hk : k' ≠ k) : 8 * (k' : ℕ) ≠ 8 * (k : ℕ) := fun he =>
  hk (Fin.ext (by omega))

/-! ### The operations -/

/-- What `refill` does with an empty list, above the largest block: a row of blocks at `free_space`. -/
theorem refill_eq {s : ℕ} (h0 : h.smallBlockHeaders k = 0#32) (hs8 : 8 ≤ s) (hs : s ≤ 4088)
    (hlow : s ≤ h.freeSpace.toNat) (hroom : h.freeSpace.toNat + blockCount s * s < 2 ^ 32)
    (hfuel : 13 ≤ fuel) :
    refill fuel h k (BitVec.ofNat 32 s) =
      some { h with
        mem := (pushRow h.freeSpace.toNat s (blockCount s) 0#32 h.mem).2
        smallBlockHeaders := Function.update h.smallBlockHeaders k
          (pushRow h.freeSpace.toNat s (blockCount s) 0#32 h.mem).1
        freeSpace := BitVec.ofNat 32 (h.freeSpace.toNat + blockCount s * s) } := by
  obtain ⟨-, hc12, -⟩ := blockCount_bounds hs8 hs
  generalize htop : h.freeSpace.toNat = top at *
  have hend : h.freeSpace + chunkSize (BitVec.ofNat 32 s)
      = BitVec.ofNat 32 (top + blockCount s * s) := by
    rw [chunkSize_eq hs8 hs, BitVec.ofNat_add, ← htop, BitVec.ofNat_toNat, BitVec.setWidth_eq]
  have hbelow : ¬ h.freeSpace ≤ BitVec.ofNat 32 top - BitVec.ofNat 32 s := by
    rw [BitVec.le_def, htop, BitVec.toNat_sub, BitVec.toNat_ofNat, BitVec.toNat_ofNat]
    omega
  have hrow : ∀ i < blockCount s, top + i * s < 2 ^ 32 := by
    intro i hi
    have := Nat.mul_le_mul_right s hi.le
    omega
  obtain ⟨fuel, rfl⟩ : ∃ f, fuel = blockCount s + (f + 1) := ⟨fuel - blockCount s - 1, by omega⟩
  have hcarve := carve_row htop.le (fuel + 1) hrow 0#32 h.mem
  rw [carve_end hbelow] at hcarve
  rw [refill, if_pos h0]
  simp only [hend, h0, hcarve, Option.map_some]

/-- **A new chunk** lets the pool grow. -/
theorem Represents.refilled (hr : Represents start h p) (hstart : 0 < start) (hk : 0 < (k : ℕ))
    (h0 : h.smallBlockHeaders k = 0#32)
    (hroom : h.freeSpace.toNat + n * (8 * k) < 2 ^ 32) :
    Represents start
      { h with
        mem := (pushRow h.freeSpace.toNat (8 * k) n 0#32 h.mem).2
        smallBlockHeaders := Function.update h.smallBlockHeaders k
          (pushRow h.freeSpace.toNat (8 * k) n 0#32 h.mem).1
        freeSpace := BitVec.ofNat 32 (h.freeSpace.toNat + n * (8 * k)) }
      (p.grow h.freeSpace.toNat (8 * k) n) := by
  have hk512 : (k : ℕ) < 512 := k.isLt
  have hle := hr.valid.tiles.le
  have hend : (BitVec.ofNat 32 (h.freeSpace.toNat + n * (8 * k))).toNat
      = h.freeSpace.toNat + n * (8 * k) := by
    rw [BitVec.toNat_ofNat, Nat.mod_eq_of_lt hroom]
  have hframe : ∀ b ∈ p.blocks,
      load (pushRow h.freeSpace.toNat (8 * k) n 0#32 h.mem).2 (BitVec.ofNat 32 b.addr)
        = load h.mem (BitVec.ofNat 32 b.addr) := by
    intro b hb
    obtain ⟨-, h2, h3, -, -, h4⟩ := hr.bounds hb
    exact pushRow_frame (by omega) (by omega) _ _ (by omega)
  have hvalid := hr.valid.grow (show 0 < 8 * (k : ℕ) by omega) n ((hr.free_eq_nil_iff k).mpr h0)
  refine ⟨hr.ready, ?_, ?_, ?_, ?_⟩
  · simp only [hend]
    exact hvalid
  · intro b hb
    rcases List.mem_append.mp hb with hb | hb
    · exact hr.sizes b hb
    · obtain ⟨i, -, rfl⟩ := mem_row.mp hb
      simp only
      omega
  · intro k'
    by_cases hk' : k' = k
    · subst hk'
      have hch := pushRow_chain (show 4 ≤ 8 * (k' : ℕ) by omega) (show 0 < h.freeSpace.toNat by omega)
        (show h.freeSpace.toNat + n * (8 * (k' : ℕ)) ≤ 2 ^ 32 by omega) (chain_null (load h.mem) 0#32)
        (fun z hz => by cases hz)
      simpa only [Pool.grow, Function.update_self, List.append_nil] using hch
    · simp only [Pool.grow, Function.update_of_ne hk', Function.update_of_ne (class_ne hk')]
      refine (hr.chain k').congr fun z hz => ?_
      obtain ⟨a, ha, rfl⟩ := List.mem_map.mp hz
      exact hframe ⟨a, _⟩ (hr.valid.mem_free _ a ha).1
  · intro b hb ht
    have hold : b ∈ p.blocks := by
      obtain ⟨c, hc, hcb⟩ := hr.valid.mem_taken _ ht
      rwa [← hvalid.tiles.eq_of_addr (List.mem_append_left _ hc) hb hcb]
    rw [hframe b hold]
    exact hr.tag b hold ht

/-- **`refill` leaves a free block** of the size asked for. -/
theorem refill_spec (hr : Represents start h p) (hstart : 4088 ≤ start) (hfuel : 13 ≤ fuel)
    (hk : 0 < (k : ℕ)) (hroom : h.smallBlockHeaders k = 0#32 →
      h.freeSpace.toNat + blockCount (8 * k) * (8 * k) < 2 ^ 32) :
    ∃ h' p', refill fuel h k (BitVec.ofNat 32 (8 * k)) = some h' ∧ Represents start h' p' ∧
      p'.free (8 * k) ≠ [] ∧ p'.taken = p.taken ∧ p.blocks ⊆ p'.blocks := by
  by_cases h0 : h.smallBlockHeaders k = 0#32
  · have hk512 : (k : ℕ) < 512 := k.isLt
    have hle := hr.valid.tiles.le
    obtain ⟨hc10, -, -⟩ := blockCount_bounds (show 8 ≤ 8 * (k : ℕ) by omega)
      (show 8 * (k : ℕ) ≤ 4088 by omega)
    refine ⟨_, _, refill_eq h0 (by omega) (by omega) (by omega) (hroom h0) hfuel,
      hr.refilled (by omega) hk h0 (hroom h0), ?_, rfl, fun b hb => List.mem_append_left _ hb⟩
    simp only [Pool.grow, Function.update_self, row, ne_eq, List.map_eq_nil_iff, List.range_eq_nil]
    omega
  · refine ⟨h, p, by rw [refill, if_neg h0], hr, ?_, rfl, List.Subset.refl _⟩
    rwa [Ne, hr.free_eq_nil_iff]

/-- **`unlink` takes** the first free block. -/
theorem unlink_spec (hr : Represents start h p) {a : ℕ} {l : List ℕ}
    (hfree : p.free (8 * k) = a :: l) :
    (unlink h k (BitVec.ofNat 32 (8 * k))).1 = BitVec.ofNat 32 a + 4#32 ∧
      Represents start (unlink h k (BitVec.ofNat 32 (8 * k))).2 (p.take (8 * k) a l) := by
  have hmem : a ∈ p.free (8 * k) := by rw [hfree]; exact List.mem_cons_self
  obtain ⟨hblock, hnot⟩ := hr.valid.mem_free _ a hmem
  have hchain := hr.chain k
  rw [hfree] at hchain
  have hhead : h.smallBlockHeaders k = BitVec.ofNat 32 a := hchain.head
  have hnd := hr.valid.nodup_free (8 * k)
  rw [hfree] at hnd
  have hal := (List.nodup_cons.mp hnd).1
  refine ⟨by simp only [unlink, hhead], ?_⟩
  simp only [unlink, hhead]
  refine ⟨hr.ready, hr.valid.take hfree, hr.sizes, ?_, ?_⟩
  · intro k'
    by_cases hk' : k' = k
    · subst hk'
      simp only [Pool.take, Function.update_self]
      refine hr.chain_store (b := ⟨a, _⟩) hblock _ (s := 8 * (k' : ℕ)) (fun c hc => ⟨?_, ?_⟩)
        hchain.tail
      · rw [hfree]
        exact List.mem_cons_of_mem _ hc
      · rintro rfl
        exact hal hc
    · simp only [Pool.take, Function.update_of_ne hk', Function.update_of_ne (class_ne hk')]
      refine hr.chain_store (b := ⟨a, _⟩) hblock _ (fun c hc => ⟨hc, ?_⟩) (hr.chain k')
      rintro rfl
      exact class_ne hk' (hr.valid.free_unique hblock hc)
  · intro b hb ht
    rcases List.mem_cons.mp ht with hba | ht
    · have hbk : b = ⟨a, 8 * k⟩ := hr.valid.tiles.eq_of_addr hb hblock hba
      rw [hbk]
      exact load_store h.mem _ _
    · rw [hr.load_other (b := ⟨a, _⟩) hblock hb fun he => hnot (by rwa [show b.addr = a from he] at ht)]
      exact hr.tag b hb ht

/-- A new chunk for `n` bytes ends below `2^32`. -/
def NoWrap (h : Heap) (n : ℕ) : Prop :=
  ∀ k, header? ((alignSize (BitVec.ofNat 32 n)).sdiv (BitVec.ofNat 32 blockSizeStep)) = some k →
    (clearHeaders h).smallBlockHeaders k = 0#32 →
      h.freeSpace.toNat + (chunkSize (alignSize (BitVec.ofNat 32 n))).toNat < 2 ^ 32

/-- What `allocate` comes to for a request that is served. -/
theorem allocate_eq (h1 : 1 ≤ n) (h2 : n ≤ 4084) (hk : (k : ℕ) = blockSize n / 8) :
    allocate fuel h (BitVec.ofNat 32 n) =
      (refill fuel (clearHeaders h) k (BitVec.ofNat 32 (8 * k))).map
        fun h' => unlink h' k (BitVec.ofNat 32 (8 * k)) := by
  obtain ⟨hb1, hb2, hb3, -⟩ := blockSize_bounds h1 h2
  have hslt : (BitVec.ofNat 32 n).slt 1#32 = false := by
    rw [BitVec.slt_eq_decide, toInt_ofNat (show n < 2 ^ 31 by omega),
      toInt_ofNat (show 1 < 2 ^ 31 by omega), decide_eq_false_iff_not]
    omega
  have hsle : (BitVec.ofNat 32 numSizes).sle (BitVec.ofNat 32 (blockSize n / 8)) = false := by
    rw [BitVec.sle_eq_decide, toInt_ofNat (show numSizes < 2 ^ 31 by decide),
      toInt_ofNat (show blockSize n / 8 < 2 ^ 31 by omega), decide_eq_false_iff_not,
      show numSizes = 512 from rfl]
    omega
  have hheader : header? (BitVec.ofNat 32 (blockSize n / 8)) = some k := by
    rw [← hk]
    exact header?_eq k.isLt
  simp only [allocate, hslt, alignSize_eq (show n ≤ 2147483636 by omega),
    sdiv_step (show blockSize n < 2 ^ 31 by omega), hsle, hheader, Bool.false_eq_true, if_false, Option.bind_eq_bind, Option.bind_some,
    show 8 * (k : ℕ) = blockSize n by omega]
  cases refill fuel (clearHeaders h) k (BitVec.ofNat 32 (blockSize n)) <;> rfl

/-- **`allocate` takes a block** of the size of the request, carving a chunk if there is none. -/
theorem allocate_spec (hr : Represents start (clearHeaders h) p) (hstart : 4088 ≤ start)
    (hfuel : 13 ≤ fuel) (h1 : 1 ≤ n) (h2 : n ≤ 4084) (hroom : NoWrap h n) :
    ∃ a h' p', allocate fuel h (BitVec.ofNat 32 n) = some (BitVec.ofNat 32 a + 4#32, h') ∧
      Represents start h' p' ∧ p'.taken = a :: p.taken ∧ p.blocks ⊆ p'.blocks ∧
      ⟨a, blockSize n⟩ ∈ p'.blocks := by
  obtain ⟨hb1, hb2, hb3, -⟩ := blockSize_bounds h1 h2
  obtain ⟨-, -, hcount⟩ := blockCount_bounds hb1 hb2
  obtain ⟨k, hk⟩ : ∃ k : Fin numSizes, (k : ℕ) = blockSize n / 8 :=
    ⟨⟨blockSize n / 8, by rw [show numSizes = 512 from rfl]; omega⟩, rfl⟩
  have hsize : 8 * (k : ℕ) = blockSize n := by omega
  have hfree : h.freeSpace = (clearHeaders h).freeSpace := by
    unfold clearHeaders
    split_ifs <;> rfl
  have hroom' : (clearHeaders h).smallBlockHeaders k = 0#32 →
      (clearHeaders h).freeSpace.toNat + blockCount (8 * k) * (8 * k) < 2 ^ 32 := by
    intro h0
    have hheader : header? (BitVec.ofNat 32 (blockSize n / 8)) = some k := by
      rw [← hk]
      exact header?_eq k.isLt
    have hno := hroom k (by rw [alignSize_eq (show n ≤ 2147483636 by omega), sdiv_step (by omega), hheader]) h0
    rw [alignSize_eq (show n ≤ 2147483636 by omega), chunkSize_eq hb1 hb2, BitVec.toNat_ofNat, hfree] at hno
    rw [hsize]
    omega
  obtain ⟨h', p', href, hr', hne, htaken, hsub⟩ := refill_spec hr hstart hfuel (by omega) hroom'
  obtain ⟨a, l, hal⟩ := List.exists_cons_of_ne_nil hne
  obtain ⟨hp, hr''⟩ := unlink_spec hr' hal
  refine ⟨a, _, _, ?_, hr'', ?_, hsub, ?_⟩
  · rw [allocate_eq h1 h2 hk, href, Option.map_some, ← hp]
  · simp only [Pool.take, htaken]
  · rw [← hsize]
    exact (hr'.valid.mem_free _ a (by rw [hal]; exact List.mem_cons_self)).1

/-- **`release` gives back** a taken block. -/
theorem release_spec (hr : Represents start h p) (hk : 0 < (k : ℕ)) (hstart : 0 < start) {a : ℕ}
    (ht : a ∈ p.taken) (hblock : ⟨a, 8 * (k : ℕ)⟩ ∈ p.blocks) :
    ∃ h', release h (BitVec.ofNat 32 a + 4#32) = some h' ∧ h'.freeSpace = h.freeSpace ∧
      Represents start h' (p.giveBack (8 * k) a) := by
  obtain ⟨hge, -, -, -, -, haNat⟩ := hr.bounds hblock
  simp only at hge haNat
  have hk512 : (k : ℕ) < 512 := k.isLt
  have hheader : header? ((load h.mem (BitVec.ofNat 32 a)).sdiv (BitVec.ofNat 32 blockSizeStep))
      = some k := by
    rw [hr.tag _ hblock ht, sdiv_step (show 8 * (k : ℕ) < 2 ^ 31 by omega),
      Nat.mul_div_cancel_left _ (by omega)]
    exact header?_eq k.isLt
  have hne : BitVec.ofNat 32 a ≠ 0#32 := by
    intro h0
    rw [h0] at haNat
    simp only [BitVec.toNat_zero] at haNat
    omega
  refine ⟨{ h with
    mem := store h.mem (BitVec.ofNat 32 a) (h.smallBlockHeaders k)
    smallBlockHeaders := Function.update h.smallBlockHeaders k (BitVec.ofNat 32 a) }, ?_, rfl, ?_⟩
  · simp only [release, BitVec.add_sub_cancel, hheader, Option.bind_eq_bind, Option.bind_some]
  refine ⟨hr.ready, hr.valid.giveBack ht hblock, hr.sizes, ?_, ?_⟩
  · intro k'
    have hout : ∀ s, ∀ c ∈ p.free s, c ∈ p.free s ∧ c ≠ a := by
      intro s c hc
      refine ⟨hc, ?_⟩
      rintro rfl
      exact (hr.valid.mem_free s c hc).2 ht
    by_cases hk' : k' = k
    · subst hk'
      simp only [Pool.giveBack, Function.update_self]
      refine (hr.chain k').push hne (load_store h.mem _ _) fun z hz => ?_
      obtain ⟨c, hc, rfl⟩ := List.mem_map.mp hz
      exact hr.load_other (c := ⟨c, _⟩) hblock (hr.valid.mem_free _ c hc).1 (hout _ c hc).2 _
    · simp only [Pool.giveBack, Function.update_of_ne hk', Function.update_of_ne (class_ne hk')]
      exact hr.chain_store (b := ⟨a, _⟩) hblock _ (hout _) (hr.chain k')
  · intro b hb hbt
    obtain ⟨hba, hbt⟩ := hr.valid.nodup_taken.mem_erase_iff.mp hbt
    rw [hr.load_other (b := ⟨a, _⟩) hblock hb hba]
    exact hr.tag b hb hbt

/-- **A write inside a block**, after its first word. -/
theorem write_represents (hr : Represents start h p) {b : Extent} (hb : b ∈ p.blocks) {x : Word}
    (hlo : b.addr + 4 ≤ x.toNat) (hhi : x.toNat < b.stop) (v : BitVec 8) :
    Represents start { h with mem := Function.update h.mem x v } p := by
  have hframe : ∀ c ∈ p.blocks, load (Function.update h.mem x v) (BitVec.ofNat 32 c.addr)
      = load h.mem (BitVec.ofNat 32 c.addr) := by
    intro c hc
    obtain ⟨-, -, hc8, -, hc32, hcNat⟩ := hr.bounds hc
    refine load_update_apart h.mem v (by omega) ?_
    by_cases hbc : c = b
    · subst hbc
      refine Or.inl ?_
      simp only [wordAt, Extent.stop, hcNat]
      exact hlo
    · refine (hr.valid.tiles.apart hc hb hbc).mono ?_ ?_ ?_ ?_ <;>
        simp only [wordAt, Extent.stop, hcNat] at * <;> omega
  refine ⟨hr.ready, hr.valid, hr.sizes, ?_, ?_⟩
  · intro k
    refine (hr.chain k).congr fun z hz => ?_
    obtain ⟨a, ha, rfl⟩ := List.mem_map.mp hz
    exact hframe ⟨a, _⟩ (hr.valid.mem_free _ a ha).1
  · intro c hc ht
    rw [hframe c hc]
    exact hr.tag c hc ht

end CompSys.A6.AllocHeap
