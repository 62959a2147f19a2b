import CompSys.A6.AllocHeap
import CompSys.Lib.Runs

/-! # Runs of the allocator

A program calls `allocate` and `release` in any order, releases only blocks it holds, and writes only
inside them. In every state it reaches the blocks it holds are apart, every other block is on the free
list of its size and on no other, once, and a block is handed out for one size only
(`allocator_safe`). The proof follows the pool of `CompSys.A6.AllocHeap` along the run (`Inv`).

The loop that splits a chunk counts its pointer down below the chunk, so the heap must not start below
the size of the largest block (`low_heap_overlaps`). -/

namespace CompSys.A6.AllocRuns

open CompSys.Lib.Extents CompSys.Lib.Links CompSys.Lib.Segregated CompSys.Lib.Runs CompSys.Lib.Words
open CompSys.A6.Alloc CompSys.A6.AllocHeap

/-- A block as its holder knows it: the pointer `allocate` returned, and the bytes asked for. -/
structure Grant where
  p : Word
  size : ℕ
  deriving DecidableEq

/-- The size word in front of the pointer. -/
def Grant.sizeWord (g : Grant) : Extent := wordAt (g.p - 4#32)

/-- The bytes the holder may use. -/
def Grant.usable (g : Grant) : Extent := ⟨g.p.toNat, g.size⟩

/-- The block as the allocator knows it. -/
def Grant.block (g : Grant) : Extent := ⟨(g.p - 4#32).toNat, blockSize g.size⟩

/-- The allocator and the blocks the program holds. -/
structure System where
  heap : Heap
  live : List Grant

inductive Event
  | allocated (g : Grant)
  | released (g : Grant)

/-- After `init_heap`. -/
def initial (h : Heap) (start : Word) : System := ⟨initHeap h start, []⟩

/-- What the program may do. -/
inductive Step (fuel : ℕ) : System → Option Event → System → Prop
  | allocate {t : System} {n : ℕ} {p : Word} {h' : Heap} (h1 : 1 ≤ n) (h2 : n ≤ 4084)
      (hroom : NoWrap t.heap n) (h : allocate fuel t.heap (BitVec.ofNat 32 n) = some (p, h')) :
      Step fuel t (some (.allocated ⟨p, n⟩)) ⟨h', ⟨p, n⟩ :: t.live⟩
  | release {t : System} {g : Grant} {h' : Heap} (hg : g ∈ t.live)
      (h : release t.heap g.p = some h') :
      Step fuel t (some (.released g)) ⟨h', t.live.erase g⟩
  | write {t : System} {g : Grant} {a : Word} (hg : g ∈ t.live) (hlo : g.p.toNat ≤ a.toNat)
      (hhi : a.toNat < g.p.toNat + g.size) (v : BitVec 8) :
      Step fuel t none { t with heap := { t.heap with mem := Function.update t.heap.mem a v } }

/-- What the program holds: size words and usable ranges. -/
def parts (live : List Grant) : List Extent := live.flatMap fun g => [g.sizeWord, g.usable]

/-- List `k` as the header and the links give it; before the first call the headers do not count. -/
def FreeList (h : Heap) (k : Fin numSizes) (l : List Word) : Prop :=
  Chain (load h.mem) 0#32 ((clearHeaders h).smallBlockHeaders k) l

/-- **Every block is accounted for**: the blocks fill the heap, and those the program does not hold are
exactly the members of the free lists. -/
structure Accounts (start : Word) (es : List Event) (t : System) (blocks : List Extent)
    (lists : Fin numSizes → List Word) : Prop where
  tiles : Tiles start.toNat blocks t.heap.freeSpace.toNat
  handed : ∀ g, .allocated g ∈ es → g.block ∈ blocks
  listed : ∀ k, FreeList t.heap k (lists k)
  free : ∀ b ∈ blocks, (∀ g ∈ t.live, g.block ≠ b) →
    (∃ k : Fin numSizes, b.size = 8 * k ∧ (lists k).count (BitVec.ofNat 32 b.addr) = 1 ∧
      ∀ k' ≠ k, BitVec.ofNat 32 b.addr ∉ lists k') ∧ ∀ e ∈ parts t.live, Apart b e
  only : ∀ k, ∀ x ∈ lists k, ⟨x.toNat, 8 * k⟩ ∈ blocks ∧ ∀ g ∈ t.live, g.block ≠ ⟨x.toNat, 8 * k⟩

/-- **Safety** of a state, after the calls `es`. -/
structure Safe (fuel : ℕ) (start : Word) (es : List Event) (t : System) : Prop where
  apart : (parts t.live).Pairwise Apart
  inside : ∀ e ∈ parts t.live, start.toNat ≤ e.addr ∧ e.stop ≤ t.heap.freeSpace.toNat
  accounts : ∃ blocks lists, Accounts start es t blocks lists
  reuse : ∀ g g', .allocated g ∈ es → .allocated g' ∈ es →
    (g.p = g'.p ∧ blockSize g.size = blockSize g'.size) ∨ Apart g.block g'.block
  allocates : ∀ n, 1 ≤ n → n ≤ 4084 → NoWrap t.heap n →
    ∃ p h', allocate fuel t.heap (BitVec.ofNat 32 n) = some (p, h') ∧ p ≠ 0#32
  releases : ∀ g ∈ t.live, ∃ h', release t.heap g.p = some h'

/-! ### The invariant -/

/-- The pool behind the heap, after the calls `es`. -/
structure Inv (start : Word) (es : List Event) (t : System) (p : Pool) : Prop where
  repr : Represents start.toNat (clearHeaders t.heap) p
  ready : t.live ≠ [] → t.heap.initialized = true
  taken : p.taken.Perm (t.live.map fun g => g.block.addr)
  handed : ∀ g, .allocated g ∈ es → g.block ∈ p.blocks ∧ 1 ≤ g.size ∧ g.size ≤ 4084
  live : ∀ g ∈ t.live, .allocated g ∈ es

variable {fuel : ℕ} {start : Word} {es : List Event} {t u : System} {p : Pool} {g g' : Grant}

theorem clearHeaders_mem (h : Heap) : (clearHeaders h).mem = h.mem := by
  unfold clearHeaders
  split_ifs <;> rfl

theorem clearHeaders_freeSpace (h : Heap) : (clearHeaders h).freeSpace = h.freeSpace := by
  unfold clearHeaders
  split_ifs <;> rfl

theorem inv_initial (h : Heap) (start : Word) : Inv start [] (initial h start) .empty := by
  refine ⟨⟨rfl, valid_empty _, ?_, fun k => chain_null _ _, ?_⟩, fun hne => absurd rfl hne, .nil,
    ?_, ?_⟩ <;> simp [Pool.empty, initial]

theorem Inv.represents (h : Inv start es t p) (hg : g ∈ t.live) :
    Represents start.toNat t.heap p := by
  have := h.repr
  rwa [clearHeaders_ready (h.ready (List.ne_nil_of_mem hg))] at this

/-- Where a block that was handed out is, and that its parts lie in it. -/
theorem Inv.grant (h : Inv start es t p) (hstart : 4088 ≤ start.toNat) (hg : .allocated g ∈ es) :
    g.p = BitVec.ofNat 32 g.block.addr + 4#32 ∧ g.p.toNat = g.block.addr + 4 ∧
      start.toNat ≤ g.block.addr ∧ g.block.stop ≤ t.heap.freeSpace.toNat ∧
      g.block.addr + 4 + g.size ≤ g.block.stop := by
  obtain ⟨hb, h1, h2⟩ := h.handed g hg
  obtain ⟨h3, h4, -, -, h5, h6⟩ := h.repr.bounds hb
  obtain ⟨-, -, -, h7⟩ := blockSize_bounds h1 h2
  rw [clearHeaders_freeSpace] at h4
  simp only [Grant.block, Extent.stop, BitVec.ofNat_toNat, BitVec.setWidth_eq, BitVec.sub_add_cancel]
    at *
  refine ⟨trivial, ?_, h3, h4, by omega⟩
  bv_omega

theorem Inv.taken_live (h : Inv start es t p) (hg : g ∈ t.live) : g.block.addr ∈ p.taken :=
  h.taken.mem_iff.mpr (List.mem_map_of_mem hg)

/-! ### Steps -/

theorem Inv.allocated (h : Inv start es t p) (hstart : 4088 ≤ start.toNat) (hfuel : 13 ≤ fuel) {n : ℕ}
    {q : Word} {h' : Heap} (h1 : 1 ≤ n) (h2 : n ≤ 4084) (hroom : NoWrap t.heap n)
    (ha : allocate fuel t.heap (BitVec.ofNat 32 n) = some (q, h')) :
    ∃ p', Inv start (es ++ [.allocated ⟨q, n⟩]) ⟨h', ⟨q, n⟩ :: t.live⟩ p' := by
  obtain ⟨a, h'', p', ha', hr, htaken, hsub, hblock⟩ := allocate_spec h.repr hstart hfuel h1 h2 hroom
  rw [ha'] at ha
  simp only [Option.some.injEq, Prod.mk.injEq] at ha
  obtain ⟨rfl, rfl⟩ := ha
  have haNat := (hr.bounds hblock).2.2.2.2.2
  have hg : (⟨BitVec.ofNat 32 a + 4#32, n⟩ : Grant).block = ⟨a, blockSize n⟩ := by
    simp only [Grant.block, BitVec.add_sub_cancel, haNat]
  refine ⟨p', ?_, fun _ => hr.ready, ?_, ?_, ?_⟩
  · rwa [clearHeaders_ready hr.ready]
  · rw [htaken, List.map_cons, hg]
    exact h.taken.cons a
  · intro g hgm
    rcases List.mem_append.mp hgm with hgm | hgm
    · obtain ⟨hb, hs⟩ := h.handed g hgm
      exact ⟨hsub hb, hs⟩
    · simp only [List.mem_singleton, Event.allocated.injEq] at hgm
      subst hgm
      exact ⟨hg ▸ hblock, h1, h2⟩
  · intro g hgm
    rcases List.mem_cons.mp hgm with rfl | hgm
    · exact List.mem_append_right _ (List.mem_singleton_self _)
    · exact List.mem_append_left _ (h.live g hgm)

/-- What `release` does to a block the program holds. -/
theorem Inv.release_eq (h : Inv start es t p) (hstart : 4088 ≤ start.toNat) (hg : g ∈ t.live) :
    ∃ h', release t.heap g.p = some h' ∧
      Represents start.toNat h' (p.giveBack g.block.size g.block.addr) := by
  obtain ⟨hb, h1, h2⟩ := h.handed g (h.live g hg)
  obtain ⟨hb1, hb2, hb3, -⟩ := blockSize_bounds h1 h2
  obtain ⟨k, hk⟩ : ∃ k : Fin numSizes, blockSize g.size = 8 * (k : ℕ) :=
    ⟨⟨blockSize g.size / 8, by rw [show numSizes = 512 from rfl]; omega⟩, by
      simp only
      omega⟩
  have hblock : ⟨g.block.addr, 8 * (k : ℕ)⟩ ∈ p.blocks := by
    rw [← hk]
    exact hb
  obtain ⟨h', hrel, -, hr⟩ := release_spec (h.represents hg) (by omega) (by omega)
    (h.taken_live hg) hblock
  rw [← (h.grant hstart (h.live g hg)).1] at hrel
  exact ⟨h', hrel, by rwa [show g.block.size = 8 * (k : ℕ) from hk]⟩

theorem Inv.released (h : Inv start es t p) (hstart : 4088 ≤ start.toNat) (hg : g ∈ t.live)
    {h' : Heap} (hrel : release t.heap g.p = some h') :
    ∃ p', Inv start (es ++ [.released g]) ⟨h', t.live.erase g⟩ p' := by
  obtain ⟨h'', hrel', hr⟩ := h.release_eq hstart hg
  rw [hrel'] at hrel
  simp only [Option.some.injEq] at hrel
  subst hrel
  have hmem : ∀ g', Event.allocated g' ∈ es ++ [.released g] → .allocated g' ∈ es := by
    intro g' hg'
    simpa using hg'
  refine ⟨p.giveBack g.block.size g.block.addr, ?_, fun _ => hr.ready, ?_,
    fun g' hg' => h.handed g' (hmem g' hg'), fun g' hg' => ?_⟩
  · rwa [clearHeaders_ready hr.ready]
  · have hperm := h.taken.trans ((List.perm_cons_erase hg).map _)
    have := hperm.erase g.block.addr
    simpa only [Pool.giveBack, List.map_cons, List.erase_cons_head] using this
  · exact List.mem_append_left _ (h.live g' (List.mem_of_mem_erase hg'))

theorem Inv.written (h : Inv start es t p) (hstart : 4088 ≤ start.toNat) (hg : g ∈ t.live) {a : Word}
    (hlo : g.p.toNat ≤ a.toNat) (hhi : a.toNat < g.p.toNat + g.size) (v : BitVec 8) :
    Inv start es { t with heap := { t.heap with mem := Function.update t.heap.mem a v } } p := by
  obtain ⟨-, h1, -, -, h2⟩ := h.grant hstart (h.live g hg)
  have hr := write_represents (h.represents hg) (h.handed g (h.live g hg)).1 (x := a) (by omega)
    (by omega) v
  refine ⟨?_, h.ready, h.taken, h.handed, h.live⟩
  rwa [clearHeaders_ready hr.ready]

/-- **One step** keeps the invariant. -/
theorem Inv.step (h : Inv start es t p) (hstart : 4088 ≤ start.toNat) (hfuel : 13 ≤ fuel)
    {e : Option Event} (hs : Step fuel t e u) : ∃ p', Inv start (es ++ e.toList) u p' := by
  cases hs with
  | allocate h1 h2 hroom ha => exact h.allocated hstart hfuel h1 h2 hroom ha
  | release hg hrel => exact h.released hstart hg hrel
  | write hg hlo hhi v => exact ⟨p, by simpa using h.written hstart hg hlo hhi v⟩

/-! ### What the invariant says -/

/-- The parts of a block the program holds lie in it. -/
theorem Inv.part (h : Inv start es t p) (hstart : 4088 ≤ start.toNat) (hg : g ∈ t.live) {e : Extent}
    (he : e ∈ [g.sizeWord, g.usable]) : g.block.addr ≤ e.addr ∧ e.stop ≤ g.block.stop := by
  obtain ⟨-, h1, -, -, h2⟩ := h.grant hstart (h.live g hg)
  rcases List.mem_pair.mp he with rfl | rfl
  · have : g.sizeWord.addr = g.block.addr := rfl
    have : g.sizeWord.stop = g.block.addr + 4 := rfl
    omega
  · have : g.usable.addr = g.p.toNat := rfl
    have : g.usable.stop = g.p.toNat + g.size := rfl
    omega

theorem Inv.apart_parts (h : Inv start es t p) (hstart : 4088 ≤ start.toNat) :
    (parts t.live).Pairwise Apart := by
  have hnd : (t.live.map fun g => g.block.addr).Nodup :=
    h.taken.nodup_iff.mp h.repr.valid.nodup_taken
  have hpw : t.live.Pairwise fun g g' => g.block.addr ≠ g'.block.addr := List.pairwise_map.mp hnd
  refine List.pairwise_flatMap.mpr ⟨fun g hg => ?_, hpw.imp_of_mem fun {g g'} hg hg' hne => ?_⟩
  · obtain ⟨-, h1, -⟩ := h.grant hstart (h.live g hg)
    refine List.pairwise_pair.mpr (Or.inl ?_)
    show g.block.addr + 4 ≤ g.p.toNat
    omega
  · intro e he e' he'
    have hap := h.repr.valid.tiles.apart (h.handed g (h.live g hg)).1 (h.handed g' (h.live g' hg')).1
      (fun heq => hne (by rw [heq]))
    obtain ⟨h1, h2⟩ := h.part hstart hg he
    obtain ⟨h3, h4⟩ := h.part hstart hg' he'
    exact hap.mono h1 h2 h3 h4

/-- A block the program does not hold is free. -/
theorem Inv.not_taken (h : Inv start es t p) {b : Extent} (hb : b ∈ p.blocks)
    (hnot : ∀ g ∈ t.live, g.block ≠ b) : b.addr ∉ p.taken := by
  intro ht
  obtain ⟨g, hg, hga⟩ := List.mem_map.mp (h.taken.mem_iff.mp ht)
  exact hnot g hg (h.repr.valid.tiles.eq_of_addr (h.handed g (h.live g hg)).1 hb hga)

/-- A pointer is on the list of a size only as the address of a free block. -/
theorem Inv.mem_pointers (h : Inv start es t p) {s : ℕ} {b : Extent} (hb : b ∈ p.blocks) :
    BitVec.ofNat 32 b.addr ∈ pointers (p.free s) ↔ b.addr ∈ p.free s := by
  constructor
  · intro hm
    obtain ⟨a, ha, he⟩ := List.mem_map.mp hm
    have h1 := (h.repr.bounds (h.repr.valid.mem_free s a ha).1).2.2.2.2.2
    have h2 := (h.repr.bounds hb).2.2.2.2.2
    simp only at h1
    rw [← h2, ← he, h1]
    exact ha
  · intro hm
    exact List.mem_map_of_mem hm

theorem Inv.accounts (h : Inv start es t p) (hstart : 4088 ≤ start.toNat) :
    Accounts start es t p.blocks fun k => pointers (p.free (8 * k)) := by
  have hv := h.repr.valid
  refine ⟨?_, fun g hg => (h.handed g hg).1, fun k => ?_, fun b hb hnot => ⟨?_, ?_⟩,
    fun k x hx => ?_⟩
  · rw [← clearHeaders_freeSpace]
    exact hv.tiles
  · have := h.repr.chain k
    rwa [clearHeaders_mem] at this
  · obtain ⟨hb1, hb2, hb3⟩ := h.repr.sizes b hb
    have hsize : b.size = 8 * (b.size / 8) := by omega
    have hf := (hv.accounted b hb).resolve_left (h.not_taken hb hnot)
    refine ⟨⟨b.size / 8, by rw [show numSizes = 512 from rfl]; omega⟩, hsize, ?_, fun k' hk' hm => ?_⟩
    · rw [hsize] at hf
      exact List.count_eq_one_of_mem (h.repr.chain ⟨b.size / 8, _⟩).nodup
        ((h.mem_pointers hb).mpr hf)
    · have hk'b := hv.free_unique hb ((h.mem_pointers hb).mp hm)
      refine hk' (Fin.ext ?_)
      simp only
      omega
  · intro e he
    obtain ⟨g, hg, heg⟩ := List.mem_flatMap.mp he
    obtain ⟨h1, h2⟩ := h.part hstart hg heg
    exact (hv.tiles.apart hb (h.handed g (h.live g hg)).1 (fun heq => hnot g hg heq.symm)).mono
      (le_refl _) (le_refl _) h1 h2
  · obtain ⟨a, ha, rfl⟩ := List.mem_map.mp hx
    obtain ⟨hb, hnt⟩ := hv.mem_free _ a ha
    rw [(h.repr.bounds hb).2.2.2.2.2]
    refine ⟨hb, fun g hg heq => hnt ?_⟩
    have := h.taken_live hg
    rwa [heq] at this

theorem Inv.safe (h : Inv start es t p) (hstart : 4088 ≤ start.toNat) (hfuel : 13 ≤ fuel) :
    Safe fuel start es t := by
  refine ⟨h.apart_parts hstart, fun e he => ?_, ⟨_, _, h.accounts hstart⟩, fun g g' hg hg' => ?_,
    fun n h1 h2 hroom => ?_, fun g hg => ?_⟩
  · obtain ⟨g, hg, heg⟩ := List.mem_flatMap.mp he
    obtain ⟨h1, h2⟩ := h.part hstart hg heg
    obtain ⟨-, -, h3, h4, -⟩ := h.grant hstart (h.live g hg)
    exact ⟨h3.trans h1, h2.trans h4⟩
  · by_cases hne : g.block = g'.block
    · refine Or.inl ⟨?_, congrArg Extent.size hne⟩
      rw [(h.grant hstart hg).1, (h.grant hstart hg').1, hne]
    · exact Or.inr (h.repr.valid.tiles.apart (h.handed g hg).1 (h.handed g' hg').1 hne)
  · obtain ⟨a, h', p', ha, hr, -, -, hb⟩ := allocate_spec h.repr hstart hfuel h1 h2 hroom
    refine ⟨_, h', ha, fun h0 => ?_⟩
    obtain ⟨-, -, -, -, h3, h4⟩ := hr.bounds hb
    simp only at h3 h4
    bv_omega
  · obtain ⟨h', hrel, -⟩ := h.release_eq hstart hg
    exact ⟨h', hrel⟩

/-- **The allocator is safe**: in every run above the size of the largest block. -/
theorem allocator_safe (hfuel : 13 ≤ fuel) {h : Heap} (hstart : 4088 ≤ start.toNat)
    (hrun : Run (Step fuel) (initial h start) es t) : Safe fuel start es t := by
  have hinv : ∃ p, Inv start es t p :=
    hrun.history (I := fun es t => ∃ p, Inv start es t p) ⟨_, inv_initial h start⟩ <| by
      rintro es t e u ⟨p, hp⟩ hs
      exact hp.step hstart hfuel hs
  obtain ⟨p, hp⟩ := hinv
  exact hp.safe hstart hfuel

/-- Memory and globals before the program starts. -/
def zeroHeap : Heap := ⟨fun _ => 0#8, fun _ => 0#32, 0#32, false⟩

theorem allocator_safe_two : ∃ t,
    Run (Step 13) (initial zeroHeap 0x2000000#32)
      [.allocated ⟨0x2000004#32, 20⟩, .released ⟨0x2000004#32, 20⟩] t ∧
    Safe 13 0x2000000#32 [.allocated ⟨0x2000004#32, 20⟩, .released ⟨0x2000004#32, 20⟩] t := by
  have hrun : ∃ t, Run (Step 13) (initial zeroHeap 0x2000000#32)
      [.allocated ⟨0x2000004#32, 20⟩, .released ⟨0x2000004#32, 20⟩] t := by
    refine ⟨_, .seen (.seen .nil (.allocate (by omega) (by omega) ?_ rfl))
      (.release List.mem_cons_self rfl)⟩
    intro k hk h0
    decide
  obtain ⟨t, ht⟩ := hrun
  exact ⟨t, ht, allocator_safe (le_refl 13) (by decide) ht⟩

/-! ### A heap that starts too low

With the heap at 4056 the first `allocate(4084)` splits its chunk into the ten blocks from 4056 on, and
then goes on through all of memory, since `end_chunk` has wrapped around: the last block it pushes is
the one at 4088, and the program gets that one. -/

/-- The loop when its pointer wraps around below the chunk, to a row that starts at `lo'`. -/
theorem carve_wrapped {chunk : Word} {lo lo' s n m : ℕ} (hlo : chunk.toNat ≤ lo)
    (hlo' : chunk.toNat ≤ lo') (hn : ∀ i < n, lo + i * s < 2 ^ 32)
    (hm : ∀ i < m + 1, lo' + i * s < 2 ^ 32)
    (hwrap : BitVec.ofNat 32 lo - BitVec.ofNat 32 s
      = BitVec.ofNat 32 (lo' + (m + 1) * s) - BitVec.ofNat 32 s)
    (hend : ¬ chunk ≤ BitVec.ofNat 32 lo' - BitVec.ofNat 32 s) (f : ℕ) (header : Word)
    (mem : Memory) :
    ∃ mem' : Memory, carve chunk (BitVec.ofNat 32 s) (n + (m + 1 + (f + 1)))
      (BitVec.ofNat 32 (lo + n * s) - BitVec.ofNat 32 s) header mem
        = some (BitVec.ofNat 32 lo', mem') := by
  rw [carve_row hlo (m + 1 + (f + 1)) hn, hwrap, carve_row hlo' (f + 1) hm, carve_end hend,
    pushRow_header]
  exact ⟨_, rfl⟩

/-- The loop over the whole of memory. -/
theorem carve_low (mem : Memory) : ∃ mem' : Memory,
    carve 4056#32 4088#32 1100000 (44936#32 - 4088#32) 0#32 mem = some (4088#32, mem') :=
  carve_wrapped (s := 4088) (n := 10) (m := 1050627) (show (4056#32).toNat ≤ 4056 by decide)
    (show (4056#32).toNat ≤ 4088 by decide) (by omega) (by omega) (by decide) (by decide) 49361 0#32
    mem

theorem allocate_low : ∃ (m : Memory) (headers : Fin numSizes → Word),
    (∀ k : Fin numSizes, (k : ℕ) ≠ 511 → headers k = 0#32) ∧
    allocate 1100000 (initHeap zeroHeap 4056#32) (BitVec.ofNat 32 4084) =
      some (4092#32, ⟨m, headers, 44936#32, true⟩) := by
  obtain ⟨k, hk⟩ : ∃ k : Fin numSizes, (k : ℕ) = 511 := ⟨⟨511, by decide⟩, rfl⟩
  obtain ⟨m, hm⟩ := carve_low zeroHeap.mem
  have hrefill : refill 1100000 (clearHeaders (initHeap zeroHeap 4056#32)) k (BitVec.ofNat 32 (8 * k))
      = some ⟨m, Function.update (fun _ => 0#32) k 4088#32, 44936#32, true⟩ := by
    have hsize : BitVec.ofNat 32 (8 * k) = 4088#32 := by rw [hk]
    have hend : 4056#32 + chunkSize 4088#32 = 44936#32 := by decide
    simp only [refill, clearHeaders, initHeap, hsize, Bool.not_false, if_true, hend]
    rw [show zeroHeap.mem = fun _ => 0#8 from rfl] at *
    rw [hm]
    rfl
  rw [allocate_eq (by omega) (by omega) (k := k) (by rw [hk]; decide), hrefill]
  refine ⟨_, _, fun k' hk' => ?_, by simp only [Option.map_some, unlink, Function.update_self]; rfl⟩
  have hne : k' ≠ k := by
    rintro rfl
    exact hk' hk
  rw [Function.update_of_ne hne, Function.update_of_ne hne]

/-- **A heap below the size of the largest block** is not safe: the block at 4088 overlaps what lies at
4056. -/
theorem low_heap_overlaps : ∃ t,
    Run (Step 1100000) (initial zeroHeap 4056#32) [.allocated ⟨4092#32, 4084⟩] t ∧
    ¬ Safe 1100000 4056#32 [.allocated ⟨4092#32, 4084⟩] t := by
  obtain ⟨m, headers, hzero, ha⟩ := allocate_low
  have hroom : NoWrap (initial zeroHeap 4056#32).heap 4084 := by
    intro k hk h0
    decide
  refine ⟨_, .seen .nil (.allocate (by omega) (by omega) hroom ha), fun hsafe => ?_⟩
  obtain ⟨blocks, lists, hacc⟩ := hsafe.accounts
  have hlive : (⟨4088, 4088⟩ : Extent) ∈ blocks := hacc.handed _ (List.mem_singleton_self _)
  have htiles : Tiles 4056 blocks 44936 := hacc.tiles
  -- the block at the start of the heap ends before the one the program holds
  obtain ⟨b, hb, hlo, hhi⟩ := htiles.covers (show 4056 ≤ 4056 by omega) (by omega)
  obtain ⟨hstart, -, -⟩ := htiles.inside hb
  have hne : b ≠ ⟨4088, 4088⟩ := by
    rintro rfl
    simp only at hlo
    omega
  have hap := htiles.apart hb hlive hne
  -- so its list is that of a small size, and empty
  obtain ⟨⟨k, hk, hcount, -⟩, -⟩ := hacc.free b hb fun g hg => by
    obtain rfl := List.mem_singleton.mp hg
    exact hne.symm
  have hk511 : (k : ℕ) ≠ 511 := by
    unfold Apart Extent.stop at hap
    simp only at hap
    omega
  have hlist : Chain (load m) 0#32 (headers k) (lists k) := hacc.listed k
  rw [hlist.eq_nil_iff.mpr (hzero k hk511)] at hcount
  simp at hcount

end CompSys.A6.AllocRuns
