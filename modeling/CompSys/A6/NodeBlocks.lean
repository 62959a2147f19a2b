import CompSys.A6.AllocHeap

/-! # Blocks for nodes

The heap of a program that allocates nothing but nodes of 16 bytes: all blocks have 24 bytes, the taken ones are those
of the nodes in use (`Backs`), and no call of the allocator changes a word inside a node in use. A chunk is carved only
when every block is taken, so the heap ends at most 240 bytes behind the blocks of the most nodes there were. -/

namespace CompSys.A6.NodeBlocks

open CompSys.Lib CompSys.Lib.Extents CompSys.Lib.Links CompSys.Lib.Segregated CompSys.Lib.Words
open CompSys.A6.Alloc CompSys.A6.AllocHeap

/-- The size of a block for a node, and its class. -/
def nodeBlock : ℕ := 24
def nodeClass : Fin numSizes := ⟨3, by decide⟩

/-- A node lies behind the first word of its block. -/
def nodeAt (a : ℕ) : ℕ := a + 4

/-- The pointer to the node at `q`. -/
def addr (q : ℕ) : Word := BitVec.ofNat 32 q

/-- The word at `x` is one of the node at `q`. -/
def InNode (q : ℕ) (x : Word) : Prop := q ≤ x.toNat ∧ x.toNat + 4 ≤ q + 16

/-- **The heap holds the nodes** `live`. -/
structure Backs (start : ℕ) (h : Heap) (live : Finset ℕ) (p : Pool) : Prop where
  repr : Represents start (clearHeaders h) p
  ready : live ≠ ∅ → h.initialized = true
  sizes : ∀ b ∈ p.blocks, b.size = nodeBlock
  taken : (p.taken.map nodeAt).toFinset = live

variable {start fuel a q r : ℕ} {h : Heap} {live : Finset ℕ} {p : Pool} {x y : Word}

/-! ### Where nodes are -/

theorem nodeAt_injective : Function.Injective nodeAt := fun _ _ h => Nat.add_right_cancel h

/-- The block of a node in use. -/
theorem Backs.block (hb : Backs start h live p) (hq : q ∈ live) :
    ∃ a ∈ p.taken, q = nodeAt a ∧ ⟨a, nodeBlock⟩ ∈ p.blocks := by
  rw [← hb.taken, List.mem_toFinset] at hq
  obtain ⟨a, ha, rfl⟩ := List.mem_map.mp hq
  obtain ⟨b, hb', rfl⟩ := hb.repr.valid.mem_taken a ha
  refine ⟨_, ha, rfl, ?_⟩
  rw [← hb.sizes b hb']
  exact hb'

theorem Backs.mem_iff (hb : Backs start h live p) : nodeAt a ∈ live ↔ a ∈ p.taken := by
  rw [← hb.taken, List.mem_toFinset, List.mem_map_of_injective nodeAt_injective]

/-- A node in use lies in memory above the start of the heap. -/
theorem Backs.bounds (hb : Backs start h live p) (hq : q ∈ live) :
    start + 4 ≤ q ∧ q + 20 ≤ h.freeSpace.toNat ∧ q + 20 < 2 ^ 32 := by
  obtain ⟨a, -, rfl, hblock⟩ := hb.block hq
  obtain ⟨h1, h2, -⟩ := hb.repr.bounds hblock
  have hfree : (clearHeaders h).freeSpace = h.freeSpace := by
    unfold clearHeaders
    split_ifs <;> rfl
  have := h.freeSpace.isLt
  rw [hfree] at h2
  simp only [nodeBlock, nodeAt] at *
  omega

/-- **As many blocks are taken as there are nodes.** -/
theorem Backs.card (hb : Backs start h live p) : live.card = p.taken.length := by
  rw [← hb.taken, List.toFinset_card_of_nodup (hb.repr.valid.nodup_taken.map nodeAt_injective), List.length_map]

/-! ### Words of nodes -/

/-- A word in a node and the first word of a block are apart. -/
theorem apart_first (hr : Represents start h p) (ha : ⟨a, nodeBlock⟩ ∈ p.blocks) {b : Extent} (hb : b ∈ p.blocks)
    (hx : InNode (nodeAt a) x) : Apart (wordAt x) (wordAt (BitVec.ofNat 32 b.addr)) := by
  obtain ⟨-, -, hb8, -, -, hbNat⟩ := hr.bounds hb
  obtain ⟨hx1, hx2⟩ := hx
  simp only [nodeAt] at hx1 hx2
  by_cases hne : b = ⟨a, nodeBlock⟩
  · subst hne
    refine Or.inr ?_
    simp only [wordAt, Extent.stop, hbNat]
    omega
  · refine ((hr.valid.tiles.apart ha hb (Ne.symm hne))).mono ?_ ?_ ?_ ?_ <;>
      simp only [wordAt, Extent.stop, hbNat, nodeBlock] at * <;> omega

/-- What is written to memory outside the first words of the blocks leaves the pool as it is. -/
theorem represents_congr (hr : Represents start h p) {mem : Memory}
    (hmem : ∀ b ∈ p.blocks, load mem (BitVec.ofNat 32 b.addr) = load h.mem (BitVec.ofNat 32 b.addr)) :
    Represents start { h with mem := mem } p := by
  refine ⟨hr.ready, hr.valid, hr.sizes, fun k => ?_, fun b hb ht => by rw [hmem b hb]; exact hr.tag b hb ht⟩
  refine (hr.chain k).congr fun z hz => ?_
  obtain ⟨c, hc, rfl⟩ := List.mem_map.mp hz
  exact hmem ⟨c, _⟩ (hr.valid.mem_free _ c hc).1

/-- The heap of a program that has a node in use is set up. -/
theorem Backs.represents (hb : Backs start h live p) (hq : q ∈ live) : Represents start h p := by
  have hr := hb.repr
  rwa [clearHeaders_ready (hb.ready (Finset.ne_empty_of_mem hq))] at hr

/-- **A store to a word of a node.** -/
theorem Backs.stored (hb : Backs start h live p) (hq : q ∈ live) (hx : InNode q x) (v : Word) :
    Backs start { h with mem := store h.mem x v } live p := by
  have hr := hb.represents hq
  have hbound := hb.bounds hq
  obtain ⟨a, -, rfl, hblock⟩ := hb.block hq
  refine ⟨?_, hb.ready, hb.sizes, hb.taken⟩
  rw [clearHeaders_ready (h := { h with mem := store h.mem x v }) (hb.ready (Finset.ne_empty_of_mem hq))]
  refine represents_congr hr fun b hb' => ?_
  obtain ⟨-, -, -, -, hb32, hbNat⟩ := hr.bounds hb'
  have hap := (apart_first hr hblock hb' hx).symm
  obtain ⟨-, hx2⟩ := hx
  exact load_store_apart h.mem v (by omega) (by omega) hap

/-- It leaves the other nodes alone. -/
theorem Backs.load_other (hb : Backs start h live p) (hq : q ∈ live) (hr : r ∈ live) (hne : r ≠ q) (hx : InNode q x)
    (hy : InNode r y) (v : Word) : load (store h.mem x v) y = load h.mem y := by
  have hqb := hb.bounds hq
  have hrb := hb.bounds hr
  obtain ⟨a, -, rfl, ha⟩ := hb.block hq
  obtain ⟨c, -, rfl, hc⟩ := hb.block hr
  obtain ⟨hx1, hx2⟩ := hx
  obtain ⟨hy1, hy2⟩ := hy
  have hap := hb.repr.valid.tiles.apart hc ha fun he => hne (by rw [Extent.mk.inj he |>.1])
  refine load_store_apart h.mem v (by omega) (by omega) (hap.mono ?_ ?_ ?_ ?_) <;>
    simp only [wordAt, Extent.stop, nodeBlock, nodeAt] at * <;> omega

/-! ### The end of the heap -/

/-- **The blocks are a row** from the start of the heap on. -/
theorem Backs.blocks_eq (hb : Backs start h live p) :
    p.blocks = row start nodeBlock p.blocks.length ∧ h.freeSpace.toNat = start + p.blocks.length * nodeBlock := by
  have hrow := hb.repr.valid.tiles.eq_row hb.sizes
  rwa [show (clearHeaders h).freeSpace = h.freeSpace by unfold clearHeaders; split_ifs <;> rfl] at hrow

theorem Backs.nodup_addr (hb : Backs start h live p) : (p.blocks.map Extent.addr).Nodup := by
  rw [hb.blocks_eq.1, row, List.map_map]
  refine List.Nodup.map (fun i j hij => ?_) List.nodup_range
  simp only [Function.comp_apply, nodeBlock] at hij
  omega

/-- Without a free block all blocks are taken. -/
theorem Backs.length_le (hb : Backs start h live p) (hfree : p.free nodeBlock = []) :
    p.blocks.length ≤ live.card := by
  have hsub : p.blocks.map Extent.addr ⊆ p.taken := by
    intro a ha
    obtain ⟨b, hb', rfl⟩ := List.mem_map.mp ha
    rcases hb.repr.valid.accounted b hb' with ht | hf
    · exact ht
    · rw [hb.sizes b hb', hfree] at hf
      cases hf
  rw [hb.card, ← List.length_map (f := Extent.addr)]
  exact (hb.nodup_addr.subperm hsub).length_le

/-- Room for fewer nodes. -/
theorem room_mono {k n : ℕ} (h : start + nodeBlock * n < 2 ^ 32) (hk : k ≤ n) : start + nodeBlock * k < 2 ^ 32 :=
  lt_of_le_of_lt (Nat.add_le_add_left (Nat.mul_le_mul_left nodeBlock hk) start) h

/-! ### No node in use -/

/-- After `init_heap`. -/
theorem backs_initial (h : Heap) (heapStart : Word) : Backs heapStart.toNat (initHeap h heapStart) ∅ .empty := by
  refine ⟨⟨rfl, valid_empty _, ?_, fun k => chain_null _ _, ?_⟩, fun hne => absurd rfl hne, ?_, rfl⟩ <;>
    simp [Pool.empty]

/-- **Every block is on the free list**: the list has the blocks of a row that ends where the heap does. -/
def AllFree (start : ℕ) (h : Heap) : Prop :=
  ∃ n l, Chain (load (clearHeaders h).mem) 0#32 ((clearHeaders h).smallBlockHeaders nodeClass) (pointers l) ∧
    l.Perm ((row start nodeBlock n).map Extent.addr) ∧ h.freeSpace.toNat = start + n * nodeBlock

theorem Backs.allFree (hb : Backs start h ∅ p) : AllFree start h := by
  have hv := hb.repr.valid
  have htaken : p.taken = [] := List.map_eq_nil_iff.mp (List.toFinset_eq_empty_iff _ |>.mp hb.taken)
  obtain ⟨hblocks, hend⟩ := hb.blocks_eq
  refine ⟨p.blocks.length, p.free nodeBlock, hb.repr.chain nodeClass, ?_, hend⟩
  rw [← hblocks]
  refine (List.perm_ext_iff_of_nodup (hv.nodup_free _) hb.nodup_addr).mpr fun a => ⟨fun ha => ?_, fun ha => ?_⟩
  · exact List.mem_map.mpr ⟨_, (hv.mem_free _ a ha).1, rfl⟩
  · obtain ⟨b, hb', rfl⟩ := List.mem_map.mp ha
    rcases hv.accounted b hb' with ht | hf
    · rw [htaken] at ht
      cases ht
    · rwa [hb.sizes b hb'] at hf

/-! ### The allocator -/

theorem allocate_node (h : Heap) : allocate fuel h 16#32 =
    (refill fuel (clearHeaders h) nodeClass (BitVec.ofNat 32 nodeBlock)).map
      fun h' => unlink h' nodeClass (BitVec.ofNat 32 nodeBlock) :=
  allocate_eq (n := 16) (k := nodeClass) (by omega) (by omega) rfl

theorem grow_free_ne_nil (p : Pool) (top s n : ℕ) : (p.grow top s (n + 1)).free s ≠ [] := by
  simp only [Pool.grow, Function.update_self, row_cons, List.map_cons]
  exact List.cons_ne_nil _ _

/-- **A free block**, from a new chunk if there is none: what is below the end of the heap stays as it is. -/
theorem refill_node (hb : Backs start h live p) (hstart : 4088 ≤ start) (hfuel : 13 ≤ fuel)
    (hroom : start + nodeBlock * (live.card + 10) < 2 ^ 32) :
    ∃ h' p', refill fuel (clearHeaders h) nodeClass (BitVec.ofNat 32 nodeBlock) = some h' ∧
      Represents start h' p' ∧ p'.free nodeBlock ≠ [] ∧ p'.taken = p.taken ∧ p.blocks ⊆ p'.blocks ∧
      (∀ b ∈ p'.blocks, b.size = nodeBlock) ∧
      ∀ x : Word, x.toNat + 4 ≤ h.freeSpace.toNat → load h'.mem x = load h.mem x := by
  have hfree : (clearHeaders h).freeSpace = h.freeSpace := by unfold clearHeaders; split_ifs <;> rfl
  have hmem : (clearHeaders h).mem = h.mem := by unfold clearHeaders; split_ifs <;> rfl
  by_cases h0 : (clearHeaders h).smallBlockHeaders nodeClass = 0#32
  · have hempty : p.free nodeBlock = [] := (hb.repr.free_eq_nil_iff nodeClass).mpr h0
    have hlen := hb.length_le hempty
    have hend := hb.blocks_eq.2
    have hcount : blockCount nodeBlock = 10 := rfl
    have hle := hb.repr.valid.tiles.le
    have hroom' : (clearHeaders h).freeSpace.toNat + blockCount nodeBlock * nodeBlock < 2 ^ 32 := by
      rw [hfree, hcount, hend]
      have := Nat.mul_le_mul_left nodeBlock (Nat.add_le_add_right hlen 10)
      rw [Nat.mul_comm p.blocks.length, Nat.add_assoc, Nat.mul_comm 10, ← Nat.mul_add]
      omega
    rw [hfree] at hle
    have hrefill := refill_eq h0 (show 8 ≤ nodeBlock by decide) (show nodeBlock ≤ 4088 by decide)
      (by rw [hfree]; unfold nodeBlock; omega) hroom' hfuel
    have hgrown := hb.repr.refilled (n := blockCount nodeBlock) (by omega) (show 0 < (nodeClass : ℕ) by decide) h0
      hroom'
    refine ⟨_, _, hrefill, hgrown, ?_, rfl, fun b hb' => List.mem_append_left _ hb', ?_, fun x hx => ?_⟩
    · exact grow_free_ne_nil p _ nodeBlock 9
    · intro b hb'
      rcases List.mem_append.mp hb' with hb' | hb'
      · exact hb.sizes b hb'
      · obtain ⟨i, -, rfl⟩ := mem_row.mp hb'
        rfl
    · rw [← hmem]
      exact pushRow_frame (by decide) hroom'.le _ _ (by rw [hfree]; exact hx)
  · refine ⟨_, p, by rw [refill, if_neg h0], hb.repr, ?_, rfl, List.Subset.refl _, hb.sizes, fun x _ => by rw [hmem]⟩
    exact fun he => h0 ((hb.repr.free_eq_nil_iff nodeClass).mp he)

/-- The pointer that `allocate` returns. -/
theorem addr_nodeAt (a : ℕ) : addr (nodeAt a) = BitVec.ofNat 32 a + 4#32 := BitVec.ofNat_add a 4

/-- **`allocate`** gives a node that is not in use and leaves the nodes in use alone. -/
theorem Backs.allocate (hb : Backs start h live p) (hstart : 4088 ≤ start) (hfuel : 13 ≤ fuel)
    (hroom : start + nodeBlock * (live.card + 10) < 2 ^ 32) :
    ∃ q h' p', Alloc.allocate fuel h 16#32 = some (addr q, h') ∧ q ∉ live ∧ Backs start h' (insert q live) p' ∧
      ∀ r ∈ live, ∀ x, InNode r x → load h'.mem x = load h.mem x := by
  obtain ⟨h₁, p₁, href, hr₁, hne, htaken, hsub, hsizes, hframe⟩ := refill_node hb hstart hfuel hroom
  obtain ⟨a, l, hal⟩ := List.exists_cons_of_ne_nil hne
  obtain ⟨hp, hr₂⟩ := unlink_spec (k := nodeClass) hr₁ hal
  obtain ⟨hblock, hnot⟩ := hr₁.valid.mem_free nodeBlock a (by rw [hal]; exact List.mem_cons_self)
  refine ⟨nodeAt a, _, p₁.take nodeBlock a l, ?_, ?_, ⟨?_, fun _ => hr₂.ready, hsizes, ?_⟩, fun r hr x hx => ?_⟩
  · rw [allocate_node, href, Option.map_some, addr_nodeAt]
    exact congrArg some (Prod.ext hp rfl)
  · rwa [hb.mem_iff, ← htaken]
  · rw [clearHeaders_ready hr₂.ready]
    exact hr₂
  · show ((a :: p₁.taken).map nodeAt).toFinset = _
    rw [htaken, List.map_cons, List.toFinset_cons, hb.taken]
  · have hbound := hb.bounds hr
    obtain ⟨c, -, rfl, hcb⟩ := hb.block hr
    have hhead : h₁.smallBlockHeaders nodeClass = BitVec.ofNat 32 a := by
      have hchain := hr₁.chain nodeClass
      rw [show 8 * (nodeClass : ℕ) = nodeBlock from rfl, hal] at hchain
      exact hchain.head
    have hap := apart_first hr₁ (hsub hcb) hblock hx
    have ha := (hr₁.bounds hblock).2.2.2.2
    obtain ⟨hx1, hx2⟩ := hx
    rw [← hframe x (by omega)]
    show load (Words.store h₁.mem (h₁.smallBlockHeaders nodeClass) _) x = _
    rw [hhead]
    exact load_store_apart h₁.mem _ (by simp only at ha; omega) (by omega) hap

/-- **`release`** of a node in use leaves the others alone. -/
theorem Backs.release (hb : Backs start h live p) (hstart : 0 < start) (hq : q ∈ live) :
    ∃ h' p', Alloc.release h (addr q) = some h' ∧ Backs start h' (live.erase q) p' ∧
      ∀ r ∈ live, ∀ x, InNode r x → load h'.mem x = load h.mem x := by
  have hr := hb.represents hq
  obtain ⟨a, ha, rfl, hblock⟩ := hb.block hq
  obtain ⟨h', hrel, -, hr'⟩ := release_spec (k := nodeClass) hr (by decide) hstart ha hblock
  rw [← addr_nodeAt] at hrel
  refine ⟨h', p.giveBack nodeBlock a, hrel, ⟨?_, fun _ => hr'.ready, hb.sizes, ?_⟩, fun r hrl x hx => ?_⟩
  · rw [clearHeaders_ready hr'.ready]
    exact hr'
  · show ((p.taken.erase a).map nodeAt).toFinset = _
    ext r
    rw [List.map_erase nodeAt_injective, List.mem_toFinset, (hr.valid.nodup_taken.map nodeAt_injective).mem_erase_iff,
      Finset.mem_erase, ← hb.taken, List.mem_toFinset]
  · have hbound := hb.bounds hrl
    obtain ⟨c, -, rfl, hcb⟩ := hb.block hrl
    have hap := apart_first hr hcb hblock hx
    have haNat := (hr.bounds hblock).2.2.2.2
    obtain ⟨hx1, hx2⟩ := hx
    rw [addr_nodeAt] at hrel
    obtain ⟨k, rfl⟩ : ∃ k, h' = { h with
        mem := Words.store h.mem (BitVec.ofNat 32 a) (h.smallBlockHeaders k)
        smallBlockHeaders := Function.update h.smallBlockHeaders k (BitVec.ofNat 32 a) } := by
      simp only [Alloc.release, BitVec.add_sub_cancel, Option.bind_eq_bind, Option.bind_eq_some_iff,
        Option.some.injEq] at hrel
      obtain ⟨k, -, hk⟩ := hrel
      exact ⟨k, hk.symm⟩
    exact load_store_apart h.mem _ (by simp only at haNat; omega) (by omega) hap

end CompSys.A6.NodeBlocks
