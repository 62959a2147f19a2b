import CompSys.A6.RadixHeap

/-! # `add_number` adds to the tree in memory

The masks of the source pick out the bits at which the number and a node differ (`diff_eq_zero_iff`,
`findBit_topBit`). With them the loop, started on a slot that holds a tree, leaves `insert` of that
tree in it (`addLoop_spec`); the induction is on the tree, and an iteration is one of three: a new
leaf, an injected node, or a step to the node found. -/

namespace CompSys.A6.RadixAdd

open CompSys.Lib.Prefix CompSys.Lib.OneHot CompSys.A6.Radix CompSys.A6.RadixTree
open CompSys.A6.RadixTree.Tree CompSys.A6.RadixHeap

/-! ### Bits -/

theorem getLsbD_higherBits {i k : ℕ} (hk : k < 31) (hi : i < 32) :
    (higherBits (oneHot k)).getLsbD i = decide (k < i) := by
  have h : ∀ k < 31, ∀ i < 32, (higherBits (oneHot k)).getLsbD i = decide (k < i) := by
    decide +kernel
  exact h k hk i hi

/-- The mask of the bits above `k` and not above `b`. -/
theorem getLsbD_bitRange {b i k : ℕ} (hb : b < 31) (hk : k < 31) (hi : i < 32) :
    (bitRange (oneHot b) (oneHot k)).getLsbD i = (decide (k < i) && !decide (b < i)) := by
  rw [bitRange, notHigherBits, BitVec.getLsbD_and, BitVec.getLsbD_not, getLsbD_higherBits hk hi,
    getLsbD_higherBits hb hi]
  simp [hi]

theorem getLsbD_diff {b i k : ℕ} (hb : b < 31) (hk : k < 31) (hi : i < 32) (v n : Word) :
    (bitRange (oneHot b) (oneHot k) &&& (v ^^^ n)).getLsbD i =
      ((decide (k < i) && !decide (b < i)) && (v.toNat.testBit i ^^ n.toNat.testBit i)) := by
  rw [BitVec.getLsbD_and, getLsbD_bitRange hb hk hi, BitVec.getLsbD_xor, BitVec.testBit_toNat,
    BitVec.testBit_toNat]

section Diff
variable {b k : ℕ} {v n : Word}

/-- **No difference** under the mask: the number belongs under the node. -/
theorem diff_eq_zero_iff (hkb : k < b) (hb : b < 31)
    (hpre : v.toNat / 2 ^ (b + 1) = n.toNat / 2 ^ (b + 1)) :
    bitRange (oneHot b) (oneHot k) &&& (v ^^^ n) = 0#32 ↔
      v.toNat / 2 ^ (k + 1) = n.toNat / 2 ^ (k + 1) := by
  rw [div_pow_eq_iff] at hpre ⊢
  constructor
  · intro h j hj
    by_cases hjb : j ≤ b
    · have hd := getLsbD_diff hb (show k < 31 by omega) (show j < 32 by omega) v n
      rw [h] at hd
      simpa [show k < j by omega, show ¬ b < j by omega] using hd
    · exact hpre j (by omega)
  · intro h
    refine BitVec.eq_of_getLsbD_eq fun i hi => ?_
    rw [getLsbD_diff hb (by omega) hi]
    by_cases hki : k < i
    · simp [h i (by omega)]
    · simp [hki]

/-- The search for the highest difference. -/
theorem findBit_eq {diff : Word} {j fuel : ℕ} (hb : b < 31) (hj : j ≤ b)
    (hd : diff.getLsbD j = true) (habove : ∀ i, j < i → i ≤ b → diff.getLsbD i = false)
    (hfuel : b - j < fuel) : findBit diff fuel (oneHot b) = some (oneHot j) := by
  obtain ⟨m, rfl⟩ := Nat.exists_eq_add_of_le hj
  induction m generalizing fuel with
  | zero =>
    obtain ⟨fuel, rfl⟩ : ∃ f, fuel = f + 1 := ⟨fuel - 1, by omega⟩
    have hne : ¬ oneHot (j + 0) &&& diff = 0#32 := by
      rw [oneHot_and_eq_zero (by omega), BitVec.testBit_toNat, Nat.add_zero, hd]
      decide
    rw [findBit, if_neg hne]
    rfl
  | succ m ih =>
    obtain ⟨fuel, rfl⟩ : ∃ f, fuel = f + 1 := ⟨fuel - 1, by omega⟩
    have hz : oneHot (j + (m + 1)) &&& diff = 0#32 := by
      rw [oneHot_and_eq_zero (by omega), BitVec.testBit_toNat]
      exact habove _ (by omega) (le_refl _)
    rw [findBit, if_pos hz, ← Nat.add_assoc, oneHot_succ_sshiftRight (by omega)]
    exact ih (by omega) (by omega) (fun i h1 h2 => habove i h1 (by omega)) (by omega)

/-- **The search ends at the highest bit at which the number and the node differ.** -/
theorem findBit_topBit (hb : b < 31) (hkb : k < b)
    (hpre : v.toNat / 2 ^ (b + 1) = n.toNat / 2 ^ (b + 1))
    (hne : v.toNat / 2 ^ (k + 1) ≠ n.toNat / 2 ^ (k + 1)) :
    findBit (bitRange (oneHot b) (oneHot k) &&& (v ^^^ n)) 32 (oneHot b) =
      some (oneHot (topBit v.toNat n.toNat)) := by
  have hvn : v.toNat ≠ n.toNat := fun h => hne (by rw [h])
  obtain ⟨habove, hbit⟩ := topBit_spec hvn
  have hlt := topBit_lt hvn hpre
  have hge := le_topBit hne
  rw [div_pow_eq_iff] at habove
  refine findBit_eq hb (by omega) ?_ (fun i h1 h2 => ?_) (by omega)
  · rw [getLsbD_diff hb (by omega) (by omega)]
    simpa [show k < topBit v.toNat n.toNat by omega,
      show ¬ b < topBit v.toNat n.toNat by omega] using hbit
  · rw [getLsbD_diff hb (by omega) (by omega), habove i (by omega)]
    simp

end Diff

theorem toNat_and_one (v : Word) : (v &&& 1#32).toNat = v.toNat % 2 := by
  rw [BitVec.toNat_and]; exact Nat.and_one_is_mod _

theorem and_one_eq_iff (v : Word) {c : ℕ} (hc : c < 2) :
    v &&& 1#32 = BitVec.ofNat 32 c ↔ v.toNat % 2 = c := by
  rw [← BitVec.toNat_inj, toNat_and_one, BitVec.toNat_ofNat,
    Nat.mod_eq_of_lt (show c < 2 ^ 32 by omega)]

theorem increment_eq {c : Word} (h : c.toNat + 1 < 2 ^ 31) :
    ∃ c', increment c = some c' ∧ c'.toNat = c.toNat + 1 := by
  have hc : c ≠ BitVec.intMax 32 := by
    rintro rfl
    revert h
    decide
  exact ⟨c + 1#32, if_neg hc, by rw [BitVec.toNat_add]; simp; omega⟩

/-! ### One iteration -/

section Body
variable {P : Type} [DecidableEq P] {s : State P} {slot : Slot P} {x : Option P} {p : P} {t : Tree}
variable {F : Finset P}

/-- A node in the subtree is not where the slot is. -/
theorem patch_of_outside (hout : ∀ p, owner slot = some p → p ∉ F) {q : P} (hq : q ∈ F)
    (n : Node P) : patch slot x q n = n := by
  cases slot with
  | tree => rfl
  | child b p =>
    have hne : q ≠ p := fun he => hout p rfl (he ▸ hq)
    simp only [patch, if_neg hne]

/-- A new node is put in the slot. -/
theorem place_spec (f : Fresh P) (h : s.read slot = some x) (n : Node P) :
    ∃ s1 s2, (s.allocate f).2.write slot (some (f.pick s.live)) = some s1 ∧
      s1.store (f.pick s.live) n = some s2 ∧ s2.live = insert (f.pick s.live) s.live ∧
      s2.tree = patchTree slot (some (f.pick s.live)) s.tree ∧ s2.node (f.pick s.live) = n ∧
      ∀ q ∈ s.live, s2.node q = patch slot (some (f.pick s.live)) q (s.node q) := by
  have hread : (s.allocate f).2.read slot = some x := by
    cases slot with
    | tree => exact h
    | child b p =>
      obtain ⟨hp, hg⟩ := read_child h
      have hp' : p ∈ (s.allocate f).2.live := Finset.mem_insert_of_mem hp
      simp only [State.read, load_eq hp', Option.bind_eq_bind, Option.bind_some]
      exact hg
  obtain ⟨s1, hw, hlive, htree, hnode⟩ := write_eq hread (some (f.pick s.live))
  have hmem : f.pick s.live ∈ s1.live := by rw [hlive]; exact Finset.mem_insert_self _ _
  refine ⟨s1, _, hw, if_pos hmem, hlive, htree, Function.update_self _ _ _, fun q hq => ?_⟩
  have hne : q ≠ f.pick s.live := fun he => f.fresh s.live (he ▸ hq)
  show Function.update s1.node _ _ q = _
  rw [Function.update_of_ne hne, hnode]
  rfl

/-- **A new leaf** for an empty subtree. -/
theorem createLeaf_spec (f : Fresh P) (number : Word) (h : s.read slot = some none) :
    ∃ s' q, createLeaf f number s slot = some (.done s') ∧ Replaces s s' slot (some q) ∅ {q} ∧
      Repr s' (some q) (newLeaf number.toNat) {q} := by
  obtain ⟨s1, s2, hw, hst, hlive, htree, hq, hnode⟩ := place_spec f h ⟨1#32, number,
    .leaf (ofCond (number &&& 1#32 == 0#32)) (ofCond (number &&& 1#32 == 1#32))⟩
  refine ⟨s2, f.pick s.live, ?_, ⟨?_, fun q hq hl => ?_, htree, fun q hl _ => hnode q hl⟩, ?_⟩
  · have hw' : (s.allocate f).2.write slot (some (s.allocate f).1) = some s1 := hw
    have hst' : s1.store (s.allocate f).1 _ = some s2 := hst
    simp only [createLeaf, hw', hst', Option.bind_eq_bind, Option.bind_some]
  · rw [hlive, Finset.sdiff_empty, Finset.union_comm]
    rfl
  · rw [Finset.mem_singleton.mp hq] at hl
    exact absurd hl (f.fresh s.live)
  · have hmem : f.pick s.live ∈ s2.live := by rw [hlive]; exact Finset.mem_insert_self _ _
    have hr := Repr.leaf hmem hq
    have h0 : (ofCond (number &&& 1#32 == 0#32)).toNat = if number.toNat % 2 = 0 then 1 else 0 := by
      have hi := and_one_eq_iff number (c := 0) (by omega)
      by_cases hc : number.toNat % 2 = 0
      · rw [if_pos hc, ofCond, if_pos (by simpa using hi.mpr hc)]; rfl
      · rw [if_neg hc, ofCond, if_neg (by simpa using fun he => hc (hi.mp he))]; rfl
    have h1 : (ofCond (number &&& 1#32 == 1#32)).toNat = if number.toNat % 2 = 1 then 1 else 0 := by
      have hi := and_one_eq_iff number (c := 1) (by omega)
      by_cases hc : number.toNat % 2 = 1
      · rw [if_pos hc, ofCond, if_pos (by simpa using hi.mpr hc)]; rfl
      · rw [if_neg hc, ofCond, if_neg (by simpa using fun he => hc (hi.mp he))]; rfl
    rw [h0, h1] at hr
    exact hr

/-- An interior node is followed to the side of its bit. -/
theorem useNode_interior (number : Word) {k : ℕ} (hk : 1 ≤ k) (hk' : k < 31) (n : Node P) :
    useNode number s (oneHot k) slot p n = some (.next s (oneHot k) (.child (number.toNat.testBit k) p)) := by
  have hslt : (1#32 : Word).slt (oneHot k) = true :=
    (oneHot_slt (show 0 < 31 by omega) hk').trans (decide_eq_true hk)
  have hand := oneHot_and_eq_zero (show k < 32 by omega) number
  rw [useNode, if_pos hslt]
  cases hbit : number.toNat.testBit k with
  | true => rw [if_pos (by rw [ne_eq, hand, hbit]; decide)]
  | false => rw [if_neg (by rw [ne_eq, not_not, hand, hbit])]

/-- **A number counted at the leaf.** -/
theorem useNode_leaf (number : Word) {n c0 c1 : ℕ} (h : Holds s slot (some p) (.leaf n c0 c1) F)
    (hn : number.toNat / 2 = n / 2)
    (hc : (leaf n c0 c1).toList.count number.toNat + 1 < 2 ^ 31) :
    ∃ s', useNode number s 1#32 slot p (s.node p) = some (.next s' 1#32 slot) ∧
      Replaces s s' slot (some p) F F ∧ Repr s' (some p) (insert number.toNat (.leaf n c0 c1)) F := by
  obtain ⟨hread, hrepr, hout⟩ := h
  cases hrepr with
  | @leaf p n k0 k1 hlive hnode =>
  have hslt : (1#32 : Word).slt 1#32 = false := by decide
  by_cases hodd : number.toNat % 2 = 1
  · have hv : number.toNat = 2 * (n.toNat / 2) + 1 := by omega
    have hk : k1.toNat + 1 < 2 ^ 31 := by
      have hle : k1.toNat ≤ (leaf n.toNat k0.toNat k1.toNat).toList.count number.toNat := by
        simp [toList, ← hv, List.count_replicate]
      omega
    obtain ⟨k1', hk1, hk1'⟩ := increment_eq hk
    have hand : number &&& 1#32 ≠ 0#32 := fun h0 => by
      have := (and_one_eq_iff number (c := 0) (by omega)).mp h0
      omega
    obtain ⟨s', hst, hrep, hlive', hnode'⟩ := store_spec hread hlive ⟨1#32, n, .leaf k0 k1'⟩
    refine ⟨s', ?_, hrep, ?_⟩
    · rw [useNode, hslt, hnode]
      simp [hand, hk1, hst]
    · have hr := Repr.leaf hlive' hnode'
      rw [hk1'] at hr
      rw [Tree.insert, if_pos hn, if_pos hodd]
      exact hr
  · have hv : number.toNat = 2 * (n.toNat / 2) := by omega
    have hk : k0.toNat + 1 < 2 ^ 31 := by
      have hle : k0.toNat ≤ (leaf n.toNat k0.toNat k1.toNat).toList.count number.toNat := by
        simp [toList, ← hv, List.count_replicate]
      omega
    obtain ⟨k0', hk0, hk0'⟩ := increment_eq hk
    have hand : ¬ number &&& 1#32 ≠ 0#32 := not_not.mpr
      ((and_one_eq_iff number (c := 0) (by omega)).mpr (by omega))
    obtain ⟨s', hst, hrep, hlive', hnode'⟩ := store_spec hread hlive ⟨1#32, n, .leaf k0' k1⟩
    refine ⟨s', ?_, hrep, ?_⟩
    · rw [useNode, hslt, hnode]
      simp [not_not.mp hand, hk0, hst]
    · have hr := Repr.leaf hlive' hnode'
      rw [hk0'] at hr
      rw [Tree.insert, if_pos hn, if_neg hodd]
      exact hr

/-- **A node injected** above the subtree `t` of the node `p`: the new node `q` branches at bit `j`, and
on the side of the number it has no subtree yet. -/
theorem injectNode_spec (f : Fresh P) (number : Word) {bitPos diff : Word} {j : ℕ} (hj : j < 32)
    (h : Holds s slot (some p) t F) (hfind : findBit diff 32 bitPos = some (oneHot j)) :
    ∃ s' q, q ∉ F ∧
      injectNode f number s bitPos slot p diff =
        some (.next s' (oneHot j) (.child (number.toNat.testBit j) q)) ∧
      Replaces s s' slot (some q) F (insert q F) ∧ Repr s' (some p) t F ∧ q ∈ s'.live ∧
      s'.node q = ⟨oneHot j, number, if number.toNat.testBit j then .interior (some p) none
        else .interior none (some p)⟩ := by
  obtain ⟨s1, s2, hw, hst, hlive, htree, hq, hnode⟩ := place_spec f h.read ⟨oneHot j, number,
    if number.toNat.testBit j then .interior (some p) none else .interior none (some p)⟩
  have hsub := h.repr.subset
  have hfresh : f.pick s.live ∉ F := fun hF => f.fresh s.live (hsub hF)
  refine ⟨s2, f.pick s.live, hfresh, ?_, ⟨?_, fun q hq hl => ?_, htree, fun q hl _ => hnode q hl⟩, ?_,
    ?_, hq⟩
  · have hw' : (s.allocate f).2.write slot (some (s.allocate f).1) = some s1 := hw
    have hand : number &&& oneHot j = 0#32 ↔ number.toNat.testBit j = false := by
      rw [BitVec.and_comm, oneHot_and_eq_zero hj]
    simp only [injectNode, hfind, hw', Option.bind_eq_bind, Option.bind_some]
    cases hb : number.toNat.testBit j with
    | true =>
      rw [hb, if_pos rfl] at hst
      have hst' : s1.store (s.allocate f).1 _ = some s2 := hst
      rw [if_neg (by rw [hand, hb]; decide), hst']
      rfl
    | false =>
      rw [hb, if_neg (by decide)] at hst
      have hst' : s1.store (s.allocate f).1 _ = some s2 := hst
      rw [if_pos (hand.mpr hb), hst']
      rfl
  · rw [hlive, Finset.union_insert, Finset.sdiff_union_of_subset hsub]
  · rcases Finset.mem_insert.mp hq with rfl | hq
    · exact absurd hl (f.fresh s.live)
    · exact hq
  · refine h.repr.congr fun q hqF => ⟨?_, ?_⟩
    · rw [hlive]; exact Finset.mem_insert_of_mem (hsub hqF)
    · rw [hnode q (hsub hqF), patch_of_outside h.outside hqF]
  · rw [hlive]; exact Finset.mem_insert_self _ _

/-- The slot holds a node to which the number belongs: it is used. -/
theorem addBody_use (f : Fresh P) (number : Word) {b k : ℕ} (h : Holds s slot (some p) t F)
    (hp : p ∈ s.live) (hk : (s.node p).bitPos = oneHot k) (hkb : k ≤ b) (hb : b < 31)
    (heq : number.toNat / 2 ^ (k + 1) = (s.node p).number.toNat / 2 ^ (k + 1)) :
    addBody f number s (oneHot b) slot = useNode number s (oneHot k) slot p (s.node p) := by
  simp only [addBody, h.read, Option.bind_eq_bind, Option.bind_some, load_eq hp, hk,
    oneHot_slt (show k < 31 by omega) hb]
  rcases Nat.lt_or_eq_of_le hkb with hlt | rfl
  · have hd := (diff_eq_zero_iff hlt hb (div_pow_congr (by omega) heq)).mpr heq
    simp only [hlt, decide_true, if_true, hd, ne_eq, not_true_eq_false, if_false]
  · simp

/-- The slot holds a node to which the number does not belong: another is injected. -/
theorem addBody_inject (f : Fresh P) (number : Word) {b k : ℕ} (h : Holds s slot (some p) t F)
    (hp : p ∈ s.live) (hk : (s.node p).bitPos = oneHot k) (hkb : k ≤ b) (hb : b < 31)
    (hpre : number.toNat / 2 ^ (b + 1) = (s.node p).number.toNat / 2 ^ (b + 1))
    (hne : number.toNat / 2 ^ (k + 1) ≠ (s.node p).number.toNat / 2 ^ (k + 1)) :
    ∃ diff, addBody f number s (oneHot b) slot = injectNode f number s (oneHot b) slot p diff ∧
      findBit diff 32 (oneHot b) = some (oneHot (topBit number.toNat (s.node p).number.toNat)) := by
  have hlt : k < b := by
    rcases Nat.lt_or_eq_of_le hkb with hlt | rfl
    · exact hlt
    · exact absurd hpre hne
  have hd : ¬ _ = 0#32 := fun h0 => hne ((diff_eq_zero_iff hlt hb hpre).mp h0)
  refine ⟨_, ?_, findBit_topBit hb hlt hpre hne⟩
  simp only [addBody, h.read, Option.bind_eq_bind, Option.bind_some, load_eq hp, hk,
    oneHot_slt (show k < 31 by omega) hb, hlt, decide_true, if_true, ne_eq, hd, not_false_eq_true]

end Body

/-! ### The loop -/

section Loop
variable {P : Type} [DecidableEq P] {s s' : State P} {slot slot' : Slot P} {p : P} {t : Tree}
variable {F : Finset P} {f : Fresh P} {number : Word}

theorem addLoop_done {b fuel : ℕ} (hb : b < 31)
    (h : addBody f number s (oneHot b) slot = some (.done s')) :
    addLoop f number (fuel + 1) s (oneHot b) slot = some s' := by
  have hs : (oneHot b).slt 1#32 = false := oneHot_slt hb (show 0 < 31 by omega)
  simp [addLoop, hs, h]

theorem addLoop_next {b fuel : ℕ} {bitPos : Word} (hb : b < 31)
    (h : addBody f number s (oneHot b) slot = some (.next s' bitPos slot')) :
    addLoop f number (fuel + 1) s (oneHot b) slot =
      addLoop f number fuel s' (bitPos.sshiftRight 1) slot' := by
  have hs : (oneHot b).slt 1#32 = false := oneHot_slt hb (show 0 < 31 by omega)
  simp [addLoop, hs, h]

/-- **The loop goes down** from an interior node to which the number belongs, to the side of its bit. -/
theorem addLoop_down (f : Fresh P) (number : Word) {b k fuel : ℕ} (h : Holds s slot (some p) t F)
    (hp : p ∈ s.live) (hk : (s.node p).bitPos = oneHot (k + 1)) (hkb : k + 1 ≤ b) (hb : b < 31)
    (heq : number.toNat / 2 ^ (k + 1 + 1) = (s.node p).number.toNat / 2 ^ (k + 1 + 1)) :
    addLoop f number (fuel + 1) s (oneHot b) slot =
      addLoop f number fuel s (oneHot k) (.child (number.toNat.testBit (k + 1)) p) := by
  have hbody := addBody_use f number h hp hk hkb hb heq
  rw [useNode_interior number (by omega) (by omega)] at hbody
  rw [addLoop_next hb hbody, oneHot_succ_sshiftRight (by omega)]

/-- After an iteration at bit 0 the loop ends. -/
theorem addLoop_end (fuel : ℕ) :
    addLoop f number (fuel + 1) s ((1#32 : Word).sshiftRight 1) slot = some s := by
  have hs : ((1#32 : Word).sshiftRight 1).slt 1#32 = true := by decide
  rw [addLoop, if_pos hs]

/-- The loop on an empty subtree. -/
theorem addLoop_empty (f : Fresh P) (number : Word) (fuel : ℕ) {b : ℕ} (hb : b < 31)
    (h : s.read slot = some none) :
    ∃ s' q, addLoop f number (fuel + 1) s (oneHot b) slot = some s' ∧
      Replaces s s' slot (some q) ∅ {q} ∧ Repr s' (some q) (newLeaf number.toNat) {q} := by
  obtain ⟨s', q, hc, hrep, hr⟩ := createLeaf_spec f number h
  refine ⟨s', q, addLoop_done hb ?_, hrep, hr⟩
  simp only [addBody, h, Option.bind_eq_bind, Option.bind_some, hc]

/-- The loop when a node is injected: the next iteration creates the leaf. -/
theorem addLoop_inject {b fuel n : ℕ} {diff : Word} (hb : b < 31) (h : Holds s slot (some p) t F)
    (hbody : addBody f number s (oneHot b) slot = injectNode f number s (oneHot b) slot p diff)
    (hfind : findBit diff 32 (oneHot b) = some (oneHot (topBit number.toNat n)))
    (hj : 1 ≤ topBit number.toNat n) (hj' : topBit number.toNat n < 31) :
    ∃ s' x F', addLoop f number (fuel + 2) s (oneHot b) slot = some s' ∧
      Replaces s s' slot x F F' ∧ Repr s' x (inject number.toNat n t) F' := by
  unfold inject
  generalize topBit number.toNat n = j at *
  obtain ⟨j, rfl⟩ : ∃ i, j = i + 1 := ⟨j - 1, by omega⟩
  obtain ⟨s1, q, hqF, hinj, hrep1, hr1, hq1, hnode1⟩ := injectNode_spec f number (by omega) h hfind
  have hread1 : s1.read (.child (number.toNat.testBit (j + 1)) q) = some none := by
    simp only [State.read, load_eq hq1, hnode1, Option.bind_eq_bind, Option.bind_some]
    cases number.toNat.testBit (j + 1) <;> rfl
  obtain ⟨s2, r, hloop, hrep2, hr2⟩ :=
    addLoop_empty f number fuel (show j < 31 by omega) hread1
  obtain ⟨hrep, hq2, hd, hF, hql, hnode2⟩ := hrep2.lift (hrep1.read h) hq1 hr1.subset
    (by simpa using hqF) (Finset.disjoint_empty_left F)
  have ht2 : Repr s2 (some p) t F := hr1.congr hF
  refine ⟨s2, some q, insert q ({r} ∪ F), ?_, ?_, ?_⟩
  · rw [addLoop_next hb (hbody.trans hinj), oneHot_succ_sshiftRight (by omega)]
    exact hloop
  · rw [Finset.empty_union] at hrep
    exact hrep1.trans hrep
  · rw [hnode1] at hnode2
    cases hbit : number.toNat.testBit (j + 1) with
    | true =>
      rw [hbit] at hnode2
      rw [if_pos rfl, Finset.union_comm]
      exact .interior hql hnode2 ht2 hr2 (by rwa [Finset.union_comm]) hd.symm
    | false =>
      rw [hbit] at hnode2
      rw [if_neg (by decide)]
      exact .interior hql hnode2 hr2 ht2 hq2 hd

/-- **The loop adds the number to the tree in the slot.** `2 ^ b` is `bit_pos`; the number and the
subtree agree above it. -/
theorem addLoop_spec (f : Fresh P) (number : Word) {t : Tree} {slot : Slot P} {x : Option P}
    {b fuel : ℕ} (h : Holds s slot x t F) (hwf : Wf (b + 1) (number.toNat / 2 ^ (b + 1)) t)
    (hb : b < 31) (hfuel : b + 2 ≤ fuel) (hc : t.toList.count number.toNat + 1 < 2 ^ 31) :
    ∃ s' x' F', addLoop f number fuel s (oneHot b) slot = some s' ∧ Replaces s s' slot x' F F' ∧
      Repr s' x' (insert number.toNat t) F' := by
  induction t generalizing s slot x F b fuel with
  | empty =>
    obtain ⟨fuel, rfl⟩ : ∃ i, fuel = i + 1 := ⟨fuel - 1, by omega⟩
    have hrepr := h.repr
    cases hrepr
    obtain ⟨s', q, hl, hrep, hr⟩ := addLoop_empty f number fuel hb h.read
    exact ⟨s', some q, {q}, hl, hrep, hr⟩
  | leaf n c0 c1 =>
    obtain ⟨fuel, rfl⟩ : ∃ i, fuel = i + 2 := ⟨fuel - 2, by omega⟩
    obtain ⟨-, hn, -⟩ := hwf
    have hrepr := h.repr
    cases hrepr with
    | @leaf p n k0 k1 hlive hnode =>
    have hpos : (s.node p).bitPos = oneHot 0 := by rw [hnode]; rfl
    have hnum : (s.node p).number = n := by rw [hnode]
    by_cases heq : number.toNat / 2 = n.toNat / 2
    · have hbody := addBody_use f number (k := 0) h hlive hpos (by omega) hb
        (by rw [hnum]; simpa using heq)
      obtain ⟨s', huse, hrep, hr⟩ := useNode_leaf number h heq hc
      exact ⟨s', some p, {p}, (addLoop_next hb (hbody.trans huse)).trans (addLoop_end _), hrep, hr⟩
    · have hne : number.toNat / 2 ^ (0 + 1) ≠ n.toNat / 2 ^ (0 + 1) := by simpa using heq
      obtain ⟨diff, hbody, hfind⟩ := addBody_inject f number (k := 0) h hlive hpos (by omega) hb
        (by rw [hnum]; exact hn.symm) (by rw [hnum]; exact hne)
      rw [hnum] at hfind
      have hvn : number.toNat ≠ n.toNat := fun he => heq (by rw [he])
      have hlt := topBit_lt hvn hn.symm
      rw [Tree.insert, if_neg heq]
      exact addLoop_inject hb h hbody hfind (le_topBit hne) (by omega)
  | interior k n z o ihz iho =>
    obtain ⟨hk, hkb, hn, hz, ho, -⟩ := hwf
    have hrepr := h.repr
    cases hrepr with
    | @interior p _ n x0 x1 _ _ F0 F1 hlive hnode h0 h1 hp hd =>
    have hpos : (s.node p).bitPos = oneHot k := by rw [hnode]
    have hnum : (s.node p).number = n := by rw [hnode]
    by_cases heq : number.toNat / 2 ^ (k + 1) = n.toNat / 2 ^ (k + 1)
    · obtain ⟨fuel, rfl⟩ : ∃ i, fuel = i + 1 := ⟨fuel - 1, by omega⟩
      obtain ⟨k, rfl⟩ : ∃ i, k = i + 1 := ⟨k - 1, by omega⟩
      have hpre := div_pow_eq number.toNat (k + 1)
      rw [heq] at hpre
      rw [addLoop_down f number h hlive hpos (by omega) hb (by rw [hnum]; exact heq), Tree.insert, if_pos heq]
      simp only [toList, List.count_append] at hc
      have hnodes : Interior s p (k + 1) n x0 x1 z o F0 F1 := ⟨hlive, hnode, h0, h1, hp, hd⟩
      cases hbit : number.toNat.testBit (k + 1) with
      | true =>
        rw [hbit] at hpre
        obtain ⟨s', x', F', hl, hrep, hr⟩ := iho hnodes.child_one (by rw [hpre]; exact ho) (by omega)
          (show k + 2 ≤ fuel by omega) (by omega)
        obtain ⟨hrep', hnodes'⟩ := hnodes.replace_one h.read hrep hr
        exact ⟨s', some p, insert p (F0 ∪ F'), hl, hrep', hnodes'.repr⟩
      | false =>
        rw [hbit] at hpre
        obtain ⟨s', x', F', hl, hrep, hr⟩ := ihz hnodes.child_zero (by rw [hpre]; exact hz) (by omega)
          (show k + 2 ≤ fuel by omega) (by omega)
        obtain ⟨hrep', hnodes'⟩ := hnodes.replace_zero h.read hrep hr
        exact ⟨s', some p, insert p (F' ∪ F1), hl, hrep', hnodes'.repr⟩
    · obtain ⟨fuel, rfl⟩ : ∃ i, fuel = i + 2 := ⟨fuel - 2, by omega⟩
      obtain ⟨diff, hbody, hfind⟩ := addBody_inject f number h hlive hpos (by omega) hb
        (by rw [hnum]; exact hn.symm) (by rw [hnum]; exact heq)
      rw [hnum] at hfind
      have hvn : number.toNat ≠ n.toNat := fun he => heq (by rw [he])
      have hlt := topBit_lt hvn hn.symm
      have hge := le_topBit heq
      rw [Tree.insert, if_neg heq]
      exact addLoop_inject hb h hbody hfind (by omega) (by omega)

end Loop

end CompSys.A6.RadixAdd
