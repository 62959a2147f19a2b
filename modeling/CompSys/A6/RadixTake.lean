import CompSys.A6.RadixHeap

/-! # `take_numbers` takes from the tree in memory

`take_numbers_2`, called on a slot that holds a tree, puts the first members of the tree in the buffer
and leaves `take` of the tree in the slot (`takeNumbers2_spec`); the induction is on the tree, and on
an interior node the second call continues where the first left the buffer and the node. -/

namespace CompSys.A6.RadixTake

open CompSys.Lib.OneHot CompSys.A6.Radix CompSys.A6.RadixTree CompSys.A6.RadixTree.Tree
open CompSys.A6.RadixHeap

/-! ### The numbers of a leaf -/

theorem and_not_one (v : Word) : v &&& ~~~1#32 = BitVec.ofNat 32 (2 * (v.toNat / 2)) := by
  have h : v &&& ~~~1#32 = (v >>> 1) <<< 1 := by
    refine BitVec.eq_of_getLsbD_eq fun i hi => ?_
    interval_cases i <;> simp
  rw [h]
  refine BitVec.eq_of_toNat_eq ?_
  simp only [BitVec.toNat_shiftLeft, BitVec.toNat_ushiftRight, BitVec.toNat_ofNat, Nat.shiftLeft_eq,
    Nat.shiftRight_eq_div_pow]
  omega

theorem or_one (v : Word) : v ||| 1#32 = BitVec.ofNat 32 (2 * (v.toNat / 2) + 1) := by
  have h : v ||| 1#32 = (v &&& ~~~1#32) + 1#32 := by
    rw [BitVec.add_eq_or_of_and_eq_zero]
    · refine BitVec.eq_of_getLsbD_eq fun i hi => ?_
      interval_cases i <;> simp
    · refine BitVec.eq_of_getLsbD_eq fun i hi => ?_
      interval_cases i <;> simp
  rw [h, and_not_one, ← BitVec.ofNat_add]

/-- **A loop over one counter** writes until the buffer is full or the counter is 0. -/
theorem drain_spec (x count : Word) (written : List Word) (room : ℕ) :
    ∃ count', drain x count written room = (count', ⟨written ++
      List.replicate (min room count.toNat) x, room - min room count.toNat⟩) ∧
      count'.toNat = count.toNat - min room count.toNat := by
  induction room generalizing count written with
  | zero => exact ⟨count, by simp [drain], by simp⟩
  | succ room ih =>
    by_cases hc : count = 0#32
    · subst hc
      exact ⟨0#32, by simp [drain], by simp⟩
    · have hpos : count.toNat ≠ 0 := fun h => hc (BitVec.toNat_inj.mp h)
      have hsub : (count - 1#32).toNat = count.toNat - 1 := by bv_omega
      obtain ⟨c', hd, hc'⟩ := ih (count - 1#32) (written ++ [x])
      rw [hsub] at hd hc'
      have hmin : min (room + 1) count.toNat = min room (count.toNat - 1) + 1 := by omega
      refine ⟨c', ?_, by omega⟩
      rw [drain, if_neg hc, hd, hmin, List.replicate_succ]
      simp

/-! ### The recursion -/

section Take
variable {P : Type} [DecidableEq P] {s : State P} {slot : Slot P} {p : P} {F : Finset P}

/-- **Taking from a leaf.** -/
theorem take_leaf {n c0 c1 fuel : ℕ} (h : Holds s slot (some p) (.leaf n c0 c1) F)
    (written : List Word) (room : ℕ) :
    ∃ s' x F', takeNumbers2 (fuel + 1) s slot ⟨written, room⟩ = some (s',
        ⟨written ++ ((leaf n c0 c1).take room).1.map (BitVec.ofNat 32),
          room - ((leaf n c0 c1).take room).1.length⟩) ∧
      Replaces s s' slot x F F' ∧ Repr s' x ((leaf n c0 c1).take room).2 F' := by
  have hrepr := h.repr
  cases hrepr with
  | @leaf p n k0 k1 hlive hnode =>
  obtain ⟨k0', hd0, hk0⟩ := drain_spec (n &&& ~~~1#32) k0 written room
  obtain ⟨k1', hd1, hk1⟩ := drain_spec (n ||| 1#32) k1
    (written ++ List.replicate (min room k0.toNat) (n &&& ~~~1#32)) (room - min room k0.toNat)
  obtain ⟨s1, hst, hrep1, hlive1, hnode1⟩ := store_spec h.read hlive ⟨1#32, n, .leaf k0' k1'⟩
  have hr1 := Repr.leaf hlive1 hnode1
  rw [hk0, hk1] at hr1
  have hbuf : (⟨written ++ List.replicate (min room k0.toNat) (n &&& ~~~1#32) ++
      List.replicate (min (room - min room k0.toNat) k1.toNat) (n ||| 1#32),
      room - min room k0.toNat - min (room - min room k0.toNat) k1.toNat⟩ : Buffer) =
      ⟨written ++ ((leaf n.toNat k0.toNat k1.toNat).take room).1.map (BitVec.ofNat 32),
        room - ((leaf n.toNat k0.toNat k1.toNat).take room).1.length⟩ := by
    simp only [Tree.take, List.map_append, List.map_replicate, List.length_append,
      List.length_replicate, and_not_one, or_one, List.append_assoc, Nat.sub_sub]
  have hz : (k0' = 0#32 ∧ k1' = 0#32) ↔ (k0.toNat - min room k0.toNat = 0 ∧
      k1.toNat - min (room - min room k0.toNat) k1.toNat = 0) := by
    rw [← hk0, ← hk1, ← BitVec.toNat_inj, ← BitVec.toNat_inj]
    rfl
  by_cases hempty : k0' = 0#32 ∧ k1' = 0#32
  · obtain ⟨s2, s3, hrel, hw, hrep2⟩ := remove_spec (hrep1.holds h hr1)
    refine ⟨s3, none, ∅, ?_, hrep1.trans hrep2, ?_⟩
    · rw [takeNumbers2, ← hbuf]
      simp only [h.read, load_eq hlive, hnode, hd0, hd1, hst, hrel, hw, Option.bind_eq_bind,
        Option.bind_some, if_true, if_pos hempty]
    · simp only [Tree.take, mkLeaf, if_pos (hz.mp hempty)]
      exact .empty
  · refine ⟨s1, some p, {p}, ?_, hrep1, ?_⟩
    · rw [takeNumbers2, ← hbuf]
      simp only [h.read, load_eq hlive, hnode, hd0, hd1, hst, Option.bind_eq_bind, Option.bind_some,
        if_true, if_neg hempty]
    · simp only [Tree.take, mkLeaf, if_neg fun h0 => hempty (hz.mpr h0)]
      exact hr1

/-- **Taking from the tree in a slot.** The recursion is no deeper than the bits below `b`. -/
theorem takeNumbers2_spec {t : Tree} {x : Option P} {b q fuel : ℕ} (h : Holds s slot x t F)
    (hwf : Wf b q t) (hb : b ≤ 31) (hfuel : b < fuel) (written : List Word) (room : ℕ) :
    ∃ s' x' F', takeNumbers2 fuel s slot ⟨written, room⟩ = some (s',
        ⟨written ++ (t.take room).1.map (BitVec.ofNat 32), room - (t.take room).1.length⟩) ∧
      Replaces s s' slot x' F F' ∧ Repr s' x' (t.take room).2 F' := by
  induction t generalizing s slot x F b q fuel written room with
  | empty =>
    obtain ⟨fuel, rfl⟩ : ∃ i, fuel = i + 1 := ⟨fuel - 1, by omega⟩
    have hrepr := h.repr
    cases hrepr
    refine ⟨s, none, ∅, ?_, ⟨by simp, fun q hq => by simp at hq, ?_, fun q _ _ => ?_⟩, .empty⟩
    · rw [takeNumbers2]
      simp [h.read, Tree.take]
    · cases slot with
      | tree => exact Option.some.inj h.read
      | child => rfl
    · exact (patch_read h.read q).symm
  | leaf n c0 c1 =>
    obtain ⟨fuel, rfl⟩ : ∃ i, fuel = i + 1 := ⟨fuel - 1, by omega⟩
    have hx : ∃ p, x = some p := by
      have hrepr := h.repr
      cases hrepr
      exact ⟨_, rfl⟩
    obtain ⟨p, rfl⟩ := hx
    exact take_leaf h written room
  | interior k n z o ihz iho =>
    obtain ⟨fuel, rfl⟩ : ∃ i, fuel = i + 1 := ⟨fuel - 1, by omega⟩
    obtain ⟨hk, hkb, -, hz, ho, -⟩ := hwf
    have hrepr := h.repr
    cases hrepr with
    | @interior p _ n x0 x1 _ _ F0 F1 hlive hnode h0 h1 hp hd =>
    have hnodes : Interior s p k n x0 x1 z o F0 F1 := ⟨hlive, hnode, h0, h1, hp, hd⟩
    obtain ⟨s1, y0, G0, htake1, hrep1, hr0⟩ := ihz hnodes.child_zero hz (by omega) (show k < fuel by omega)
      written room
    obtain ⟨hl1, hnodes1⟩ := hnodes.replace_zero h.read hrep1 hr0
    obtain ⟨s2, y1, G1, htake2, hrep2, hr1⟩ := iho hnodes1.child_one ho (by omega) (show k < fuel by omega)
      (written ++ (z.take room).1.map (BitVec.ofNat 32)) (room - (z.take room).1.length)
    obtain ⟨hl2, hnodes2⟩ := hnodes1.replace_one (hl1.read h) hrep2 hr1
    have hl := hl1.trans hl2
    have hr := hnodes2.repr
    have hread0 : s2.read (.child false p) = some y0 := by
      rw [State.read, load_eq hnodes2.live, hnodes2.node]
      rfl
    have hread1' : s2.read (.child true p) = some y1 := by
      rw [State.read, load_eq hnodes2.live, hnodes2.node]
      rfl
    have hbuf : (⟨written ++ (z.take room).1.map (BitVec.ofNat 32) ++
        (o.take (room - (z.take room).1.length)).1.map (BitVec.ofNat 32),
        room - (z.take room).1.length - (o.take (room - (z.take room).1.length)).1.length⟩ : Buffer) =
        ⟨written ++ ((interior k n.toNat z o).take room).1.map (BitVec.ofNat 32),
          room - ((interior k n.toNat z o).take room).1.length⟩ := by
      simp only [Tree.take, List.map_append, List.length_append, List.append_assoc, Nat.sub_sub]
    have hnone : (y0.isNone = true ∧ y1.isNone = true) ↔ (z.take room).2 = empty ∧
        (o.take (room - (z.take room).1.length)).2 = empty := by
      rw [Option.isNone_iff_eq_none, Option.isNone_iff_eq_none, hnodes2.zero.eq_none_iff, hnodes2.one.eq_none_iff]
    have hone : ¬ oneHot k = 1#32 := oneHot_ne_one hk (by omega)
    by_cases hempty : y0.isNone = true ∧ y1.isNone = true
    · have he := hnone.mp hempty
      have hG : insert p (G0 ∪ G1) = {p} := by
        have h0' := hnodes2.zero
        have h1' := hnodes2.one
        rw [he.1] at h0'
        rw [he.2] at h1'
        cases h0'
        cases h1'
        rfl
      rw [hG] at hr hl
      obtain ⟨s3, s4, hrel, hw, hrep3⟩ := remove_spec (hl.holds h hr)
      refine ⟨s4, none, ∅, ?_, hl.trans hrep3, ?_⟩
      · rw [takeNumbers2, ← hbuf]
        simp only [h.read, load_eq hlive, hnode, htake1, htake2, hread0, hread1', hrel, hw,
          Option.bind_eq_bind, Option.bind_some, if_neg hone, if_pos hempty]
      · simp only [Tree.take, he]
        exact .empty
    · refine ⟨s2, some p, insert p (G0 ∪ G1), ?_, hl, ?_⟩
      · rw [takeNumbers2, ← hbuf]
        simp only [h.read, load_eq hlive, hnode, htake1, htake2, hread0, hread1', Option.bind_eq_bind,
          Option.bind_some, if_neg hone, if_neg hempty]
      · simp only [Tree.take, mkInterior_ne k n.toNat fun he => hempty (hnone.mpr he)]
        exact hr

end Take

end CompSys.A6.RadixTake
