import CompSys.A6.Radix

/-! # Numbers without bit 31

The tree branches on the bits below bit 31, so what is done to a memory does not depend on bit 31 of a number: without
that bit in the number and in the nodes, `add_number` (`addNumber_low`), `take_numbers` (`takeNumbers_low`) and
`release_tree` (`releaseTree_low`) do the same to the same nodes. -/

namespace CompSys.A6.RadixLow

open CompSys.Lib.OneHot CompSys.A6.Radix

variable {P : Type} [DecidableEq P]

/-- The number without bit 31. -/
def low (v : Word) : Word := v &&& 0x7fffffff#32

def lowNode (n : Node P) : Node P := { n with number := low n.number }

/-- The memory with such numbers. -/
def lowState (s : State P) : State P := { s with node := fun p => lowNode (s.node p) }

def lowIteration : Iteration P → Iteration P
  | .done s => .done (lowState s)
  | .next s bitPos parent => .next (lowState s) bitPos parent

/-! ### Bits -/

theorem getLsbD_low (v : Word) {i : ℕ} (hi : i < 31) : (low v).getLsbD i = v.getLsbD i := by
  have hmask : ∀ i < 31, (0x7fffffff#32).getLsbD i = true := by decide
  rw [low, BitVec.getLsbD_and, hmask i hi, Bool.and_true]

theorem toNat_low (v : Word) : (low v).toNat < 2 ^ 31 := by
  rw [low, BitVec.toNat_and]
  exact Nat.and_lt_two_pow (n := 31) _ (by decide)

/-- A mask without bit 31 does not see it. -/
theorem low_and (v : Word) {mask : Word} (hmask : mask.toNat < 2 ^ 31) : low v &&& mask = v &&& mask := by
  refine BitVec.eq_of_getLsbD_eq fun i hi => ?_
  rw [BitVec.getLsbD_and, BitVec.getLsbD_and]
  rcases Nat.lt_or_ge i 31 with h31 | h31
  · rw [getLsbD_low v h31]
  · have hbit : mask.getLsbD i = false := by
      rw [← BitVec.testBit_toNat]
      exact Nat.testBit_lt_two_pow (hmask.trans_le (Nat.pow_le_pow_right (by omega) h31))
    rw [hbit, Bool.and_false, Bool.and_false]

theorem low_xor (v w : Word) : low v ^^^ low w = low (v ^^^ w) := by
  refine BitVec.eq_of_getLsbD_eq fun i hi => ?_
  rw [low, low, low]
  simp only [BitVec.getLsbD_xor, BitVec.getLsbD_and]
  cases v.getLsbD i <;> cases w.getLsbD i <;> cases (0x7fffffff#32).getLsbD i <;> rfl

theorem low_and_not_one (v : Word) : low v &&& ~~~1#32 = low (v &&& ~~~1#32) := by
  rw [low, low, BitVec.and_assoc, BitVec.and_assoc, BitVec.and_comm (~~~1#32)]

theorem low_or_one (v : Word) : low v ||| 1#32 = low (v ||| 1#32) := by
  refine BitVec.eq_of_getLsbD_eq fun i hi => ?_
  rw [low, low]
  interval_cases i <;> simp

/-- The bits of the mask are not above `bit_pos`. -/
theorem toNat_bitRange {bitPos : Word} (hpos : 0 < bitPos.toNat) (hb : bitPos.toNat ≤ 2 ^ 30) (v : Word) :
    (bitRange bitPos v).toNat < 2 ^ 31 := by
  have hnot : (notHigherBits bitPos).toNat < 2 ^ 31 := by
    rw [notHigherBits, higherBits, BitVec.toNat_not]
    bv_omega
  rw [bitRange, BitVec.toNat_and]
  exact Nat.lt_of_le_of_lt Nat.and_le_right hnot

theorem findBit_lt {diff : Word} : ∀ {fuel : ℕ} {bitPos b : Word}, bitPos.toNat < 2 ^ 31 →
    findBit diff fuel bitPos = some b → b.toNat < 2 ^ 31
  | 0, _, _, _, h => nomatch h
  | fuel + 1, bitPos, b, hlt, h => by
    rw [findBit] at h
    split_ifs at h with hand
    · refine findBit_lt ?_ h
      have hmsb : bitPos.msb = false := by
        rw [BitVec.msb_eq_false_iff_two_mul_lt]
        omega
      rw [BitVec.sshiftRight_eq_of_msb_false hmsb, BitVec.toNat_ushiftRight]
      exact lt_of_le_of_lt (Nat.shiftRight_le _ _) hlt
    · obtain rfl := Option.some.inj h
      exact hlt

/-! ### Memory -/

theorem load_low (s : State P) (p : P) : (lowState s).load p = (s.load p).map lowNode := by
  unfold State.load
  by_cases hp : p ∈ s.live
  · rw [if_pos hp, if_pos (show p ∈ (lowState s).live from hp)]
    rfl
  · rw [if_neg hp, if_neg (show p ∉ (lowState s).live from hp)]
    rfl

theorem store_low (s : State P) (p : P) (n : Node P) :
    (lowState s).store p (lowNode n) = (s.store p n).map lowState := by
  unfold State.store
  by_cases hp : p ∈ s.live
  · rw [if_pos hp, if_pos (show p ∈ (lowState s).live from hp), Option.map_some]
    congr 2
    funext q
    by_cases hq : q = p
    · simp [hq, lowState]
    · simp [hq, lowState]
  · rw [if_neg hp, if_neg (show p ∉ (lowState s).live from hp)]
    rfl

theorem release_low (s : State P) (p : P) : (lowState s).release p = (s.release p).map lowState := by
  unfold State.release
  by_cases hp : p ∈ s.live
  · rw [if_pos hp, if_pos (show p ∈ (lowState s).live from hp)]
    rfl
  · rw [if_neg hp, if_neg (show p ∉ (lowState s).live from hp)]
    rfl

theorem read_low (s : State P) (slot : Slot P) : (lowState s).read slot = s.read slot := by
  cases slot with
  | tree => rfl
  | child b p =>
    simp only [State.read, load_low, Option.bind_eq_bind, Option.bind_map]
    rfl

theorem write_low (s : State P) (slot : Slot P) (x : Option P) :
    (lowState s).write slot x = (s.write slot x).map lowState := by
  cases slot with
  | tree => rfl
  | child b p =>
    simp only [State.write, load_low, Option.bind_eq_bind]
    rcases s.load p with _ | n
    · rfl
    · have hrest : (lowNode n).rest = n.rest := rfl
      simp only [Option.map_some, Option.bind_some, hrest]
      rcases n.rest.get b with _ | y
      · rfl
      · exact store_low s p { n with rest := n.rest.set b x }

/-! ### `add_number` -/

variable {f : Fresh P} {number : Word}

theorem allocate_low (s : State P) (f : Fresh P) :
    (lowState s).allocate f = ((s.allocate f).1, lowState (s.allocate f).2) := rfl

theorem createLeaf_low (s : State P) (slot : Slot P) :
    createLeaf f (low number) (lowState s) slot = (createLeaf f number s slot).map lowIteration := by
  have hone : low number &&& 1#32 = number &&& 1#32 := low_and number (by decide)
  simp only [createLeaf, allocate_low, write_low, hone, Option.bind_eq_bind]
  rcases (s.allocate f).2.write slot (some (s.allocate f).1) with _ | s1
  · rfl
  · simp only [Option.map_some, Option.bind_some]
    rw [show (⟨1#32, low number, _⟩ : Node P) = lowNode ⟨1#32, number, _⟩ from rfl, store_low]
    rcases s1.store (s.allocate f).1 _ with _ | s2
    · rfl
    · rfl

theorem injectNode_low (s : State P) {bitPos : Word} (hb : bitPos.toNat < 2 ^ 31) (slot : Slot P) (p : P)
    (diff : Word) :
    injectNode f (low number) (lowState s) bitPos slot p diff =
      (injectNode f number s bitPos slot p diff).map lowIteration := by
  simp only [injectNode, allocate_low, write_low, Option.bind_eq_bind]
  rcases hfind : findBit diff 32 bitPos with _ | j
  · rfl
  · have hand : low number &&& j = number &&& j := low_and number (findBit_lt hb hfind)
    simp only [Option.bind_some, hand]
    rcases (s.allocate f).2.write slot (some (s.allocate f).1) with _ | s1
    · rfl
    · simp only [Option.map_some, Option.bind_some]
      split_ifs
      · rw [show (⟨j, low number, .interior none (some p)⟩ : Node P) = lowNode ⟨j, number, .interior none (some p)⟩
          from rfl, store_low]
        rcases s1.store (s.allocate f).1 _ with _ | s2
        · rfl
        · rfl
      · rw [show (⟨j, low number, .interior (some p) none⟩ : Node P) = lowNode ⟨j, number, .interior (some p) none⟩
          from rfl, store_low]
        rcases s1.store (s.allocate f).1 _ with _ | s2
        · rfl
        · rfl

theorem toNat_of_one_slt {bitPos : Word} (h : (1#32).slt bitPos = true) : bitPos.toNat < 2 ^ 31 := by
  have hone : (1#32).toInt = 1 := rfl
  rw [BitVec.slt_iff_toInt_lt, hone, BitVec.toInt_eq_toNat_cond] at h
  have hlt := bitPos.isLt
  split_ifs at h
  · omega
  · omega

theorem useNode_low (s : State P) (bitPos : Word) (slot : Slot P) (p : P) (n : Node P) :
    useNode (low number) (lowState s) bitPos slot p (lowNode n) =
      (useNode number s bitPos slot p n).map lowIteration := by
  have hrest : (lowNode n).rest = n.rest := rfl
  have hone : low number &&& 1#32 = number &&& 1#32 := low_and number (by decide)
  unfold useNode
  by_cases hslt : (1#32).slt bitPos = true
  · have hand : bitPos &&& low number = bitPos &&& number := by
      rw [BitVec.and_comm, low_and number (toNat_of_one_slt hslt), BitVec.and_comm]
    rw [if_pos hslt, if_pos hslt, hand]
    split_ifs
    · rfl
    · rfl
  · rw [if_neg hslt, if_neg hslt, hrest, hone]
    rcases n.rest with ⟨c0, c1⟩ | ⟨z, o⟩
    · simp only [Option.bind_eq_bind]
      split_ifs
      · rcases increment c1 with _ | c1'
        · rfl
        · have hstore := store_low s p { n with rest := .leaf c0 c1' }
          simp only [lowNode] at hstore
          simp only [Option.bind_some, lowNode, hstore]
          rcases s.store p { n with rest := .leaf c0 c1' } with _ | s1
          · rfl
          · rfl
      · rcases increment c0 with _ | c0'
        · rfl
        · have hstore := store_low s p { n with rest := .leaf c0' c1 }
          simp only [lowNode] at hstore
          simp only [Option.bind_some, lowNode, hstore]
          rcases s.store p { n with rest := .leaf c0' c1 } with _ | s1
          · rfl
          · rfl
    · rfl

theorem addBody_low (s : State P) {bitPos : Word} (hpos : 0 < bitPos.toNat) (hb : bitPos.toNat ≤ 2 ^ 30)
    (slot : Slot P) :
    addBody f (low number) (lowState s) bitPos slot = (addBody f number s bitPos slot).map lowIteration := by
  simp only [addBody, read_low, Option.bind_eq_bind]
  rcases s.read slot with _ | _ | p
  · rfl
  · exact createLeaf_low s slot
  · simp only [Option.bind_some, load_low]
    rcases s.load p with _ | n
    · rfl
    · have hdiff : bitRange bitPos n.bitPos &&& (low number ^^^ low n.number) =
          bitRange bitPos n.bitPos &&& (number ^^^ n.number) := by
        rw [low_xor, BitVec.and_comm, low_and _ (toNat_bitRange hpos hb _), BitVec.and_comm]
      simp only [Option.map_some, Option.bind_some, lowNode, hdiff]
      split_ifs
      · exact injectNode_low s (by omega) slot p _
      · exact useNode_low s n.bitPos slot p n
      · exact useNode_low s bitPos slot p n

/-- **The loop.** After an iteration `bit_pos` is shifted, and so below `2^30` as an `int`. -/
theorem addLoop_low : ∀ (fuel : ℕ) (s : State P) (bitPos : Word) (slot : Slot P), bitPos.toInt ≤ 2 ^ 30 →
    addLoop f (low number) fuel (lowState s) bitPos slot = (addLoop f number fuel s bitPos slot).map lowState
  | 0, _, _, _, _ => rfl
  | fuel + 1, s, bitPos, slot, hb => by
    rw [addLoop, addLoop]
    by_cases hslt : bitPos.slt 1#32 = true
    · rw [if_pos hslt, if_pos hslt]
      rfl
    · have hone : 1 ≤ bitPos.toInt := by
        rw [BitVec.slt_iff_toInt_lt] at hslt
        exact not_lt.mp hslt
      have hto : bitPos.toInt = bitPos.toNat := by
        rw [BitVec.toInt_eq_toNat_cond] at hone ⊢
        have hlt := bitPos.isLt
        split_ifs at hone ⊢ with h31
        · rfl
        · omega
      rw [if_neg hslt, if_neg hslt, addBody_low s (by omega) (by omega)]
      simp only [Option.bind_eq_bind]
      rcases addBody f number s bitPos slot with _ | _ | ⟨s1, bitPos1, slot1⟩
      · rfl
      · rfl
      · refine addLoop_low fuel s1 (bitPos1.sshiftRight 1) slot1 ?_
        have hlt := BitVec.toInt_lt (x := bitPos1)
        rw [BitVec.toInt_sshiftRight, Int.shiftRight_eq_div_pow]
        omega

/-- **`add_number`.** -/
theorem addNumber_low (f : Fresh P) (number : Word) (s : State P) :
    addNumber f (low number) (lowState s) = (addNumber f number s).map lowState :=
  addLoop_low 32 s (oneHot 30) .tree (by decide)

/-! ### `take_numbers` and `release_tree` -/

def lowBuffer (buffer : Buffer) : Buffer := ⟨buffer.written.map low, buffer.room⟩

theorem drain_low (x : Word) : ∀ (room : ℕ) (count : Word) (written : List Word),
    drain (low x) count (written.map low) room =
      ((drain x count written room).1, lowBuffer (drain x count written room).2)
  | 0, _, _ => rfl
  | room + 1, count, written => by
    rw [drain, drain]
    split_ifs
    · rfl
    · have happend : written.map low ++ [low x] = (written ++ [x]).map low := by
        rw [List.map_append, List.map_singleton]
      rw [happend]
      exact drain_low x room (count - 1#32) (written ++ [x])

/-- `release(nptr); *parent = 0`. -/
theorem removeNode_low (s : State P) (slot : Slot P) (p : P) (buffer : Buffer) :
    ((lowState s).release p).bind (fun s => (s.write slot none).bind fun s => some (s, lowBuffer buffer)) =
      (((s.release p).bind fun s => (s.write slot none).bind fun s => some (s, buffer))).map
        fun r => (lowState r.1, lowBuffer r.2) := by
  rw [release_low]
  rcases s.release p with _ | s1
  · rfl
  · simp only [Option.map_some, Option.bind_some, write_low]
    rcases s1.write slot none with _ | s2
    · rfl
    · rfl

theorem takeNumbers2_low : ∀ (fuel : ℕ) (s : State P) (slot : Slot P) (buffer : Buffer),
    takeNumbers2 fuel (lowState s) slot (lowBuffer buffer) =
      (takeNumbers2 fuel s slot buffer).map fun r => (lowState r.1, lowBuffer r.2)
  | 0, _, _, _ => rfl
  | fuel + 1, s, slot, buffer => by
    simp only [takeNumbers2, read_low, Option.bind_eq_bind]
    rcases s.read slot with _ | _ | p
    · rfl
    · rfl
    · simp only [Option.bind_some, load_low]
      rcases s.load p with _ | n
      · rfl
      · simp only [Option.map_some, Option.bind_some, lowNode]
        split_ifs
        · rcases n.rest with ⟨c0, c1⟩ | ⟨z, o⟩
          · simp only [low_and_not_one, low_or_one, lowBuffer, drain_low]
            generalize drain (n.number &&& ~~~1#32) c0 buffer.written buffer.room = zeros
            generalize drain (n.number ||| 1#32) c1 zeros.2.written zeros.2.room = ones
            have hstore := store_low s p { n with rest := .leaf zeros.1 ones.1 }
            simp only [lowNode] at hstore
            rw [hstore]
            rcases s.store p { n with rest := .leaf zeros.1 ones.1 } with _ | s1
            · rfl
            · simp only [Option.map_some, Option.bind_some]
              split_ifs
              · exact removeNode_low s1 slot p ones.2
              · rfl
          · rfl
        · simp only [takeNumbers2_low fuel s]
          rcases takeNumbers2 fuel s (.child false p) buffer with _ | ⟨s1, buffer1⟩
          · rfl
          · simp only [Option.map_some, Option.bind_some, takeNumbers2_low fuel s1]
            rcases takeNumbers2 fuel s1 (.child true p) buffer1 with _ | ⟨s2, buffer2⟩
            · rfl
            · simp only [Option.map_some, Option.bind_some, read_low]
              rcases s2.read (.child false p) with _ | zero
              · rfl
              · rcases s2.read (.child true p) with _ | one
                · rfl
                · simp only [Option.bind_some]
                  split_ifs
                  · exact removeNode_low s2 slot p buffer2
                  · rfl

/-- **`take_numbers`.** -/
theorem takeNumbers_low (fuel : ℕ) (s : State P) (maxNums : ℕ) :
    takeNumbers fuel (lowState s) maxNums =
      (takeNumbers fuel s maxNums).map fun r => (lowState r.1, r.2.map low) := by
  have htake := takeNumbers2_low fuel s .tree ⟨[], maxNums⟩
  have hempty : lowBuffer ⟨[], maxNums⟩ = ⟨[], maxNums⟩ := rfl
  rw [hempty] at htake
  simp only [takeNumbers, htake, Option.bind_eq_bind]
  rcases takeNumbers2 fuel s .tree ⟨[], maxNums⟩ with _ | r
  · rfl
  · rfl

/-- **`release_tree`.** -/
theorem releaseTree_low : ∀ (fuel : ℕ) (s : State P) (x : Option P),
    releaseTree fuel (lowState s) x = (releaseTree fuel s x).map lowState
  | 0, _, _ => rfl
  | fuel + 1, s, none => rfl
  | fuel + 1, s, some p => by
    simp only [releaseTree, load_low, Option.bind_eq_bind]
    rcases s.load p with _ | n
    · rfl
    · have hrest : (lowNode n).rest = n.rest := rfl
      have hbit : (lowNode n).bitPos = n.bitPos := rfl
      simp only [Option.map_some, Option.bind_some, hrest, hbit]
      split_ifs
      · rcases n.rest.get false with _ | zero
        · rfl
        · simp only [Option.bind_some, releaseTree_low fuel s zero]
          rcases releaseTree fuel s zero with _ | s1
          · rfl
          · simp only [Option.map_some, Option.bind_some, load_low]
            rcases s1.load p with _ | n1
            · rfl
            · have hrest1 : (lowNode n1).rest = n1.rest := rfl
              simp only [Option.map_some, Option.bind_some, hrest1]
              rcases n1.rest.get true with _ | one
              · rfl
              · simp only [Option.bind_some, releaseTree_low fuel s1 one]
                rcases releaseTree fuel s1 one with _ | s2
                · rfl
                · exact release_low s2 p
      · exact release_low s p

end CompSys.A6.RadixLow
