import CompSys.A5.Encoded
import CompSys.A5.MemoryRuns

/-! # Loads and stores

Which call of the memory module a load or a store makes (`Makes`), and what a load returns after the
store of the same width (`StoreThenLoad`). The code zero-extends the immediate, which is right if it
is not negative (`effective_eq_iff`), and it zero-extends what `LB` and `LH` load. The address of a
call can be told from what the call does (`call_unique`). -/

namespace CompSys.A5.Accesses

open CompSys.Lib.Bytes CompSys.Lib.Store CompSys.Lib.Rv32 CompSys.A5.PagedMemory
open CompSys.A5.FlatMemory CompSys.A5.MemoryRuns CompSys.A5.Simulate CompSys.A5.StepFacts
open CompSys.A5.Encoded

variable (startAddr : Word) (s : State)

/-! ### Calls -/

/-- The call of a load at an address. -/
def loadCall (a : Word) : LoadOp → Op
  | .lb => .rdB a
  | .lh => .rdH a
  | .lw => .rdW a
  | .lbu => .rdB a
  | .lhu => .rdH a

/-- The call of a store at an address. -/
def storeCall (a d : Word) : StoreOp → Op
  | .sb => .wrB a d
  | .sh => .wrH a d
  | .sw => .wrW a d

/-- How the iteration ends after the call: a value read goes to `rd`. -/
def afterCall (s : State) (rd : Reg) : Except Exit (Option Word × Memory) → Outcome
  | .ok (some v, mem) => .next (writeBack { s with mem := mem } rd v)
  | .ok (none, mem) => .next (advance { s with mem := mem })
  | .error e => .exit e

/-- The instruction makes the call `op`, whatever the memory holds. -/
def Makes (i : Instr) (op : Op) : Prop :=
  ∀ mem, execute startAddr { s with mem := mem } (encode i) =
    afterCall { s with mem := mem } (Decode.rd (encode i)) (call mem op)

theorem afterCall_read (rd : Reg) (r : Except Exit (Word × Memory)) :
    afterCall s rd (r.map fun r => (some r.1, r.2)) = loadBack s rd r := by
  rcases r with e | ⟨v, mem⟩ <;> rfl

theorem afterCall_write (rd : Reg) (r : Except Exit Memory) :
    afterCall s rd (r.map (none, ·)) = storeBack s r := by
  rcases r with e | mem <;> rfl

/-- **A load**, as the code makes it. -/
theorem execute_load (op : LoadOp) (rd base : Reg) (imm : BitVec 12) :
    execute startAddr s (encode (.load op rd base imm)) =
      afterCall s rd (call s.mem (loadCall (s.reg base + imm.setWidth 32) op)) := by
  rw [execute_of_loadInst (by simp [encode])]
  rcases op <;>
    simp [encode, execLoad, LoadOp.funct3, regBits, loadCall, call, afterCall_read] <;> rfl

/-- **A store**, as the code makes it. -/
theorem execute_store (op : StoreOp) (src base : Reg) (imm : BitVec 12) (rd : Reg) :
    execute startAddr s (encode (.store op src base imm)) =
      afterCall s rd (call s.mem (storeCall (s.reg base + imm.setWidth 32) (s.reg src) op)) := by
  rw [execute_of_storeInst (by simp [encode])]
  rcases op <;>
    simp [encode, execStore, StoreOp.funct3, regBits, storeCall, call, afterCall_write]
  rfl

/-! ### The address of a call -/

def address : Op → Word
  | .wrB a _ | .wrH a _ | .wrW a _ | .rdB a | .rdH a | .rdW a => a

/-- The call at another address. -/
def moveTo (b : Word) : Op → Op
  | .wrB _ d => .wrB b d
  | .wrH _ d => .wrH b d
  | .wrW _ d => .wrW b d
  | .rdB _ => .rdB b
  | .rdH _ => .rdH b
  | .rdW _ => .rdW b

/-- What the message of an unaligned call says before the address. -/
def complaint : Op → String
  | .wrH _ _ => "Unaligned halfword write to "
  | .wrW _ _ => "Unaligned word write to "
  | .rdH _ => "Unaligned halfword read from "
  | .rdW _ => "Unaligned word read from "
  | _ => ""

theorem one_lt_length_toDigits {n : ℕ} (hn : 16 ≤ n) : 1 < (Nat.toDigits 16 n).length := by
  have hpos := Nat.length_toDigits_pos (b := 16) (n := n / 16)
  rw [Nat.toDigits_of_base_le (by decide) hn, List.length_append, List.length_singleton]
  omega

theorem toDigits_injective : Function.Injective (Nat.toDigits 16) := by
  have hdigit : ∀ m < 16, ∀ n < 16, m.digitChar = n.digitChar → m = n := by decide
  intro m
  induction m using Nat.strong_induction_on with
  | _ m ih =>
    intro n h
    rcases Nat.lt_or_ge m 16 with hm | hm <;> rcases Nat.lt_or_ge n 16 with hn | hn
    · simp only [Nat.toDigits_of_lt_base hm, Nat.toDigits_of_lt_base hn] at h
      exact hdigit m hm n hn (List.singleton_inj.mp h)
    · have hlen := one_lt_length_toDigits hn
      rw [← h, Nat.toDigits_of_lt_base hm, List.length_singleton] at hlen
      exact absurd hlen (lt_irrefl 1)
    · have hlen := one_lt_length_toDigits hm
      rw [h, Nat.toDigits_of_lt_base hn, List.length_singleton] at hlen
      exact absurd hlen (lt_irrefl 1)
    · rw [Nat.toDigits_of_base_le (by decide) hm, Nat.toDigits_of_base_le (by decide) hn] at h
      obtain ⟨hhigh, hlow⟩ := List.append_inj' h rfl
      have hdiv : m / 16 = n / 16 := ih (m / 16) (by omega) hhigh
      have hmod := hdigit _ (Nat.mod_lt m (by decide)) _ (Nat.mod_lt n (by decide))
        (List.singleton_inj.mp hlow)
      omega

theorem hex_injective : Function.Injective hex := fun _ _ h =>
  BitVec.toNat_inj.mp (toDigits_injective (String.ofList_injective h))

@[simp] theorem address_moveTo (b : Word) (op : Op) : address (moveTo b op) = b := by
  rcases op with ⟨a, d⟩ | ⟨a, d⟩ | ⟨a, d⟩ | a | a | a <;> rfl

@[simp] theorem complaint_moveTo (b : Word) (op : Op) : complaint (moveTo b op) = complaint op := by
  rcases op with ⟨a, d⟩ | ⟨a, d⟩ | ⟨a, d⟩ | a | a | a <;> rfl

@[simp] theorem moveTo_address (b : Word) (op : Op) : moveTo (address op) (moveTo b op) = op := by
  rcases op with ⟨a, d⟩ | ⟨a, d⟩ | ⟨a, d⟩ | a | a | a <;> rfl

@[simp] theorem moveTo_self (op : Op) : moveTo (address op) op = op := by
  rcases op with ⟨a, d⟩ | ⟨a, d⟩ | ⟨a, d⟩ | a | a | a <;> rfl

theorem call_message (mem : Memory) {op : Op} (h : ¬ op.Permitted) :
    ∃ mem', call mem op = .error ⟨complaint op ++ hex (address op) ++ "\n", mem'⟩ := by
  rcases op with ⟨a, d⟩ | ⟨a, d⟩ | ⟨a, d⟩ | a | a | a
  · exact absurd trivial h
  · have ha : a &&& 0x1#32 ≠ 0#32 := fun h' => h ((and_one_eq a).mp h')
    exact ⟨mem, by simp [call, memoryWrH, ha, Except.map, complaint, address]⟩
  · have ha : a &&& 0x3#32 ≠ 0#32 := fun h' => h ((and_three_eq a (k := 0) (by omega)).mp h')
    exact ⟨mem, by simp [call, memoryWrW, ha, Except.map, complaint, address]⟩
  · exact absurd trivial h
  · have ha : a &&& 0x1#32 ≠ 0#32 := fun h' => h ((and_one_eq a).mp h')
    exact ⟨(getPage mem a).2, by simp [call, memoryRdH, ha, Except.map, complaint, address]⟩
  · have ha : a &&& 0x3#32 ≠ 0#32 := fun h' => h ((and_three_eq a (k := 0) (by omega)).mp h')
    exact ⟨(getPage mem a).2, by simp [call, memoryRdW, ha, Except.map, complaint, address]⟩

/-- What a read returns begins with the byte at its address. -/
theorem byteOf_result (f : Word → BitVec 8) {op : Op} {v : Word} (h : op.result f = some v) :
    byteOf v 0 = f (address op) := by
  rcases op with ⟨a, d⟩ | ⟨a, d⟩ | ⟨a, d⟩ | a | a | a <;> cases h
  · exact byteOf_setWidth _
  · exact byteOf_half _ _
  · exact (byteOf_word _ _ _ _).1

/-- Aligned writes of one width at different addresses do not overlap. -/
theorem writes_apart {op : Op} {a : Word} (h : op.Permitted) (ha : (moveTo a op).Permitted)
    (hne : a ≠ address op) : a ∉ op.writes.map Prod.fst := by
  rcases op with ⟨b, d⟩ | ⟨b, d⟩ | ⟨b, d⟩ | b | b | b
  · simpa [Op.writes, writesB, address] using hne
  · simp only [Op.Permitted, moveTo, address] at h ha hne
    simp only [Op.writes, writesH, List.map_cons, List.map_nil, List.mem_cons, List.not_mem_nil,
      or_false, not_or]
    exact ⟨hne, fun h1 => by rw [h1] at ha; bv_omega⟩
  · simp only [Op.Permitted, moveTo, address] at h ha hne
    simp only [Op.writes, writesW, List.map_cons, List.map_nil, List.mem_cons, List.not_mem_nil,
      or_false, not_or]
    exact ⟨hne, fun h1 => by rw [h1] at ha; bv_omega, fun h2 => by rw [h2] at ha; bv_omega,
      fun h3 => by rw [h3] at ha; bv_omega⟩
  · simp [Op.writes]
  · simp [Op.writes]
  · simp [Op.writes]

theorem afterCall_ok {s s' : State} {rd : Reg} {v v' : Option Word} {mem mem' : Memory}
    (hv : v.isSome = v'.isSome)
    (h : afterCall s rd (.ok (v, mem)) = afterCall s' rd (.ok (v', mem'))) :
    v = v' ∧ mem = mem' := by
  rcases v with _ | v <;> rcases v' with _ | v'
  · injection h with h
    exact ⟨rfl, congrArg State.mem h⟩
  · cases hv
  · cases hv
  · injection h with h
    have hreg := congrFun (congrArg State.reg h) rd
    simp only [writeBack, Function.update_self] at hreg
    exact ⟨congrArg some hreg, congrArg State.mem h⟩

/-- A memory with one byte. -/
theorem exists_bytes (a : Word) (c : BitVec 8) :
    ∃ mem, bytes mem a = c ∧ ∀ b, b ≠ a → bytes mem b = 0#8 := by
  refine ⟨memoryWrB memoryCreate a (c.setWidth 32), ?_, fun b hb => ?_⟩
  · rw [bytes_memoryWrB, applyWrites_apply, writesB, lastWrite?_singleton, if_pos rfl]
    exact byteOf_setWidth c
  · rw [bytes_memoryWrB, applyWrites_apply, writesB, lastWrite?_singleton, if_neg (Ne.symm hb)]
    exact bytes_memoryCreate b

/-- The call and the same call at `b` do the same on every memory. -/
def SameEffect (rd : Reg) (op : Op) (b : Word) : Prop :=
  ∀ mem, afterCall { s with mem := mem } rd (call mem op) =
    afterCall { s with mem := mem } rd (call mem (moveTo b op))

variable {startAddr} {s} {rd : Reg} {op : Op} {b : Word}

theorem isSome_result_moveTo (f g : Word → BitVec 8) :
    (op.result f).isSome = ((moveTo b op).result g).isSome := by
  rcases op with ⟨a, d⟩ | ⟨a, d⟩ | ⟨a, d⟩ | a | a | a <;> rfl

/-- Two permitted calls with the same effect return the same and leave the same bytes. -/
theorem effects_eq (hop : op.Permitted) (hb : (moveTo b op).Permitted) (h : SameEffect s rd op b)
    (mem : Memory) : op.result (bytes mem) = (moveTo b op).result (bytes mem) ∧
      applyWrites (bytes mem) op.writes = applyWrites (bytes mem) (moveTo b op).writes := by
  obtain ⟨mem1, h1, hb1⟩ := call_permitted mem hop
  obtain ⟨mem2, h2, hb2⟩ := call_permitted mem hb
  have hmem := h mem
  rw [h1, h2] at hmem
  obtain ⟨hres, hmems⟩ := afterCall_ok (isSome_result_moveTo _ _) hmem
  exact ⟨hres, by rw [← hb1, ← hb2, hmems]⟩

/-- A read that is moved returns another byte of some memory. -/
theorem read_unique (hop : op.Permitted) (hb : (moveTo b op).Permitted) (h : SameEffect s rd op b)
    (hread : ∀ f, (op.result f).isSome) : b = address op := by
  by_contra hne
  obtain ⟨mem, ha, hz⟩ := exists_bytes (address op) 1#8
  obtain ⟨hres, -⟩ := effects_eq hop hb h mem
  obtain ⟨v, hv⟩ := Option.isSome_iff_exists.mp (hread (bytes mem))
  have h1 := byteOf_result _ hv
  have h2 := byteOf_result _ (hres ▸ hv)
  rw [address_moveTo, hz b hne] at h2
  rw [ha] at h1
  exact absurd (h1.symm.trans h2) (by decide)

/-- A write that is moved leaves another byte at its address in some memory. -/
theorem write_unique (hop : op.Permitted) (hb : (moveTo b op).Permitted) (h : SameEffect s rd op b)
    {c : BitVec 8} (hwrite : lastWrite? op.writes (address op) = some c) : b = address op := by
  by_contra hne
  obtain ⟨mem, ha, -⟩ := exists_bytes (address op) (c + 1#8)
  obtain ⟨-, hbytes⟩ := effects_eq hop hb h mem
  have hat := congrFun hbytes (address op)
  have hapart : address op ∉ (moveTo b op).writes.map Prod.fst :=
    writes_apart hb (by rwa [moveTo_address]) (by rw [address_moveTo]; exact Ne.symm hne)
  have hnone : lastWrite? (moveTo b op).writes (address op) = none :=
    lastWrite?_eq_none.mpr fun w hw he => hapart (List.mem_map.mpr ⟨w, hw, he⟩)
  rw [applyWrites_apply, hwrite, applyWrites_apply, hnone, Option.getD_some, Option.getD_none,
    ha] at hat
  bv_omega

/-- **The address of a call** can be told from what it does. -/
theorem call_unique (h : SameEffect s rd op b) : b = address op := by
  by_cases hop : op.Permitted <;> by_cases hb : (moveTo b op).Permitted
  · rcases op with ⟨a, d⟩ | ⟨a, d⟩ | ⟨a, d⟩ | a | a | a
    · exact write_unique hop hb h (c := byteOf d 0) (by simp [Op.writes, writesB, address])
    · exact write_unique hop hb h (c := byteOf d 0)
        (by simp [Op.writes, writesH, lastWrite?_cons, address])
    · exact write_unique hop hb h (c := byteOf d 0)
        (by simp [Op.writes, writesW, lastWrite?_cons, address])
    · exact read_unique hop hb h fun _ => rfl
    · exact read_unique hop hb h fun _ => rfl
    · exact read_unique hop hb h fun _ => rfl
  · obtain ⟨mem1, h1, -⟩ := call_permitted memoryCreate hop
    obtain ⟨mem2, h2⟩ := call_message memoryCreate hb
    have hmem := h memoryCreate
    rw [h1, h2] at hmem
    cases hr : op.result (bytes memoryCreate) <;> rw [hr] at hmem <;> cases hmem
  · obtain ⟨mem1, h1⟩ := call_message memoryCreate hop
    obtain ⟨mem2, h2, -⟩ := call_permitted memoryCreate hb
    have hmem := h memoryCreate
    rw [h1, h2] at hmem
    cases hr : (moveTo b op).result (bytes memoryCreate) <;> rw [hr] at hmem <;> cases hmem
  · obtain ⟨mem1, h1⟩ := call_message memoryCreate hop
    obtain ⟨mem2, h2⟩ := call_message memoryCreate hb
    have hmem := h memoryCreate
    rw [h1, h2] at hmem
    injection hmem with hexit
    have hmessage := congrArg String.toList (congrArg Exit.message hexit)
    simp only [complaint_moveTo, address_moveTo, String.toList_append] at hmessage
    exact hex_injective (String.toList_injective
      (List.append_cancel_left (List.append_cancel_right hmessage))).symm

/-! ### Effective addresses -/

theorem setWidth_eq_signExtend_iff {w v : ℕ} (hw : w < v) (x : BitVec w) :
    x.setWidth v = x.signExtend v ↔ x.msb = false := by
  have hpow : 2 ^ w < 2 ^ v := Nat.pow_lt_pow_right (by decide) hw
  rw [← BitVec.toNat_inj, BitVec.toNat_signExtend]
  cases x.msb
  · simp
  · simp
    omega

/-- An instruction that makes a call makes no other call of its kind. -/
theorem makes_moveTo_iff {i : Instr} (h : Makes startAddr s i op) :
    Makes startAddr s i (moveTo b op) ↔ b = address op := by
  constructor
  · exact fun hb => call_unique fun mem => (h mem).symm.trans (hb mem)
  · rintro rfl
    rwa [moveTo_self]

/-- A load is made at the register plus the zero-extended immediate, and nowhere else. -/
theorem load_makes_iff (op : LoadOp) (rd base : Reg) (imm : BitVec 12) (b : Word) :
    Makes startAddr s (.load op rd base imm) (loadCall b op) ↔
      b = s.reg base + imm.setWidth 32 := by
  have hcode : Makes startAddr s (.load op rd base imm)
      (loadCall (s.reg base + imm.setWidth 32) op) := by
    intro mem
    have hrd : Decode.rd (encode (.load op rd base imm)) = rd := by simp [encode, regBits]
    rw [hrd]
    exact execute_load startAddr { s with mem := mem } op rd base imm
  have hmove := makes_moveTo_iff (b := b) hcode
  rcases op <;> exact hmove

theorem store_makes_iff (op : StoreOp) (src base : Reg) (imm : BitVec 12) (b : Word) :
    Makes startAddr s (.store op src base imm) (storeCall b (s.reg src) op) ↔
      b = s.reg base + imm.setWidth 32 := by
  have hcode : Makes startAddr s (.store op src base imm)
      (storeCall (s.reg base + imm.setWidth 32) (s.reg src) op) :=
    fun mem => execute_store startAddr { s with mem := mem } op src base imm _
  have hmove := makes_moveTo_iff (b := b) hcode
  rcases op <;> exact hmove

theorem effective_eq_iff (x : Word) (imm : BitVec 12) :
    x + imm.signExtend 32 = x + imm.setWidth 32 ↔ 0 ≤ imm.toInt := by
  rw [BitVec.add_right_inj, eq_comm, setWidth_eq_signExtend_iff (by decide), BitVec.msb_eq_toInt]
  simp

/-- **Loads and stores** are made at the effective address exactly when the immediate is not
negative. -/
theorem effectiveAddress_iff (startAddr : Word) (s : State) (base : Reg) (imm : BitVec 12) :
    (∀ op rd, Makes startAddr s (.load op rd base imm)
      (loadCall (s.reg base + imm.signExtend 32) op) ↔ 0 ≤ imm.toInt) ∧
    ∀ op src, Makes startAddr s (.store op src base imm)
      (storeCall (s.reg base + imm.signExtend 32) (s.reg src) op) ↔ 0 ≤ imm.toInt :=
  ⟨fun op rd => (load_makes_iff op rd base imm _).trans (effective_eq_iff _ imm),
    fun op src => (store_makes_iff op src base imm _).trans (effective_eq_iff _ imm)⟩

/-- `LB x5, -1(x2)` with `x2` holding `0x2000` reads `0x2fff`. -/
theorem load_above : ¬ ∀ startAddr s op rd base imm, Makes startAddr s (.load op rd base imm)
    (loadCall (s.reg base + imm.signExtend 32) op) := by
  intro h
  have hmakes := h 0 (initial 0 (fun _ => 0x2000#32) memoryCreate []) .lb 5 2 (-1)
  rw [load_makes_iff, effective_eq_iff] at hmakes
  revert hmakes
  decide

/-! ### A store and then a load -/

/-- The zero-extending load of the same width. -/
def unsigned : LoadOp → LoadOp
  | .lb => .lbu
  | .lh => .lhu
  | op => op

/-- A load that follows the store of its width, whatever the fetch in between allocated, puts the
extended datum in `rd`. -/
def StoreThenLoad (startAddr : Word) (s : State) (op : LoadOp) (rd src base : Reg)
    (imm : BitVec 12) : Prop :=
  ∃ s1, execute startAddr s (encode (.store op.store src base imm)) = .next s1 ∧
    ∀ mem, bytes mem = bytes s1.mem →
      ∃ s2, execute startAddr { s1 with mem := mem } (encode (.load op rd base imm)) = .next s2 ∧
        s2.reg rd = op.extend (s.reg src)

/-- What the bytes of a store are read as. -/
theorem result_stored (f : Word → BitVec 8) (a d : Word) (op : LoadOp) :
    (loadCall a op).result (applyWrites f (storeCall a d op.store).writes) =
      some ((unsigned op).extend d) := by
  have h0 : (byteOf d 0).setWidth 32 = (d.setWidth 8).setWidth 32 := by
    rw [BitVec.setWidth_eq_extractLsb' (x := d) (by decide)]
    rfl
  rcases op <;>
    simp [loadCall, storeCall, LoadOp.store, Op.result, Op.writes, writesB, writesH, writesW,
      applyWrites_apply, lastWrite?_cons, unsigned, LoadOp.extend, h0, half_byteOf, word_byteOf]

theorem unsigned_extend_eq_iff (d : Word) (op : LoadOp) : (unsigned op).extend d = op.extend d ↔
    (op = .lb → d.getLsbD 7 = false) ∧ (op = .lh → d.getLsbD 15 = false) := by
  rcases op
  · simp [unsigned, LoadOp.extend, setWidth_eq_signExtend_iff, BitVec.msb_eq_getLsbD_last]
  · simp [unsigned, LoadOp.extend, setWidth_eq_signExtend_iff, BitVec.msb_eq_getLsbD_last]
  · simp [unsigned]
  · simp [unsigned]
  · simp [unsigned]

/-- The address the code takes instead is as aligned. -/
theorem aligned_setWidth (x : Word) (imm : BitVec 12) :
    (x + imm.setWidth 32).toNat % 4 = (x + imm.signExtend 32).toNat % 4 := by
  have himm : (imm.signExtend 32).toNat =
      (imm.setWidth 32).toNat + if imm.msb then 2 ^ 32 - 2 ^ 12 else 0 := imm.toNat_signExtend
  rw [BitVec.toNat_add, BitVec.toNat_add, himm]
  split_ifs <;> omega

theorem permitted_of_aligned (x d : Word) {imm : BitVec 12} {op : LoadOp}
    (h : (x + imm.signExtend 32).toNat % op.store.width = 0) :
    (storeCall (x + imm.setWidth 32) d op.store).Permitted ∧
      (loadCall (x + imm.setWidth 32) op).Permitted := by
  have h4 := aligned_setWidth x imm
  have hhalf (h : (x + imm.signExtend 32).toNat % 2 = 0) :
      (x + imm.setWidth 32).toNat % 2 = 0 := by omega
  have hword (h : (x + imm.signExtend 32).toNat % 4 = 0) :
      (x + imm.setWidth 32).toNat % 4 = 0 := h4.trans h
  rcases op
  · exact ⟨trivial, trivial⟩
  · exact ⟨hhalf h, hhalf h⟩
  · exact ⟨hword h, hword h⟩
  · exact ⟨trivial, trivial⟩
  · exact ⟨hhalf h, hhalf h⟩

/-- **What a store and then a load do** at an aligned address. -/
theorem store_load (op : LoadOp) (rd src base : Reg) (imm : BitVec 12)
    (h : (s.reg base + imm.signExtend 32).toNat % op.store.width = 0) :
    ∃ s1, execute startAddr s (encode (.store op.store src base imm)) = .next s1 ∧
      ∀ mem, bytes mem = bytes s1.mem → ∃ mem',
        execute startAddr { s1 with mem := mem } (encode (.load op rd base imm)) =
          .next (writeBack { s1 with mem := mem' } rd ((unsigned op).extend (s.reg src))) := by
  obtain ⟨hstore, hload⟩ := permitted_of_aligned (s.reg base) (s.reg src) h
  obtain ⟨mem1, h1, hb1⟩ := call_permitted s.mem hstore
  refine ⟨advance { s with mem := mem1 }, ?_, fun mem hmem => ?_⟩
  · rw [execute_store startAddr s op.store src base imm 0, h1]
    rcases op <;> rfl
  · obtain ⟨mem2, h2, -⟩ := call_permitted mem hload
    have hresult := result_stored (bytes s.mem) (s.reg base + imm.setWidth 32) (s.reg src) op
    rw [← hb1, ← show bytes mem = bytes mem1 from hmem] at hresult
    rw [hresult] at h2
    refine ⟨mem2, ?_⟩
    rw [execute_load]
    exact congrArg (afterCall _ rd) h2

/-- **A load after a store** returns the extended datum exactly when it need not be sign-extended
or has no sign. -/
theorem storeThenLoad_iff (startAddr : Word) (s : State) (op : LoadOp) (rd src base : Reg)
    (imm : BitVec 12) (h : (s.reg base + imm.signExtend 32).toNat % op.store.width = 0) :
    StoreThenLoad startAddr s op rd src base imm ↔
      (op = .lb → (s.reg src).getLsbD 7 = false) ∧
        (op = .lh → (s.reg src).getLsbD 15 = false) := by
  obtain ⟨s1, h1, hload⟩ := @store_load startAddr s op rd src base imm h
  rw [← unsigned_extend_eq_iff]
  constructor
  · rintro ⟨s1', h1', hload'⟩
    rw [h1] at h1'
    cases h1'
    obtain ⟨mem', h2⟩ := hload s1.mem rfl
    obtain ⟨s2, h2', hreg⟩ := hload' s1.mem rfl
    rw [h2] at h2'
    cases h2'
    simpa [writeBack] using hreg
  · intro heq
    refine ⟨s1, h1, fun mem hmem => ?_⟩
    obtain ⟨mem', h2⟩ := hload mem hmem
    exact ⟨_, h2, by simp [writeBack, heq]⟩

/-- `SB x6, 0(x2)` and `LB x5, 0(x2)` with `x6` holding `0x7f`. -/
theorem storeThenLoad_positive :
    StoreThenLoad 0 (initial 0 (fun _ => 0x7f#32) memoryCreate []) .lb 5 6 2 0 :=
  (storeThenLoad_iff 0 (initial 0 (fun _ => 0x7f#32) memoryCreate []) .lb 5 6 2 0 (by decide)).mpr
    (by decide)

/-- `SB x6, 0(x2)` and `LB x5, 0(x2)` with `x6` holding `0x80` leave `0x80` in `x5`. -/
theorem load_not_extended : ¬ ∀ startAddr s op rd src base imm, rd ≠ 0 →
    (s.reg base + imm.signExtend 32).toNat % op.store.width = 0 →
      StoreThenLoad startAddr s op rd src base imm := by
  intro h
  obtain ⟨s1, h1, hs1⟩ := h 0 (initial 0 (fun _ => 0x80#32) memoryCreate []) .lb 5 6 2 0
    (by decide) (by decide)
  obtain ⟨s1', h1', hs1'⟩ := @store_load 0 (initial 0 (fun _ => 0x80#32) memoryCreate [])
    .lb 5 6 2 0 (by decide)
  rw [h1] at h1'
  cases h1'
  obtain ⟨s2, h2, hreg⟩ := hs1 s1.mem rfl
  obtain ⟨mem', h2'⟩ := hs1' s1.mem rfl
  rw [h2] at h2'
  cases h2'
  simp only [writeBack, Function.update_self] at hreg
  revert hreg
  decide

end CompSys.A5.Accesses
