import CompSys.A4.Sha256

/-! # What `sha256.c` computes

`SHA256Guts` takes the standard's compression function of the block (`SHA256Guts_eq`), although it expands the
message with five moving pointers and unrolls its rounds. Between the calls the context `Holds` the text so far: the
chaining value of its full blocks, the rest of it in the buffer, and its length. -/

namespace CompSys.A4.Sha256

open CompSys.Lib.Sha2 hiding Byte
open CompSys.Lib.Bytes CompSys.Lib.BlockHash CompSys.A4.Wire

/-! ### The macros and the tables -/

theorem ROTR_eq {n : ℕ} (hn : n < 32) (x : Word) : ROTR x n = x.rotateRight n := by
  rw [BitVec.rotateRight_eq_rotateRightAux_of_lt hn]
  rfl

theorem BYTESWAP_eq (x : Word) : BYTESWAP x = swap x := by
  unfold BYTESWAP swap word byteOf ROTR ROTL
  refine BitVec.eq_of_getLsbD_eq fun i hi => ?_
  interval_cases i <;> simp

theorem Ch_eq (x y z : Word) : Ch x y z = ch x y z := by
  refine BitVec.eq_of_getLsbD_eq fun i hi => ?_
  simp only [Ch, ch, BitVec.getLsbD_xor, BitVec.getLsbD_and, BitVec.getLsbD_not, hi, decide_true, Bool.true_and]
  cases x.getLsbD i <;> cases y.getLsbD i <;> cases z.getLsbD i <;> rfl

theorem Maj_eq (x y z : Word) : Maj x y z = maj x y z := by
  refine BitVec.eq_of_getLsbD_eq fun i hi => ?_
  simp only [Maj, maj, BitVec.getLsbD_xor, BitVec.getLsbD_and, BitVec.getLsbD_or]
  cases x.getLsbD i <;> cases y.getLsbD i <;> cases z.getLsbD i <;> rfl

theorem SIGMA0_eq (x : Word) : SIGMA0 x = bigSigma0 x := by
  rw [SIGMA0, ROTR_eq (by omega), ROTR_eq (by omega), ROTR_eq (by omega), bigSigma0]

theorem SIGMA1_eq (x : Word) : SIGMA1 x = bigSigma1 x := by
  rw [SIGMA1, ROTR_eq (by omega), ROTR_eq (by omega), ROTR_eq (by omega), bigSigma1]

theorem sigma0_eq (x : Word) : sigma0 x = smallSigma0 x := by
  rw [sigma0, ROTR_eq (by omega), ROTR_eq (by omega), smallSigma0]

theorem sigma1_eq (x : Word) : sigma1 x = smallSigma1 x := by
  rw [sigma1, ROTR_eq (by omega), ROTR_eq (by omega), smallSigma1]

/-- **The table of constants** is the standard's. -/
theorem K_eq : K = (List.range 64).map roundConstant := by
  change K = (List.range 64).map fun t => rootFraction 3 (primes.getD t 0)
  rw [primes_eq]
  decide +kernel

theorem sha256Init_hash (sc : Context) : (sha256Init sc).hash = initialHash := by
  change (sha256Init ⟨0#64, fun _ => 0#32, 0#32, fun _ => 0#8⟩).hash = fun i : Fin 8 => rootFraction 2 (primes.getD i 0)
  rw [primes_eq, funext_iff]
  decide +kernel

/-! ### A block -/

theorem put_eq {buf : List Word} (x : Word) (h : buf.length < 64) : put buf x = some (buf ++ [x]) := if_pos h

theorem swapBlock_eq (cbuf buf : List Word) (h : buf.length + cbuf.length ≤ 64) :
    swapBlock cbuf.length cbuf buf = some (buf ++ cbuf.map BYTESWAP) := by
  induction cbuf generalizing buf with
  | nil => rw [List.map_nil, List.append_nil]; rfl
  | cons w cbuf ih =>
    rw [List.length_cons] at h
    have hput : put buf (BYTESWAP w) = _ := put_eq _ (by omega)
    have hrest := ih (buf ++ [BYTESWAP w]) (by rw [List.length_append, List.length_singleton]; omega)
    simp only [List.length_cons, swapBlock, List.head?_cons, hput, List.tail_cons, Option.bind_eq_bind,
      Option.bind_some, hrest, List.map_cons, List.append_assoc, List.singleton_append]

variable {b : List Byte}

/-- The first `n` words of the schedule. -/
theorem getElem?_schedule {n t : ℕ} (ht : t < n) : ((List.range n).map (schedule b))[t]? = some (schedule b t) := by
  rw [List.getElem?_map, List.getElem?_range ht, Option.map_some]

/-- **The second loop** writes the schedule. -/
theorem expand_eq (i k : ℕ) (hk : k + i = 48) :
    expand i ⟨k + 14, k + 9, k + 1, k⟩ ((List.range (k + 16)).map (schedule b)) =
      some ((List.range 64).map (schedule b)) := by
  induction i generalizing k with
  | zero => rw [show k = 48 by omega]; rfl
  | succ i ih =>
    have hnext := ih (k + 1) (by omega)
    rw [show k + 1 + 16 = k + 16 + 1 by omega, List.range_succ, List.map_append, List.map_singleton,
      schedule_add] at hnext
    rw [← hnext]
    have hput (x : Word) : put ((List.range (k + 16)).map (schedule b)) x = _ :=
      put_eq x (by rw [List.length_map, List.length_range]; omega)
    simp only [expand, getElem?_schedule (show k + 14 < k + 16 by omega),
      getElem?_schedule (show k + 9 < k + 16 by omega), getElem?_schedule (show k + 1 < k + 16 by omega),
      getElem?_schedule (show k < k + 16 by omega), sigma1_eq, sigma0_eq, hput, Option.bind_eq_bind, Option.bind_some,
      Nat.add_right_comm]

/-- The working variables of a round. -/
def Round.vars (r : Round) : Fin 8 → Word := ![r.a, r.b, r.c, r.d, r.e, r.f, r.g, r.h]

/-- The round that is about to be made: `t` have been made on `v`. -/
structure Made (b : List Byte) (v : Fin 8 → Word) (t : ℕ) (r : Round) : Prop where
  vars : r.vars = rounds b t v
  Kp : r.Kp = t
  W : r.W = t

/-- **A round.** -/
theorem DO_ROUND_made {v : Fin 8 → Word} {t : ℕ} {r : Round} (ht : t < 64) (h : Made b v t r) :
    ∃ r', DO_ROUND ((List.range 64).map (schedule b)) r = some r' ∧ Made b v (t + 1) r' := by
  obtain ⟨hvars, hK, hW⟩ := h
  have hconst : K[t]? = some (roundConstant t) := by
    rw [K_eq, List.getElem?_map, List.getElem?_range ht, Option.map_some]
  simp only [DO_ROUND, hK, hW, hconst, getElem?_schedule ht, Option.bind_eq_bind, Option.bind_some, Option.pure_def,
    SIGMA0_eq, SIGMA1_eq, Ch_eq, Maj_eq]
  refine ⟨_, rfl, ?_, rfl, rfl⟩
  rw [rounds, ← hvars]
  rfl

/-- **The rounds**, four at a time. -/
theorem unrolled_made {v : Fin 8 → Word} (i t : ℕ) {r : Round} (ht : t + 4 * i = 64) (h : Made b v t r) :
    ∃ r', unrolled ((List.range 64).map (schedule b)) i r = some r' ∧ Made b v 64 r' := by
  induction i generalizing t r with
  | zero => exact ⟨r, rfl, by rwa [show t = 64 by omega] at h⟩
  | succ i ih =>
    obtain ⟨r1, h1, hm1⟩ := DO_ROUND_made (by omega) h
    obtain ⟨r2, h2, hm2⟩ := DO_ROUND_made (by omega) hm1
    obtain ⟨r3, h3, hm3⟩ := DO_ROUND_made (by omega) hm2
    obtain ⟨r4, h4, hm4⟩ := DO_ROUND_made (by omega) hm3
    obtain ⟨r', hr', hm'⟩ := ih (t + 4) (by omega) hm4
    refine ⟨r', ?_, hm'⟩
    simp only [unrolled, h1, h2, h3, h4, Option.bind_eq_bind, Option.bind_some, hr']

/-- The words of a block with their bytes in the order of the text. -/
theorem map_words (sc : Context) : sc.words.map BYTESWAP = (List.range 16).map (schedule (List.ofFn sc.bytes)) := by
  refine List.ext_getElem (by rw [List.length_map, List.length_map, Context.words, List.length_ofFn, List.length_range])
    fun t ht _ => ?_
  have h16 : t < 16 := by rwa [List.length_map, Context.words, List.length_ofFn] at ht
  simp only [List.getElem_map, List.getElem_range, Context.words, List.getElem_ofFn, BYTESWAP_eq, swap,
    schedule_of_lt _ h16, blockWord]
  obtain ⟨h0, h1, h2, h3⟩ := byteOf_word (sc.bytes ⟨4 * t, by omega⟩) (sc.bytes ⟨4 * t + 1, by omega⟩)
    (sc.bytes ⟨4 * t + 2, by omega⟩) (sc.bytes ⟨4 * t + 3, by omega⟩)
  have hget : ∀ k (hk : k < 64), (List.ofFn sc.bytes).getD k 0 = sc.bytes ⟨k, hk⟩ := fun k hk => by
    rw [List.getD_eq_getElem _ _ (by rwa [List.length_ofFn]), List.getElem_ofFn]
  rw [h0, h1, h2, h3, hget _ (by omega), hget _ (by omega), hget _ (by omega), hget _ (by omega)]

/-- **`SHA256Guts` on the buffer** is the compression function. -/
theorem SHA256Guts_eq (sc : Context) :
    SHA256Guts sc sc.words = some { sc with hash := compress sc.hash (List.ofFn sc.bytes) } := by
  have hswap := swapBlock_eq sc.words [] (by rw [Context.words, List.length_ofFn]; decide)
  rw [show sc.words.length = 16 by rw [Context.words, List.length_ofFn], List.nil_append, map_words] at hswap
  have hexpand := expand_eq (b := List.ofFn sc.bytes) 48 0 rfl
  obtain ⟨r, hr, hvars, -, -⟩ := unrolled_made (b := List.ofFn sc.bytes) (v := sc.hash) 16 0 rfl
    (r := ⟨sc.hash 0, sc.hash 1, sc.hash 2, sc.hash 3, sc.hash 4, sc.hash 5, sc.hash 6, sc.hash 7, 0, 0⟩)
    ⟨funext fun i => by fin_cases i <;> rfl, rfl, rfl⟩
  simp only [SHA256Guts, hswap, Option.bind_eq_bind, Option.bind_some, hexpand, hr, Option.pure_def, Option.some.injEq,
    Context.mk.injEq, true_and, and_true]
  funext i
  rw [compress, ← hvars]
  fin_cases i <;> rfl

/-! ### Texts in pieces -/

variable {sc : Context} {text data : List Byte} {len : Word}

/-- **What the context knows** of the text so far. -/
structure Holds (sc : Context) (text : List Byte) : Prop where
  hash : sc.hash = absorb 64 compress initialHash text
  bufferLength : sc.bufferLength.toNat = (rest 64 text).length
  bytes : (List.ofFn sc.bytes).take (rest 64 text).length = rest 64 text
  totalLength : sc.totalLength = BitVec.ofNat 64 (8 * text.length)

theorem sha256Init_holds (sc : Context) : Holds (sha256Init sc) [] :=
  ⟨by rw [sha256Init_hash, absorb_short _ (by decide)], rfl, rfl, rfl⟩

/-- What is in the buffer, and behind it what is copied. -/
theorem memcpy_eq {n : ℕ} (hfits : sc.bufferLength.toNat + n ≤ 64) (hdata : n ≤ data.length) :
    ∃ bytes, memcpy sc data n = some bytes ∧ (List.ofFn bytes).take (sc.bufferLength.toNat + n) =
      (List.ofFn sc.bytes).take sc.bufferLength.toNat ++ data.take n := by
  refine ⟨_, if_pos ⟨hfits, hdata⟩, ?_⟩
  have hlen : ((List.ofFn sc.bytes).take sc.bufferLength.toNat).length = sc.bufferLength.toNat := by
    rw [List.length_take, List.length_ofFn]
    omega
  refine List.ext_getElem ?_ fun k hk _ => ?_
  · rw [List.length_append, hlen, List.length_take_of_le hdata, List.length_take, List.length_ofFn]
    omega
  · rw [List.length_take, List.length_ofFn] at hk
    rw [List.getElem_take, List.getElem_ofFn]
    by_cases hbefore : k < sc.bufferLength.toNat
    · rw [List.getElem_append_left (hlen.symm ▸ hbefore), List.getElem_take, List.getElem_ofFn,
        if_neg fun hk => absurd hk.1 (not_le.mpr hbefore)]
    · have hn : k - sc.bufferLength.toNat < n := by omega
      rw [List.getElem_append_right (hlen.symm ▸ not_lt.mp hbefore), List.getElem_take]
      simp only [hlen]
      rw [if_pos ⟨not_lt.mp hbefore, by omega⟩, List.getD_eq_getElem _ _ (hn.trans_le hdata)]

/-- **An iteration** of `sha256_update`. -/
theorem updateOnce_holds (h : Holds sc text) (hpos : 0 < len.toNat) (hlen : len.toNat ≤ data.length) :
    ∃ sc' n, updateOnce sc data len = some (sc', n) ∧ 0 < n.toNat ∧ n.toNat ≤ len.toNat ∧
      Holds sc' (text ++ data.take n.toNat) := by
  have hrest := length_rest_lt (n := 64) (by decide) text
  have hleft : (64 - sc.bufferLength).toNat = 64 - (rest 64 text).length := by
    rw [BitVec.toNat_sub_of_le (by rw [BitVec.le_def, h.bufferLength]; exact hrest.le), h.bufferLength]
    rfl
  obtain ⟨n, hn⟩ : ∃ n, n = if len < 64 - sc.bufferLength then len else 64 - sc.bufferLength := ⟨_, rfl⟩
  have hmin : n.toNat = min len.toNat (64 - (rest 64 text).length) := by
    rw [hn, ← hleft]
    split_ifs with hlt
    · exact (min_eq_left (BitVec.lt_def.mp hlt).le).symm
    · exact (min_eq_right (not_lt.mp (mt BitVec.lt_def.mpr hlt))).symm
  have hfits : (rest 64 text).length + n.toNat ≤ 64 := by omega
  obtain ⟨bytes, hcopy, hbytes⟩ : ∃ bytes, memcpy sc data n.toNat = some bytes ∧ _ :=
    memcpy_eq (by rwa [h.bufferLength]) (by omega)
  rw [h.bufferLength, h.bytes] at hbytes
  have hsum : (sc.bufferLength + n).toNat = (rest 64 text).length + n.toNat := by
    rw [BitVec.toNat_add, h.bufferLength]
    omega
  have htaken : (data.take n.toNat).length = n.toNat := List.length_take_of_le (by omega)
  have htotal : sc.totalLength + n.setWidth 64 * 8 = BitVec.ofNat 64 (8 * (text ++ data.take n.toNat).length) := by
    refine BitVec.eq_of_toNat_eq ?_
    rw [h.totalLength, List.length_append, htaken]
    simp only [BitVec.toNat_add, BitVec.toNat_mul, BitVec.toNat_setWidth, BitVec.toNat_ofNat, BitVec.ofNat_eq_ofNat]
    omega
  obtain ⟨filled, hfilled⟩ : ∃ filled : Context, filled = { sc with
      bytes, totalLength := sc.totalLength + n.setWidth 64 * 8, bufferLength := sc.bufferLength + n } := ⟨_, rfl⟩
  by_cases hfull : (rest 64 text).length + n.toNat = 64
  · -- the buffer is full
    have h64 : sc.bufferLength + n = 64 := BitVec.eq_of_toNat_eq (hsum.trans hfull)
    obtain ⟨habsorb, hnil⟩ := absorb_of_eq (f := compress) (l := text) (m := data.take n.toNat) (by decide : 0 < 64)
      initialHash (htaken.symm ▸ hfull)
    have hblock : List.ofFn bytes = rest 64 text ++ data.take n.toNat := by
      rw [← hbytes, hfull, List.take_of_length_le (List.length_ofFn).le]
    refine ⟨{ filled with hash := compress filled.hash (List.ofFn filled.bytes), bufferLength := 0 }, n, ?_, by omega,
      by omega, ?_⟩
    · simp only [updateOnce, ← hn, hcopy, Option.bind_eq_bind, Option.bind_some, ← hfilled]
      rw [if_pos h64, SHA256Guts_eq]
      rfl
    · subst hfilled
      refine ⟨?_, by rw [hnil]; rfl, by rw [hnil]; rfl, htotal⟩
      rw [habsorb, ← h.hash, ← hblock]
  · have h64 : sc.bufferLength + n ≠ 64 := fun heq => hfull (by rw [← hsum, heq]; rfl)
    obtain ⟨habsorb, hgrows⟩ := absorb_of_lt (f := compress) (l := text) (m := data.take n.toNat) (by decide : 0 < 64)
      initialHash (by omega)
    refine ⟨filled, n, ?_, by omega, by omega, ?_⟩
    · simp only [updateOnce, ← hn, hcopy, Option.bind_eq_bind, Option.bind_some, ← hfilled]
      rw [if_neg h64]
      rfl
    · subst hfilled
      refine ⟨?_, ?_, ?_, htotal⟩
      · rw [habsorb]
        exact h.hash
      · rw [hgrows, List.length_append, htaken]
        exact hsum
      · rw [hgrows, List.length_append, htaken]
        exact hbytes

/-- **`sha256_update`** adds to the text. -/
theorem sha256Update_holds (h : Holds sc text) (hlen : len.toNat ≤ data.length) :
    ∃ sc', sha256Update sc data len = some sc' ∧ Holds sc' (text ++ data.take len.toNat) := by
  suffices hloop : ∀ fuel, len.toNat ≤ fuel → ∃ sc', updateLoop fuel sc data len = some sc' ∧
      Holds sc' (text ++ data.take len.toNat) from hloop _ le_rfl
  intro fuel
  induction fuel generalizing sc text data len with
  | zero =>
    intro hfuel
    obtain rfl : len = 0 := BitVec.eq_of_toNat_eq (Nat.le_zero.mp hfuel)
    exact ⟨sc, rfl, by simpa using h⟩
  | succ fuel ih =>
    intro hfuel
    by_cases h0 : len = 0
    · subst h0
      exact ⟨sc, by rw [updateLoop, if_pos rfl], by simpa using h⟩
    · have hpos : 0 < len.toNat := Nat.pos_of_ne_zero fun hz => h0 (BitVec.eq_of_toNat_eq hz)
      obtain ⟨sc1, n, honce, hn, hle, h1⟩ := updateOnce_holds h hpos hlen
      have hsub : (len - n).toNat = len.toNat - n.toNat := BitVec.toNat_sub_of_le (BitVec.le_def.mpr hle)
      obtain ⟨sc', hsc, h'⟩ := @ih sc1 _ (data.drop n.toNat) (len - n) h1
        (by rw [hsub, List.length_drop]; omega) (by omega)
      refine ⟨sc', ?_, ?_⟩
      · simp only [updateLoop, if_neg h0, honce, Option.bind_eq_bind, Option.bind_some, hsc]
      · rw [List.append_assoc, hsub, ← List.take_add, Nat.add_sub_cancel' hle] at h'
        exact h'

/-! ### The end of a text -/

/-- The two words of a number that is put together from them. -/
theorem longBytes_append (u v : Word) :
    longBytes (u.setWidth 64 <<< 32 ||| v.setWidth 64) = wordBytes v ++ wordBytes u := by
  unfold longBytes
  congr 2
  · refine BitVec.eq_of_getLsbD_eq fun i hi => ?_
    interval_cases i <;> simp
  · refine BitVec.eq_of_getLsbD_eq fun i hi => ?_
    interval_cases i <;> simp

theorem wordBytes_swap (w : Word) : wordBytes (swap w) = [byteOf w 3, byteOf w 2, byteOf w 1, byteOf w 0] := by
  obtain ⟨h0, h1, h2, h3⟩ := byteOf_word (byteOf w 3) (byteOf w 2) (byteOf w 1) (byteOf w 0)
  rw [wordBytes, swap, h0, h1, h2, h3]

/-- **The length** as it is hashed. -/
theorem longBytes_length (n : ℕ) : longBytes (BYTESWAP64 (BitVec.ofNat 64 (8 * n))) = lengthBytes n := by
  rw [BYTESWAP64, BYTESWAP_eq, BYTESWAP_eq, longBytes_append, wordBytes_swap, wordBytes_swap]
  have hbyte : ∀ k < 4, byteOf ((BitVec.ofNat 64 (8 * n)).setWidth 32) k = BitVec.ofNat 8 (8 * n / 256 ^ k) ∧
      byteOf ((BitVec.ofNat 64 (8 * n) >>> 32).setWidth 32) k = BitVec.ofNat 8 (8 * n / 256 ^ (k + 4)) := by
    intro k hk
    constructor <;>
    · refine BitVec.eq_of_toNat_eq ?_
      simp only [byteOf, BitVec.extractLsb'_toNat, BitVec.toNat_setWidth, BitVec.toNat_ushiftRight, BitVec.toNat_ofNat,
        Nat.shiftRight_eq_div_pow]
      interval_cases k <;> omega
  rw [(hbyte 0 (by decide)).1, (hbyte 1 (by decide)).1, (hbyte 2 (by decide)).1, (hbyte 3 (by decide)).1,
    (hbyte 0 (by decide)).2, (hbyte 1 (by decide)).2, (hbyte 2 (by decide)).2, (hbyte 3 (by decide)).2]
  rfl

theorem take_padding {k : ℕ} (hk : k < 64) : padding.take (k + 1) = 0x80#8 :: List.replicate k 0#8 := by
  rw [padding, List.take_succ_cons, List.take_replicate, min_eq_left (by omega)]

/-- **`sha256_final`** gives the digest of the text. -/
theorem sha256Final_holds (h : Holds sc text) : ∃ sc', sha256Final sc = some (sc', digest text) := by
  have hrest := h.bufferLength.trans (length_rest text)
  obtain ⟨n, hn⟩ : ∃ n : Word, n = if 64 < 120 - sc.bufferLength then 120 - sc.bufferLength - 64
    else 120 - sc.bufferLength := ⟨_, rfl⟩
  have hzeros : n.toNat = zeros text.length + 1 := by
    have hpad : (120 - sc.bufferLength).toNat = 120 - text.length % 64 := by
      rw [BitVec.toNat_sub_of_le (by rw [BitVec.le_def, hrest]; simp; omega), hrest]
      rfl
    rw [hn, zeros]
    split_ifs with hlong
    · rw [BitVec.toNat_sub_of_le (BitVec.le_of_lt hlong), hpad]
      rw [BitVec.lt_def, hpad] at hlong
      simp at hlong ⊢
      omega
    · rw [BitVec.lt_def, hpad] at hlong
      simp at hlong
      omega
  have hlt : zeros text.length < 64 := Nat.mod_lt _ (by decide)
  have hroom : n.toNat ≤ padding.length := by
    rw [hzeros, padding, List.length_cons, List.length_replicate]
    omega
  obtain ⟨sc1, hupdate, h1⟩ := sha256Update_holds h hroom
  rw [hzeros, take_padding hlt] at h1
  have hbytes : longBytes (BYTESWAP64 sc.totalLength) = lengthBytes text.length := by
    rw [h.totalLength, longBytes_length]
  obtain ⟨sc2, hupdate', h2⟩ := sha256Update_holds h1
    (show (8 : Word).toNat ≤ (lengthBytes text.length).length from le_rfl)
  refine ⟨sc2, ?_⟩
  have hwhole : (lengthBytes text.length).take (8 : Word).toNat = lengthBytes text.length := rfl
  rw [hwhole, List.append_assoc, List.cons_append] at h2
  simp only [sha256Final, ← hn, hupdate, hbytes, hupdate', Option.bind_eq_bind, Option.bind_some, Option.pure_def,
    h2.hash]
  rfl

/-! ### Whole runs -/

/-- `sha256_init`, calls of `sha256_update` each with its own memory and length, and `sha256_final`. -/
def hashPieces (sc : Context) (pieces : List (List Byte × Word)) : Option (Context × List Byte) := do
  sha256Final (← pieces.foldlM (fun sc p => sha256Update sc p.1 p.2) (sha256Init sc))

theorem foldlM_holds (pieces : List (List Byte × Word)) (hlen : ∀ p ∈ pieces, p.2.toNat ≤ p.1.length)
    (h : Holds sc text) : ∃ sc', pieces.foldlM (fun sc p => sha256Update sc p.1 p.2) sc = some sc' ∧
      Holds sc' (text ++ pieces.flatMap fun p => p.1.take p.2.toNat) := by
  induction pieces generalizing sc text with
  | nil => exact ⟨sc, rfl, by rwa [List.flatMap_nil, List.append_nil]⟩
  | cons p pieces ih =>
    obtain ⟨hp, hpieces⟩ := List.forall_mem_cons.mp hlen
    obtain ⟨sc1, hupdate, h1⟩ := sha256Update_holds h hp
    obtain ⟨sc', hfold, h'⟩ := ih hpieces h1
    refine ⟨sc', ?_, by rwa [List.flatMap_cons, ← List.append_assoc]⟩
    rw [List.foldlM_cons, hupdate]
    exact hfold

/-- **However the text is cut into calls**, the hash is the digest of the whole. -/
theorem hashPieces_eq_digest (sc : Context) (pieces : List (List Byte × Word))
    (hlen : ∀ p ∈ pieces, p.2.toNat ≤ p.1.length) :
    (hashPieces sc pieces).map Prod.snd = some (digest (pieces.flatMap fun p => p.1.take p.2.toNat)) := by
  obtain ⟨sc1, hfold, h1⟩ := foldlM_holds pieces hlen (sha256Init_holds sc)
  obtain ⟨sc', hfinal⟩ := sha256Final_holds h1
  rw [List.nil_append] at hfinal
  simp only [hashPieces, hfold, Option.bind_eq_bind, Option.bind_some, hfinal, Option.map_some]

/-- **Two pieces** of a text, in memory that goes on behind the first. -/
theorem hashPieces_eq_digest_two :
    (hashPieces (sha256Init ⟨0#64, fun _ => 0#32, 0#32, fun _ => 0#8⟩) [([97#8, 98#8, 0#8], 2), ([99#8], 1)]).map
      Prod.snd = some (digest [97#8, 98#8, 99#8]) :=
  hashPieces_eq_digest _ _ (by decide)

@[simp] theorem length_digest (m : List Byte) : (digest m).length = 32 := rfl

/-- `get_data_sha` gives the digest. -/
theorem getDataSha_eq (sc : Context) {n : Word} (hlen : n.toNat ≤ data.length) :
    getDataSha sc data n 32 = some (digest (data.take n.toNat)) := by
  obtain ⟨sc1, hupdate, h1⟩ := sha256Update_holds (sha256Init_holds sc) hlen
  obtain ⟨sc', hfinal⟩ := sha256Final_holds h1
  rw [List.nil_append] at hfinal
  simp only [getDataSha, hupdate, hfinal, Option.bind_eq_bind, Option.bind_some, length_digest]
  exact if_pos ⟨by decide, le_rfl⟩

/-- `get_file_sha` gives the digest of a file of less than 2 GiB. -/
theorem getFileSha_eq (sc : Context) {file : List Byte} (hlen : file.length < 2 ^ 31) :
    getFileSha sc file 32 = some (digest file) := by
  have hn : (BitVec.ofNat 32 file.length).toNat = file.length := Nat.mod_eq_of_lt (hlen.trans (by decide))
  have hint : (0 : ℤ) ≤ (BitVec.ofNat 32 file.length).toInt := by
    rw [BitVec.toInt_eq_toNat_of_lt (by omega)]
    exact Int.natCast_nonneg _
  have htake : file.take (BitVec.ofNat 32 file.length).toNat = file := by rw [hn, List.take_length]
  have hdata := getDataSha_eq sc hn.le
  simp only [getFileSha, if_pos hint, htake]
  rwa [htake] at hdata

end CompSys.A4.Sha256
