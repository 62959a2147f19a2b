import CompSys.Lib.Fuel
import Mathlib.Data.Nat.Digits.Defs
import Mathlib.Data.Nat.Digits.Lemmas

/-! # Decimal numbers (`A6/handout/lib.c`)

`uns_to_str` writes the digits from the last one on, with a zero byte behind them, and turns them around in place;
`str_to_uns` adds up digits modulo `2^32`. What the first writes are the digits of Mathlib, turned around
(`unsToStr_holds`), and a string of digits that starts with no needless zero is the text of its value
(`Numeral.chars_eq`). So each of the two undoes the other (`decimal_round_trip`). The number that `uns_to_str` returns
is the length of the text only for `0` (`returned_length_iff`). -/

namespace CompSys.A6.Decimal

open CompSys.Lib.Fuel

abbrev Word := BitVec 32

abbrev Byte := BitVec 8

/-- The bytes of the memory. -/
abbrev Memory := ℕ → Byte

/-! ### `uns_to_str` -/

/-- `while (val)`: the memory, and `ptr` after it. -/
def digitLoop (mem : Memory) (ptr : ℕ) (val : Word) : Memory × ℕ :=
  if val = 0#32 then (mem, ptr)
  else digitLoop (Function.update mem ptr ((val % 10#32 + 48#32).setWidth 8)) (ptr + 1) (val / 10#32)
termination_by val.toNat
decreasing_by
  rw [BitVec.toNat_udiv]
  exact Nat.div_lt_self (Nat.pos_of_ne_zero fun h => ‹¬ val = 0#32› (BitVec.eq_of_toNat_eq h)) (by decide)

/-- `while (ptr > buffer)`. -/
def reverseLoop (mem : Memory) (ptr buffer : ℕ) : Memory :=
  if buffer < ptr then
    let tmp := mem ptr
    let mem := Function.update mem ptr (mem buffer)
    let mem := Function.update mem buffer tmp
    reverseLoop mem (ptr - 1) (buffer + 1)
  else mem
termination_by ptr - buffer

/-- `uns_to_str`: the memory, and what it returns. -/
def unsToStr (mem : Memory) (buffer : ℕ) (val : Word) : Memory × ℕ :=
  if val = 0#32 then
    let mem := Function.update mem buffer 48#8
    (Function.update mem (buffer + 1) 0#8, 1)
  else
    let digits := digitLoop mem buffer val
    let mem := Function.update digits.1 digits.2 0#8
    let ptr := digits.2 - 1
    (reverseLoop mem ptr buffer, ptr - buffer)

/-! ### `str_to_uns` -/

/-- `while (*str)`. -/
def strLoop (mem : Memory) : ℕ → ℕ → Word → Option Word
  | 0, _, _ => none
  | fuel + 1, str, val =>
    if mem str = 0#8 then some val
    else strLoop mem fuel (str + 1) (val * 10#32 + (mem str).setWidth 32 - 48#32)

/-- `str_to_uns`. -/
def strToUns (mem : Memory) (str fuel : ℕ) : Option Word :=
  strLoop mem fuel (str + 1) ((mem str).setWidth 32 - 48#32)

/-! ### Numerals -/

/-- **A decimal number** as it is written: digits, of which the first is `0` only if it is the only one. -/
structure Numeral where
  chars : List Byte
  ne : chars ≠ []
  digits : ∀ c ∈ chars, 48 ≤ c.toNat ∧ c.toNat ≤ 57
  noZero : chars.head ne = 48#8 → chars.length = 1
deriving DecidableEq

/-- The digit a character stands for. -/
def digitOf (c : Byte) : ℕ := c.toNat - 48

/-- The number. -/
def value (chars : List Byte) : ℕ := chars.foldl (fun v c => v * 10 + digitOf c) 0

/-- The string stands at an address, with its zero byte. -/
def Holds (mem : Memory) (str : ℕ) (chars : List Byte) : Prop :=
  ∀ i c, (chars ++ [0#8])[i]? = some c → mem (str + i) = c

variable {mem : Memory} {ptr buffer str n : ℕ} {val : Word} {chars : List Byte}

theorem Holds.tail {c : Byte} (h : Holds mem str (c :: chars)) : Holds mem (str + 1) chars := by
  intro i d hi
  rw [show str + 1 + i = str + (i + 1) by omega]
  exact h (i + 1) d hi

theorem value_eq (chars : List Byte) : value chars = Nat.ofDigits 10 (chars.reverse.map digitOf) := by
  rw [Nat.ofDigits_eq_foldr, List.foldr_map, List.foldr_reverse, value]
  congr 1
  funext v c
  rw [Nat.cast_id]
  omega

/-- The character of a digit. -/
def charOf (d : ℕ) : Byte := BitVec.ofNat 8 (d + 48)

theorem toNat_charOf {d : ℕ} (hd : d < 10) : (charOf d).toNat = d + 48 := by
  rw [charOf, BitVec.toNat_ofNat, Nat.mod_eq_of_lt (by omega)]

theorem charOf_digitOf {c : Byte} (h : 48 ≤ c.toNat ∧ c.toNat ≤ 57) : charOf (digitOf c) = c := by
  apply BitVec.eq_of_toNat_eq
  rw [toNat_charOf (by rw [digitOf]; omega), digitOf]
  omega

theorem digitOf_charOf {d : ℕ} (hd : d < 10) : digitOf (charOf d) = d := by
  rw [digitOf, toNat_charOf hd, Nat.add_sub_cancel]

/-- The text of a number. -/
def text (n : ℕ) : List Byte := if n = 0 then [48#8] else ((Nat.digits 10 n).map charOf).reverse

theorem text_digits (n : ℕ) : ∀ c ∈ text n, 48 ≤ c.toNat ∧ c.toNat ≤ 57 := by
  intro c hc
  unfold text at hc
  split_ifs at hc with hn
  · rw [List.mem_singleton] at hc
    rw [hc]
    decide
  · rw [List.mem_reverse, List.mem_map] at hc
    obtain ⟨d, hd, rfl⟩ := hc
    have hlt := Nat.digits_lt_base (by decide) hd
    rw [toNat_charOf hlt]
    omega

theorem value_text (n : ℕ) : value (text n) = n := by
  unfold text
  split_ifs with hn
  · rw [hn]
    rfl
  · have hdigits : (Nat.digits 10 n).map (digitOf ∘ charOf) = (Nat.digits 10 n).map id :=
      List.map_congr_left fun d hd => digitOf_charOf (Nat.digits_lt_base (by decide) hd)
    rw [value_eq, List.reverse_reverse, List.map_map, hdigits, List.map_id, Nat.ofDigits_digits]

/-- **A numeral is the text of its value.** -/
theorem Numeral.chars_eq (s : Numeral) : s.chars = text (value s.chars) := by
  by_cases hzero : s.chars.head s.ne = 48#8
  · obtain ⟨c, hc⟩ := List.length_eq_one_iff.mp (s.noZero hzero)
    have hc48 : c = 48#8 := by
      simp only [hc, List.head_cons] at hzero
      exact hzero
    rw [hc, hc48]
    rfl
  · have hne : s.chars.reverse.map digitOf ≠ [] := by simpa using s.ne
    have hlast : (s.chars.reverse.map digitOf).getLast hne ≠ 0 := by
      rw [List.getLast_map, List.getLast_reverse]
      intro hdigit
      obtain ⟨hge, hle⟩ := s.digits _ (List.head_mem s.ne)
      rw [digitOf] at hdigit
      exact hzero (BitVec.eq_of_toNat_eq (by rw [show (s.chars.head s.ne).toNat = 48 by omega]; rfl))
    have hdigits : Nat.digits 10 (value s.chars) = s.chars.reverse.map digitOf := by
      rw [value_eq]
      refine Nat.digits_ofDigits 10 (by decide) _ (fun d hd => ?_) fun _ => hlast
      obtain ⟨c, hc, rfl⟩ := List.mem_map.mp hd
      have hc' := s.digits c (List.mem_reverse.mp hc)
      rw [digitOf]
      omega
    have hvalue : value s.chars ≠ 0 := by
      intro h0
      rw [h0, Nat.digits_zero] at hdigits
      exact hne hdigits.symm
    have hchars : (s.chars.reverse).map (charOf ∘ digitOf) = s.chars.reverse.map id :=
      List.map_congr_left fun c hc => charOf_digitOf (s.digits c (List.mem_reverse.mp hc))
    rw [text, if_neg hvalue, hdigits, List.map_map, hchars, List.map_id, List.reverse_reverse]

/-- The numeral of a number. -/
def numeral (n : ℕ) : Numeral where
  chars := text n
  ne := by
    unfold text
    split_ifs with hn
    · exact List.cons_ne_nil _ _
    · rw [Ne, List.reverse_eq_nil_iff, List.map_eq_nil_iff]
      exact Nat.digits_ne_nil_iff_ne_zero.mpr hn
  digits := text_digits n
  noZero := by
    unfold text
    split_ifs with hn
    · exact fun _ => rfl
    · rw [List.head_reverse, List.getLast_map]
      intro hzero
      have hlt := Nat.digits_lt_base (b := 10) (by decide) (List.getLast_mem (Nat.digits_ne_nil_iff_ne_zero.mpr hn))
      have hto := toNat_charOf hlt
      rw [hzero] at hto
      exact absurd (show _ = 0 by have h48 : (48#8).toNat = 48 := rfl; omega) (Nat.getLast_digit_ne_zero 10 hn)

/-! ### Writing -/

/-- **The digits**, from the last one on. -/
theorem digitLoop_spec (mem : Memory) (ptr : ℕ) (val : Word) :
    (digitLoop mem ptr val).2 = ptr + (Nat.digits 10 val.toNat).length ∧
      (∀ i d, (Nat.digits 10 val.toNat)[i]? = some d → (digitLoop mem ptr val).1 (ptr + i) = charOf d) ∧
        ∀ x, x < ptr ∨ ptr + (Nat.digits 10 val.toNat).length ≤ x → (digitLoop mem ptr val).1 x = mem x := by
  induction mem, ptr, val using digitLoop.induct with
  | case1 mem ptr =>
    rw [digitLoop, if_pos rfl]
    exact ⟨rfl, nofun, fun _ _ => rfl⟩
  | case2 mem ptr val hval ih =>
    obtain ⟨hend, hdigits, hframe⟩ := ih
    have hpos : 0 < val.toNat := Nat.pos_of_ne_zero fun h => hval (BitVec.eq_of_toNat_eq h)
    have hdiv : (val / 10#32).toNat = val.toNat / 10 := BitVec.toNat_udiv
    have hchar : (val % 10#32 + 48#32).setWidth 8 = charOf (val.toNat % 10) := by
      apply BitVec.eq_of_toNat_eq
      rw [charOf, BitVec.toNat_setWidth, BitVec.toNat_add, BitVec.toNat_umod, BitVec.toNat_ofNat]
      have hlt : val.toNat % 10 < 10 := Nat.mod_lt _ (by decide)
      norm_num
    rw [hdiv] at hend hdigits hframe
    rw [digitLoop, if_neg hval, Nat.digits_def' (by decide) hpos, List.length_cons]
    refine ⟨by rw [hend]; omega, fun i d hi => ?_, fun x hx => ?_⟩
    · rcases i with _ | i
      · rw [hframe _ (Or.inl (by omega)), Nat.add_zero, Function.update_self, hchar]
        exact congrArg charOf (Option.some.inj hi)
      · rw [show ptr + (i + 1) = ptr + 1 + i by omega]
        exact hdigits i d hi
    · rw [hframe x (by omega), Function.update_of_ne (by omega)]

/-- **Turned around** between `buffer` and `ptr`. -/
theorem reverseLoop_apply (mem : Memory) (ptr buffer x : ℕ) :
    reverseLoop mem ptr buffer x = if buffer ≤ x ∧ x ≤ ptr then mem (buffer + ptr - x) else mem x := by
  induction mem, ptr, buffer using reverseLoop.induct with
  | case1 mem ptr buffer hlt tmp mem1 mem2 ih =>
    have hswap : ∀ y, mem2 y = if y = buffer then mem ptr else if y = ptr then mem buffer else mem y :=
      fun y => by simp only [mem2, mem1, tmp, Function.update_apply]
    rw [reverseLoop, if_pos hlt, ih]
    by_cases hfirst : x = buffer
    · rw [if_neg (by omega), hswap, if_pos hfirst, if_pos (by omega), show buffer + ptr - x = ptr by omega]
    · by_cases hlast : x = ptr
      · rw [if_neg (by omega), hswap, if_neg hfirst, if_pos hlast, if_pos (by omega),
          show buffer + ptr - x = buffer by omega]
      · by_cases hinside : buffer ≤ x ∧ x ≤ ptr
        · rw [if_pos (by omega), hswap, if_neg (by omega), if_neg (by omega), if_pos hinside,
            show buffer + 1 + (ptr - 1) - x = buffer + ptr - x by omega]
        · rw [if_neg (by omega), hswap, if_neg hfirst, if_neg hlast, if_neg hinside]
  | case2 mem ptr buffer hge =>
    rw [reverseLoop, if_neg hge]
    split_ifs with hx
    · rw [show buffer + ptr - x = x by omega]
    · rfl

theorem length_text_of_ne {n : ℕ} (hn : n ≠ 0) : (text n).length = (Nat.digits 10 n).length := by
  rw [text, if_neg hn, List.length_reverse, List.length_map]

/-- **`uns_to_str`** writes the text of the number, and nothing behind its zero byte. -/
theorem unsToStr_holds (mem : Memory) (buffer : ℕ) (val : Word) :
    Holds (unsToStr mem buffer val).1 buffer (text val.toNat) ∧
      ∀ x, x < buffer ∨ buffer + (text val.toNat).length < x → (unsToStr mem buffer val).1 x = mem x := by
  by_cases hval : val = 0#32
  · subst hval
    rw [unsToStr, if_pos rfl]
    refine ⟨fun i c hi => ?_, fun x hx => ?_⟩
    · rcases i with _ | _ | i
      · simp only [Nat.add_zero]
        rw [Function.update_of_ne (by omega), Function.update_self]
        exact Option.some.inj hi
      · simp only [Nat.zero_add]
        rw [Function.update_self]
        exact Option.some.inj hi
      · exact nomatch hi
    · have hlen : (text (0#32).toNat).length = 1 := rfl
      simp only
      rw [Function.update_of_ne (by omega), Function.update_of_ne (by omega)]
  · have hn : val.toNat ≠ 0 := fun h => hval (BitVec.eq_of_toNat_eq h)
    obtain ⟨hend, hdigits, hframe⟩ := digitLoop_spec mem buffer val
    have hpos : 0 < (Nat.digits 10 val.toNat).length := List.length_pos_iff.mpr (Nat.digits_ne_nil_iff_ne_zero.mpr hn)
    have hlen := length_text_of_ne hn
    rw [unsToStr, if_neg hval]
    simp only [hend]
    refine ⟨fun i c hi => ?_, fun x hx => ?_⟩
    · rw [reverseLoop_apply]
      rcases Nat.lt_or_ge i (text val.toNat).length with hlt | hge
      · rw [List.getElem?_append_left hlt, text, if_neg hn, List.getElem?_reverse (by rw [List.length_map]; omega),
          List.length_map, List.getElem?_map, Option.map_eq_some_iff] at hi
        obtain ⟨d, hd, rfl⟩ := hi
        have hplace : buffer + (buffer + (Nat.digits 10 val.toNat).length - 1) - (buffer + i) =
            buffer + ((Nat.digits 10 val.toNat).length - 1 - i) := by omega
        rw [if_pos (by omega), Function.update_of_ne (by omega), hplace]
        exact hdigits _ d hd
      · rw [List.getElem?_append_right hge, List.getElem?_singleton] at hi
        split_ifs at hi with hi0
        rw [if_neg (by omega), show buffer + i = buffer + (Nat.digits 10 val.toNat).length by omega,
          Function.update_self]
        exact Option.some.inj hi
    · rw [reverseLoop_apply, if_neg (by omega), Function.update_of_ne (by omega), hframe x (by omega)]

/-! ### Reading -/

/-- One more digit. -/
def accumulate (val : Word) (c : Byte) : Word := val * 10#32 + c.setWidth 32 - 48#32

theorem accumulate_ofNat {c : Byte} (h : 48 ≤ c.toNat) (v : ℕ) :
    accumulate (BitVec.ofNat 32 v) c = BitVec.ofNat 32 (v * 10 + digitOf c) := by
  have hc : c.setWidth 32 = BitVec.ofNat 32 (digitOf c) + 48#32 := by
    apply BitVec.eq_of_toNat_eq
    have hlt := c.isLt
    rw [BitVec.toNat_setWidth, BitVec.toNat_add, BitVec.toNat_ofNat, BitVec.toNat_ofNat, digitOf]
    omega
  rw [accumulate, hc, ← BitVec.add_assoc, BitVec.add_sub_cancel, BitVec.ofNat_add, BitVec.ofNat_mul]

theorem foldl_accumulate : ∀ (chars : List Byte) (v : ℕ), (∀ c ∈ chars, 48 ≤ c.toNat ∧ c.toNat ≤ 57) →
    chars.foldl accumulate (BitVec.ofNat 32 v) =
      BitVec.ofNat 32 (chars.foldl (fun v c => v * 10 + digitOf c) v)
  | [], _, _ => rfl
  | c :: chars, v, h => by
    rw [List.forall_mem_cons] at h
    rw [List.foldl_cons, List.foldl_cons, accumulate_ofNat h.1.1, foldl_accumulate chars _ h.2]

/-- **The loop** ends at the zero byte. -/
theorem strLoop_yields : ∀ (chars : List Byte) (str : ℕ) (val : Word), (∀ c ∈ chars, 48 ≤ c.toNat ∧ c.toNat ≤ 57) →
    Holds mem str chars → Yields (fun fuel => strLoop mem fuel str val) (chars.foldl accumulate val)
  | [], str, val, _, hholds => by
    have hend : mem str = 0#8 := hholds 0 0#8 rfl
    exact .now rfl fun fuel => by rw [strLoop, if_pos hend, List.foldl_nil]
  | c :: chars, str, val, hdigits, hholds => by
    rw [List.forall_mem_cons] at hdigits
    have hc : mem str = c := hholds 0 c rfl
    have hne : c ≠ 0#8 := by
      rintro rfl
      exact absurd hdigits.1.1 (by decide)
    refine (strLoop_yields chars (str + 1) (accumulate val c) hdigits.2 hholds.tail).next rfl fun fuel => ?_
    rw [strLoop, hc, if_neg hne]
    rfl

/-- **`str_to_uns`** returns the value modulo `2^32`. -/
theorem strToUns_yields (s : Numeral) (h : Holds mem str s.chars) :
    Yields (strToUns mem str) (BitVec.ofNat 32 (value s.chars)) := by
  have digits := s.digits
  rcases hchars : s.chars with _ | ⟨c, chars⟩
  · exact absurd hchars s.ne
  · rw [hchars] at h digits
    rw [List.forall_mem_cons] at digits
    obtain rfl : mem str = c := h 0 c rfl
    have hfirst : (mem str).setWidth 32 - 48#32 = BitVec.ofNat 32 (0 * 10 + digitOf (mem str)) := by
      rw [← accumulate_ofNat digits.1.1, accumulate]
      simp
    have hloop := strLoop_yields chars (str + 1) ((mem str).setWidth 32 - 48#32) digits.2 h.tail
    rw [hfirst, foldl_accumulate chars _ digits.2, ← hfirst] at hloop
    exact hloop

/-- **The round trip.** What `uns_to_str` writes is a numeral, and `str_to_uns` reads the number from it. What
`str_to_uns` reads from a numeral below `2^32`, `uns_to_str` writes as that numeral. -/
theorem decimal_round_trip (mem : Memory) (buffer : ℕ) :
    (∀ val : Word, ∃ s : Numeral, Holds (unsToStr mem buffer val).1 buffer s.chars ∧
      (val = 0#32 → s.chars = [48#8]) ∧ Yields (strToUns (unsToStr mem buffer val).1 buffer) val) ∧
    ∀ (s : Numeral) (str : ℕ), value s.chars < 2 ^ 32 → Holds mem str s.chars →
      ∃ val, Yields (strToUns mem str) val ∧ Holds (unsToStr mem buffer val).1 buffer s.chars := by
  refine ⟨fun val => ?_, fun s str hvalue hholds => ?_⟩
  · have hholds := (unsToStr_holds mem buffer val).1
    have hread := strToUns_yields (numeral val.toNat) hholds
    rw [numeral, value_text, BitVec.ofNat_toNat, BitVec.setWidth_eq] at hread
    exact ⟨numeral val.toNat, hholds, fun h0 => by rw [h0]; rfl, hread⟩
  · refine ⟨_, strToUns_yields s hholds, ?_⟩
    have hwritten := (unsToStr_holds mem buffer (BitVec.ofNat 32 (value s.chars))).1
    rwa [BitVec.toNat_ofNat, Nat.mod_eq_of_lt hvalue, ← s.chars_eq] at hwritten

/-- `40`, read and written over itself. -/
theorem decimal_round_trip_forty :
    ∃ val, Yields (strToUns (fun i => [52#8, 48#8].getD i 0#8) 0) val ∧
      Holds (unsToStr (fun i => [52#8, 48#8].getD i 0#8) 0 val).1 0 [52#8, 48#8] :=
  (decimal_round_trip (fun i => [52#8, 48#8].getD i 0#8) 0).2
    ⟨[52#8, 48#8], by decide, by decide, by decide⟩ 0 (by decide) fun i c hi => by
      rcases i with _ | _ | _ | i
      · exact Option.some.inj hi
      · exact Option.some.inj hi
      · exact Option.some.inj hi
      · exact nomatch hi

/-! ### The length that is returned -/

/-- `strlen`: the string at an address has `n` characters. -/
def StringLength (mem : Memory) (str n : ℕ) : Prop := mem (str + n) = 0#8 ∧ ∀ i < n, mem (str + i) ≠ 0#8

theorem Holds.stringLength_iff (h : Holds mem str chars) (hne : ∀ c ∈ chars, c ≠ 0#8) :
    StringLength mem str n ↔ n = chars.length := by
  have hend : mem (str + chars.length) = 0#8 := h _ _ List.getElem?_concat_length
  have hchar : ∀ i < chars.length, mem (str + i) ≠ 0#8 := by
    intro i hi
    have hmem : (chars ++ [0#8])[i]? = some chars[i] := by
      rw [List.getElem?_append_left hi, List.getElem?_eq_getElem hi]
    rw [h i _ hmem]
    exact hne _ (List.getElem_mem hi)
  constructor
  · rintro ⟨hzero, hbefore⟩
    rcases Nat.lt_trichotomy n chars.length with hlt | heq | hgt
    · exact absurd hzero (hchar n hlt)
    · exact heq
    · exact absurd hend (hbefore _ hgt)
  · rintro rfl
    exact ⟨hend, hchar⟩

/-- `ptr` is at the last digit, not behind it. -/
theorem unsToStr_returns (mem : Memory) (buffer : ℕ) {val : Word} (hval : val ≠ 0#32) :
    (unsToStr mem buffer val).2 = (text val.toNat).length - 1 := by
  have hn : val.toNat ≠ 0 := fun h => hval (BitVec.eq_of_toNat_eq h)
  obtain ⟨hend, -, -⟩ := digitLoop_spec mem buffer val
  rw [unsToStr, if_neg hval, length_text_of_ne hn]
  simp only [hend]
  omega

/-- **What `uns_to_str` returns is the length of the string if and only if the number is `0`.** -/
theorem returned_length_iff (mem : Memory) (buffer : ℕ) (val : Word) :
    StringLength (unsToStr mem buffer val).1 buffer (unsToStr mem buffer val).2 ↔ val = 0#32 := by
  have hne : ∀ c ∈ text val.toNat, c ≠ 0#8 := by
    rintro c hc rfl
    exact absurd (text_digits _ _ hc).1 (by decide)
  rw [(unsToStr_holds mem buffer val).1.stringLength_iff hne]
  by_cases hval : val = 0#32
  · subst hval
    exact iff_of_true rfl rfl
  · have hpos : 0 < (text val.toNat).length := List.length_pos_iff.mpr (numeral val.toNat).ne
    rw [unsToStr_returns mem buffer hval]
    exact iff_of_false (by omega) hval

/-- `7` is one character, and `0` is returned. -/
theorem one_digit : ¬ ∀ (mem : Memory) (buffer : ℕ) (val : Word),
    StringLength (unsToStr mem buffer val).1 buffer (unsToStr mem buffer val).2 := by
  intro hall
  have htext : text (7#32).toNat = [55#8] := rfl
  have hreturned : (unsToStr (fun _ => 0#8) 0 7#32).2 = 0 := by
    rw [unsToStr_returns _ 0 (show 7#32 ≠ 0#32 by decide), htext]
    rfl
  have hfirst : (unsToStr (fun _ => 0#8) 0 7#32).1 (0 + 0) = 55#8 :=
    (unsToStr_holds (fun _ => 0#8) 0 7#32).1 0 55#8 (by rw [htext]; rfl)
  obtain ⟨hzero, -⟩ := hall (fun _ => 0#8) 0 7#32
  rw [hreturned, hfirst] at hzero
  exact absurd hzero (by decide)

end CompSys.A6.Decimal
