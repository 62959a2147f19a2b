import Mathlib.Tactic
import Mathlib.Data.List.TakeWhile

/-! # Formatted input

`scan` is `sscanf` for formats of white space, literal characters, `%x` and `%s`, with the items assigned as its
result: it stops at the first directive that does not match, and the number of items is what `sscanf` returns
(no item is also the case in which `sscanf` returns `EOF`). A number printed in hexadecimal is read back
(`scan_hex_hexField`), and a word is read up to the next white space (`scan_str_word`). -/

namespace CompSys.Lib.Scanf

/-- A directive of a format. -/
inductive Directive
  | blank
  | lit (c : Char)
  | hex
  | str (width : Option ℕ)
deriving DecidableEq, Repr

/-- An item assigned. -/
inductive Item
  | hex (v : BitVec 32)
  | str (s : List Char)
deriving DecidableEq, Repr

/-- `isspace`. -/
def isSpace (c : Char) : Bool := c == ' ' || (9 ≤ c.toNat && c.toNat ≤ 13)

/-- `s` behind its white space. -/
def skip (s : List Char) : List Char := s.dropWhile isSpace

/-- The value of a hexadecimal digit. -/
def digitValue (c : Char) : Option ℕ :=
  if 48 ≤ c.toNat ∧ c.toNat ≤ 57 then some (c.toNat - 48)
  else if 97 ≤ c.toNat ∧ c.toNat ≤ 102 then some (c.toNat - 87)
  else if 65 ≤ c.toNat ∧ c.toNat ≤ 70 then some (c.toNat - 55)
  else none

/-- `isxdigit`. -/
def isHexDigit (c : Char) : Bool := (digitValue c).isSome

/-- The value of some digits behind others of value `n`. -/
def hexValue (n : ℕ) : List Char → ℕ
  | [] => n
  | c :: s => hexValue (16 * n + (digitValue c).getD 0) s

/-- The sign of a number, and what follows. -/
def scanSign (s : List Char) : Bool × List Char :=
  if s.head? = some '-' then (true, s.tail)
  else if s.head? = some '+' then (false, s.tail)
  else (false, s)

/-- `s` behind `0x`. -/
def skipPrefix (s : List Char) : List Char :=
  if s.head? = some '0' ∧ (s.tail.head? = some 'x' ∨ s.tail.head? = some 'X') then s.drop 2 else s

/-- `%x` behind white space: the number, and what follows. -/
def scanHex (s : List Char) : Option (BitVec 32 × List Char) :=
  let signed := scanSign s
  let digits := (skipPrefix signed.2).takeWhile isHexDigit
  let v := BitVec.ofNat 32 (hexValue 0 digits)
  if digits = [] then none
  else some (if signed.1 then -v else v, (skipPrefix signed.2).dropWhile isHexDigit)

/-- The word at the start of `s`. -/
def word (s : List Char) : List Char := s.takeWhile fun c => !isSpace c

/-- `%s` behind white space: the word, and what follows. -/
def scanStr (width : Option ℕ) (s : List Char) : Option (List Char × List Char) :=
  let t := match width with
    | none => word s
    | some w => (word s).take w
  if t = [] then none else some (t, s.drop t.length)

/-- **`sscanf`.** -/
def scan : List Directive → List Char → List Item
  | [], _ => []
  | .blank :: ds, s => scan ds (skip s)
  | .lit _ :: _, [] => []
  | .lit c :: ds, x :: s => if x = c then scan ds s else []
  | .hex :: ds, s =>
    match scanHex (skip s) with
    | none => []
    | some (v, s) => .hex v :: scan ds s
  | .str width :: ds, s =>
    match scanStr width (skip s) with
    | none => []
    | some (t, s) => .str t :: scan ds s

variable {c : Char} {s t : List Char} {ds : List Directive}

theorem scan_blank : scan (.blank :: ds) s = scan ds (skip s) := rfl

theorem scan_lit : scan (.lit c :: ds) (c :: s) = scan ds s := if_pos rfl

/-! ### White space -/

@[simp] theorem skip_nil : skip [] = [] := rfl

theorem skip_cons (h : isSpace c = true) : skip (c :: s) = skip s := List.dropWhile_cons_of_pos h

theorem skip_of_not (h : isSpace c = false) : skip (c :: s) = c :: s :=
  List.dropWhile_cons_of_neg (by simp [h])

theorem isSpace_blank : ∀ c ∈ [' '], isSpace c = true := by simp [isSpace]

theorem skip_append (h : ∀ c ∈ t, isSpace c = true) : skip (t ++ s) = skip s := by
  induction t with
  | nil => rfl
  | cons c t ih =>
    rw [List.forall_mem_cons] at h
    rw [List.cons_append, skip_cons h.1, ih h.2]

theorem skip_spaces (n : ℕ) : skip (List.replicate n ' ' ++ s) = skip s :=
  skip_append fun _ hc => by rw [List.eq_of_mem_replicate hc]; rfl

@[simp] theorem skip_skip : skip (skip s) = skip s := by
  rcases hs : skip s with _ | ⟨c, t⟩
  · rfl
  · refine skip_of_not (Bool.eq_false_iff.mpr fun h => ?_)
    have hhead := List.head?_dropWhile_not isSpace s
    rw [show s.dropWhile isSpace = c :: t from hs] at hhead
    simp [h] at hhead

/-- Formats of white space and literal characters assign nothing. -/
theorem scan_quiet (h : ∀ d ∈ ds, d = .blank ∨ ∃ c, d = .lit c) (s : List Char) : scan ds s = [] := by
  induction ds generalizing s with
  | nil => rfl
  | cons d ds ih =>
    rw [List.forall_mem_cons] at h
    rcases h.1 with rfl | ⟨c, rfl⟩
    · exact ih h.2 _
    · rcases s with _ | ⟨x, s⟩
      · rfl
      · rw [scan]
        split_ifs
        · exact ih h.2 s
        · rfl

/-! ### Numbers -/

/-- The lower-case digit of a value. -/
def digit (n : ℕ) : Char := if n < 10 then Char.ofNat (48 + n) else Char.ofNat (87 + n)

/-- A number in `width` lower-case hexadecimal digits. -/
def hexField : ℕ → ℕ → List Char
  | 0, _ => []
  | width + 1, n => hexField width (n / 16) ++ [digit (n % 16)]

theorem digit_facts : ∀ n < 16, digitValue (digit n) = some n ∧ digit n ≠ 'x' ∧ digit n ≠ 'X' ∧ digit n ≠ '-' ∧
    digit n ≠ '+' ∧ isSpace (digit n) = false := by decide

theorem isHexDigit_digit {n : ℕ} (h : n < 16) : isHexDigit (digit n) = true := by
  rw [isHexDigit, (digit_facts n h).1]
  rfl

@[simp] theorem length_hexField (width n : ℕ) : (hexField width n).length = width := by
  induction width generalizing n with
  | zero => rfl
  | succ width ih => rw [hexField, List.length_append, ih, List.length_singleton]

theorem mem_hexField {width n : ℕ} (h : c ∈ hexField width n) : ∃ d < 16, c = digit d := by
  induction width generalizing n with
  | zero => exact nomatch h
  | succ width ih =>
    rw [hexField, List.mem_append, List.mem_singleton] at h
    rcases h with h | rfl
    · exact ih h
    · exact ⟨n % 16, Nat.mod_lt _ (by omega), rfl⟩

theorem hexValue_append (n : ℕ) (s t : List Char) : hexValue n (s ++ t) = hexValue (hexValue n s) t := by
  induction s generalizing n with
  | nil => rfl
  | cons c s ih => exact ih _

theorem hexValue_hexField {width n : ℕ} (h : n < 16 ^ width) : hexValue 0 (hexField width n) = n := by
  induction width generalizing n with
  | zero =>
    rw [Nat.pow_zero] at h
    rw [hexField, hexValue]
    omega
  | succ width ih =>
    have hd := (digit_facts (n % 16) (Nat.mod_lt _ (by omega))).1
    rw [hexField, hexValue_append, ih (by rw [Nat.pow_succ] at h; omega), hexValue, hexValue, hd, Option.getD_some]
    omega

/-- What may follow the digits of a number. -/
def EndsNumber (s : List Char) : Prop := ∀ c ∈ s.head?, isHexDigit c = false ∧ c ≠ 'x' ∧ c ≠ 'X'

theorem endsNumber_cons (h : isHexDigit c = false ∧ c ≠ 'x' ∧ c ≠ 'X') : EndsNumber (c :: s) := by
  intro d hd
  obtain rfl := Option.some.inj hd
  exact h

/-- **A printed number is read back.** -/
theorem scanHex_hexField {width n : ℕ} (hw : 0 < width) (hn : n < 16 ^ width) (hs : EndsNumber s) :
    scanHex (hexField width n ++ s) = some (BitVec.ofNat 32 n, s) := by
  have hdigits : ∀ c ∈ hexField width n, isHexDigit c = true := fun c hc => by
    obtain ⟨d, hd, rfl⟩ := mem_hexField hc
    exact isHexDigit_digit hd
  obtain ⟨c, t, ht⟩ := List.exists_cons_of_length_pos (show 0 < (hexField width n).length by
    rwa [length_hexField])
  have hfacts : ∀ c ∈ hexField width n, c ≠ 'x' ∧ c ≠ 'X' ∧ c ≠ '-' ∧ c ≠ '+' := fun c hc => by
    obtain ⟨d, hd, rfl⟩ := mem_hexField hc
    obtain ⟨_, hx, hX, hm, hp, _⟩ := digit_facts d hd
    exact ⟨hx, hX, hm, hp⟩
  have hsign : scanSign (hexField width n ++ s) = (false, hexField width n ++ s) := by
    obtain ⟨_, _, hm, hp⟩ := hfacts c (by rw [ht]; exact List.mem_cons_self)
    rw [scanSign, ht, List.cons_append, List.head?_cons, if_neg fun h => hm (Option.some.inj h),
      if_neg fun h => hp (Option.some.inj h)]
  have hsecond : ∀ x ∈ (t ++ s).head?, x ≠ 'x' ∧ x ≠ 'X' := by
    intro x hx
    rcases t with _ | ⟨y, t⟩
    · exact (hs x hx).2
    · obtain rfl := Option.some.inj hx
      obtain ⟨hx, hX, _⟩ := hfacts y (by rw [ht]; exact List.mem_cons_of_mem _ List.mem_cons_self)
      exact ⟨hx, hX⟩
  have hprefix : skipPrefix (hexField width n ++ s) = hexField width n ++ s := by
    refine if_neg ?_
    rw [ht, List.cons_append, List.tail_cons]
    rintro ⟨_, h | h⟩
    · exact (hsecond _ h).1 rfl
    · exact (hsecond _ h).2 rfl
  have hend : s.takeWhile isHexDigit = [] ∧ s.dropWhile isHexDigit = s := by
    rcases s with _ | ⟨x, s⟩
    · exact ⟨rfl, rfl⟩
    · have hx := (hs x rfl).1
      exact ⟨List.takeWhile_cons_of_neg (by simp [hx]), List.dropWhile_cons_of_neg (by simp [hx])⟩
  have htake : (hexField width n ++ s).takeWhile isHexDigit = hexField width n := by
    rw [List.takeWhile_append_of_pos hdigits, hend.1, List.append_nil]
  have hdrop : (hexField width n ++ s).dropWhile isHexDigit = s := by
    rw [List.dropWhile_append_of_pos hdigits, hend.2]
  have hne : hexField width n ≠ [] := by rw [ht]; exact List.cons_ne_nil _ _
  simp only [scanHex, hsign, hprefix, htake, hdrop, if_neg hne, hexValue_hexField hn, Bool.false_eq_true, if_false]

theorem skip_hexField {width n : ℕ} (hw : 0 < width) : skip (hexField width n ++ s) = hexField width n ++ s := by
  obtain ⟨c, t, ht⟩ := List.exists_cons_of_length_pos (show 0 < (hexField width n).length by
    rwa [length_hexField])
  obtain ⟨d, hd, rfl⟩ := mem_hexField (show c ∈ hexField width n by rw [ht]; exact List.mem_cons_self)
  rw [ht, List.cons_append]
  exact skip_of_not (digit_facts d hd).2.2.2.2.2

/-- **A number behind white space.** -/
theorem scan_hex_hexField {width n : ℕ} (ht : ∀ c ∈ t, isSpace c = true) (hw : 0 < width) (hn : n < 16 ^ width)
    (hs : EndsNumber s) : scan (.hex :: ds) (t ++ (hexField width n ++ s)) = .hex (BitVec.ofNat 32 n) :: scan ds s := by
  rw [scan, skip_append ht, skip_hexField hw, scanHex_hexField hw hn hs]

theorem scan_blank_hex : scan (.blank :: .hex :: ds) s = scan (.hex :: ds) s := by
  rw [scan, scan, scan, skip_skip]

theorem scan_blank_str {width : Option ℕ} : scan (.blank :: .str width :: ds) s = scan (.str width :: ds) s := by
  rw [scan, scan, scan, skip_skip]

theorem endsNumber_of_space (h : ∀ c ∈ s.head?, isSpace c = true) : EndsNumber s := by
  intro c hc
  have hspace := h c hc
  simp only [isSpace, Bool.or_eq_true, beq_iff_eq, Bool.and_eq_true, decide_eq_true_eq] at hspace
  have hnat : c.toNat = 32 ∨ (9 ≤ c.toNat ∧ c.toNat ≤ 13) := by
    rcases hspace with rfl | h
    · exact Or.inl rfl
    · exact Or.inr h
  refine ⟨?_, ?_, ?_⟩
  · rw [isHexDigit, digitValue, if_neg (by omega), if_neg (by omega), if_neg (by omega)]
    rfl
  · rintro rfl
    exact absurd hnat (by decide)
  · rintro rfl
    exact absurd hnat (by decide)

/-- What a number is made of. -/
def InNumber (c : Char) : Prop := isHexDigit c = true ∨ c = 'x' ∨ c = 'X' ∨ c = '+' ∨ c = '-'

theorem scanSign_suffix (s : List Char) : ∃ t, s = t ++ (scanSign s).2 ∧ ∀ c ∈ t, InNumber c := by
  rcases s with _ | ⟨c, s⟩
  · exact ⟨[], rfl, nofun⟩
  rw [scanSign, List.head?_cons, List.tail_cons]
  split_ifs with hm hp
  · obtain rfl := Option.some.inj hm
    exact ⟨['-'], rfl, by simp [InNumber]⟩
  · obtain rfl := Option.some.inj hp
    exact ⟨['+'], rfl, by simp [InNumber]⟩
  · exact ⟨[], rfl, nofun⟩

theorem skipPrefix_suffix (s : List Char) : ∃ t, s = t ++ skipPrefix s ∧ ∀ c ∈ t, InNumber c := by
  rw [skipPrefix]
  split_ifs with h
  · rcases s with _ | ⟨c, _ | ⟨x, s⟩⟩
    · exact absurd h.1 (by simp)
    · exact absurd h.2 (by simp)
    · obtain ⟨h0, hx⟩ := h
      obtain rfl := Option.some.inj h0
      refine ⟨['0', x], rfl, ?_⟩
      simp only [List.mem_cons, List.not_mem_nil, or_false, forall_eq_or_imp, forall_eq]
      refine ⟨Or.inl (by decide), ?_⟩
      rcases hx with hx | hx
      · exact Or.inr (Or.inl (Option.some.inj hx))
      · exact Or.inr (Or.inr (Or.inl (Option.some.inj hx)))
  · exact ⟨[], rfl, nofun⟩

/-- **What `%x` takes**, and where it stops. -/
theorem scanHex_some {v : BitVec 32} (h : scanHex s = some (v, t)) :
    (∃ u, s = u ++ t ∧ ∀ c ∈ u, InNumber c) ∧ ∀ c ∈ t.head?, isHexDigit c = false := by
  simp only [scanHex] at h
  by_cases hdigits : (skipPrefix (scanSign s).2).takeWhile isHexDigit = []
  · rw [if_pos hdigits] at h
    exact nomatch h
  rw [if_neg hdigits] at h
  obtain ⟨-, rfl⟩ := Prod.mk.inj (Option.some.inj h)
  obtain ⟨u1, h1, hu1⟩ := scanSign_suffix s
  obtain ⟨u2, h2, hu2⟩ := skipPrefix_suffix (scanSign s).2
  refine ⟨⟨u1 ++ (u2 ++ (skipPrefix (scanSign s).2).takeWhile isHexDigit), ?_, fun c hc => ?_⟩, fun c hc => ?_⟩
  · rw [List.append_assoc, List.append_assoc, List.takeWhile_append_dropWhile, ← h2, ← h1]
  · rw [List.mem_append, List.mem_append] at hc
    rcases hc with hc | hc | hc
    · exact hu1 c hc
    · exact hu2 c hc
    · exact Or.inl (List.mem_takeWhile_imp hc)
  · have hnot := List.head?_dropWhile_not isHexDigit (skipPrefix (scanSign s).2)
    rw [show List.head? _ = some c from hc] at hnot
    simpa using hnot

/-! ### Words -/

theorem word_append (hs : ∀ c ∈ s, isSpace c = false) (ht : ∀ c ∈ t.head?, isSpace c = true) :
    word (s ++ t) = s := by
  have h : t.takeWhile (fun c => !isSpace c) = [] := by
    rcases t with _ | ⟨c, t⟩
    · rfl
    · exact List.takeWhile_cons_of_neg (by simp [ht c rfl])
  rw [word, List.takeWhile_append_of_pos (by simpa using hs), h, List.append_nil]

/-- **A word behind white space.** -/
theorem scan_str_word (hspace : ∀ c ∈ s, isSpace c = true) (hword : ∀ c ∈ t, isSpace c = false) (hne : t ≠ [])
    {r : List Char} (hr : ∀ c ∈ r.head?, isSpace c = true) :
    scan (.str none :: ds) (s ++ (t ++ r)) = .str t :: scan ds r := by
  have hskip : skip (s ++ (t ++ r)) = t ++ r := by
    obtain ⟨c, t', rfl⟩ := List.exists_cons_of_ne_nil hne
    rw [skip_append hspace]
    exact skip_of_not (hword c List.mem_cons_self)
  have hscan : scanStr none (t ++ r) = some (t, r) := by
    simp only [scanStr, word_append hword hr, if_neg hne, List.drop_left]
  rw [scan, hskip, hscan]

/-- No word behind white space. -/
theorem scan_str_nil {width : Option ℕ} (hspace : ∀ c ∈ s, isSpace c = true) : scan (.str width :: ds) s = [] := by
  have hskip : skip s = [] := by
    have := skip_append (s := []) hspace
    rwa [List.append_nil] at this
  rcases width with _ | w
  · rw [scan, hskip]
    rfl
  · rw [scan, hskip]
    have hscan : scanStr (some w) [] = none := by simp [scanStr, word]
    rw [hscan]

/-- The first `n` words. -/
def words : ℕ → List Char → List (List Char)
  | 0, _ => []
  | n + 1, s =>
    if word (skip s) = [] then []
    else word (skip s) :: words n ((skip s).drop (word (skip s)).length)

/-- **Some `%s`** read the first words, if nothing behind them is assigned. -/
theorem scan_words (hds : ∀ s, scan ds s = []) (n : ℕ) (s : List Char) :
    scan (List.replicate n (.str none) ++ ds) s = (words n s).map .str := by
  induction n generalizing s with
  | zero => exact hds s
  | succ n ih =>
    rw [List.replicate_succ, List.cons_append, scan, words, scanStr]
    by_cases hword : word (skip s) = []
    · rw [if_pos hword, if_pos hword]
      rfl
    · rw [if_neg hword, if_neg hword]
      exact congrArg _ (ih _)

/-! ### The length of what is read -/

theorem scanStr_width {w : ℕ} {r : List Char} (h : scanStr (some w) s = some (t, r)) : t.length ≤ w := by
  simp only [scanStr, Option.ite_none_left_eq_some, Option.some.injEq, Prod.mk.injEq] at h
  obtain ⟨-, rfl, -⟩ := h
  exact List.length_take_le _ _

/-- **`%s` with a width** reads no more characters. -/
theorem scan_widths (ws : List ℕ) (s : List Char) :
    ∃ strings, scan (ws.flatMap fun w => [.blank, .str (some w)]) s = strings.map .str ∧
      List.Forall₂ (fun t w => t.length ≤ w) strings (ws.take strings.length) := by
  induction ws generalizing s with
  | nil => exact ⟨[], rfl, .nil⟩
  | cons w ws ih =>
    rw [List.flatMap_cons, List.cons_append, scan_blank, List.singleton_append, scan]
    rcases hstr : scanStr (some w) (skip (skip s)) with _ | ⟨t, r⟩
    · exact ⟨[], rfl, .nil⟩
    · obtain ⟨strings, hscan, hwidths⟩ := ih r
      exact ⟨t :: strings, congrArg _ hscan, .cons (scanStr_width hstr) hwidths⟩

theorem length_skip_le (s : List Char) : (skip s).length ≤ s.length := (List.dropWhile_suffix _).length_le

theorem length_scanHex {v : BitVec 32} (h : scanHex s = some (v, t)) : t.length ≤ s.length := by
  obtain ⟨⟨u, rfl, _⟩, _⟩ := scanHex_some h
  rw [List.length_append]
  omega

theorem length_scanStr {width : Option ℕ} {r : List Char} (h : scanStr width s = some (t, r)) :
    t.length ≤ s.length ∧ r.length ≤ s.length := by
  have hword : (word s).length ≤ s.length := (List.takeWhile_prefix _).length_le
  have hlen : t.length ≤ (word s).length ∧ r = s.drop t.length := by
    simp only [scanStr, Option.ite_none_left_eq_some, Option.some.injEq, Prod.mk.injEq] at h
    obtain ⟨-, rfl, rfl⟩ := h
    rcases width with _ | w
    · exact ⟨le_rfl, rfl⟩
    · exact ⟨(List.take_prefix _ _).length_le, rfl⟩
  obtain ⟨hlen, rfl⟩ := hlen
  exact ⟨hlen.trans hword, by rw [List.length_drop]; exact Nat.sub_le _ _⟩

/-- **No string is longer than the input.** -/
theorem length_of_mem_scan (ds : List Directive) (s : List Char) (h : .str t ∈ scan ds s) : t.length ≤ s.length := by
  induction ds, s using scan.induct with
  | case1 s => exact nomatch h
  | case2 ds s ih => exact (ih h).trans (length_skip_le s)
  | case3 => exact nomatch h
  | case4 ds c s ih =>
    rw [scan_lit] at h
    exact (ih h).trans (Nat.le_succ _)
  | case5 c ds x s hne =>
    rw [scan, if_neg hne] at h
    exact nomatch h
  | case6 ds s hnone =>
    rw [scan, hnone] at h
    exact nomatch h
  | case7 ds s v r hsome ih =>
    rw [scan, hsome] at h
    have hr := (length_scanHex hsome).trans (length_skip_le s)
    exact (ih ((List.mem_cons.mp h).resolve_left nofun)).trans hr
  | case8 width ds s hnone =>
    rw [scan, hnone] at h
    exact nomatch h
  | case9 width ds s u r hsome ih =>
    rw [scan, hsome] at h
    obtain ⟨hu, hr⟩ := length_scanStr hsome
    have hskip := length_skip_le s
    rcases List.mem_cons.mp h with h | h
    · injection h with h
      exact h ▸ hu.trans hskip
    · exact (ih h).trans (hr.trans hskip)

/-- The directive assigns an item. -/
def Directive.assigns : Directive → Bool
  | .hex => true
  | .str _ => true
  | _ => false

/-- **There is one item for each directive that assigns, at most.** -/
theorem length_scan_le (ds : List Directive) (s : List Char) : (scan ds s).length ≤ ds.countP Directive.assigns := by
  induction ds, s using scan.induct with
  | case1 s => exact Nat.le_refl 0
  | case2 ds s ih => exact ih.trans (List.countP_cons_of_neg (by decide)).ge
  | case3 => exact Nat.zero_le _
  | case4 ds c s ih =>
    rw [scan_lit]
    exact ih.trans (List.countP_cons_of_neg (Bool.false_ne_true)).ge
  | case5 c ds x s hne =>
    rw [scan, if_neg hne]
    exact Nat.zero_le _
  | case6 ds s hnone =>
    rw [scan, hnone]
    exact Nat.zero_le _
  | case7 ds s v r hsome ih =>
    rw [scan, hsome, List.length_cons, List.countP_cons_of_pos rfl]
    exact Nat.succ_le_succ ih
  | case8 width ds s hnone =>
    rw [scan, hnone]
    exact Nat.zero_le _
  | case9 width ds s u r hsome ih =>
    rw [scan, hsome, List.length_cons, List.countP_cons_of_pos rfl]
    exact Nat.succ_le_succ ih

end CompSys.Lib.Scanf
