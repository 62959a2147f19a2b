import Mathlib.Data.List.TakeWhile
import Mathlib.Tactic

/-! # Numbers in formatted input

`scan` is `sscanf` for formats of `%d` and literal characters, with the numbers assigned as its result. What `%d`
takes is a `Number`: white space, a sign and digits, of any length; the caller has to see whether its value is an
`int`. The format of `k + 1` numbers with a separator between them assigns the values of the longest row of numbers
at the start of the text (`scan_separated`, `prefix_scan`). -/

namespace CompSys.Lib.ScanNumbers

abbrev Byte := BitVec 8

/-- `isspace`. -/
def isSpace (c : Byte) : Bool := c = 32#8 || (9#8 ≤ c && c ≤ 13#8)

/-- `isdigit`. -/
def isDigit (c : Byte) : Bool := 48#8 ≤ c && c ≤ 57#8

/-- The value of some digits. -/
def value (s : List Byte) : ℕ := s.foldl (fun v c => 10 * v + (c.toNat - 48)) 0

/-! ### Numbers -/

/-- What `%d` takes. -/
structure Number where
  blanks : List Byte
  sign : List Byte
  digits : List Byte
  blank : ∀ c ∈ blanks, isSpace c = true
  signed : sign = [] ∨ sign = [43#8] ∨ sign = [45#8]
  digit : ∀ c ∈ digits, isDigit c = true
  ne : digits ≠ []

def Number.text (n : Number) : List Byte := n.blanks ++ n.sign ++ n.digits

def Number.value (n : Number) : ℤ :=
  if n.sign = [45#8] then -ScanNumbers.value n.digits else ScanNumbers.value n.digits

/-- Digits only. -/
def Number.Plain (n : Number) : Prop := n.blanks = [] ∧ n.sign = []

/-- No digit goes on. -/
def EndsNumber (s : List Byte) : Prop := ∀ c ∈ s.head?, isDigit c = false

theorem endsNumber_nil : EndsNumber [] := by rintro c ⟨⟩

/-! ### Scanning -/

/-- A sign, if there is one: whether the number is negative, and what follows. -/
def scanSign : List Byte → Bool × List Byte
  | [] => (false, [])
  | c :: s => if c = 45#8 then (true, s) else if c = 43#8 then (false, s) else (false, c :: s)

/-- `%d`: the number, and what follows. -/
def scanNumber (s : List Byte) : Option (ℤ × List Byte) :=
  let signed := scanSign (s.dropWhile isSpace)
  let digits := signed.2.takeWhile isDigit
  if digits = [] then none
  else some (if signed.1 then -value digits else value digits, signed.2.dropWhile isDigit)

/-- A directive of a format. -/
inductive Directive
  | number
  | lit (c : Byte)

/-- **`sscanf`.** -/
def scan : List Directive → List Byte → List ℤ
  | [], _ => []
  | .lit _ :: _, [] => []
  | .lit c :: ds, x :: s => if x = c then scan ds s else []
  | .number :: ds, s =>
    match scanNumber s with
    | none => []
    | some (v, s) => v :: scan ds s

/-- The format of a number, and `k` more, each behind the separator. -/
def separated (sep : Byte) : ℕ → List Directive
  | 0 => [.number]
  | k + 1 => .number :: .lit sep :: separated sep k

/-- A row of numbers, with what follows. -/
def row (sep : Byte) (rest : List Byte) : List Number → List Byte
  | [] => rest
  | [n] => n.text ++ rest
  | n :: ns => n.text ++ sep :: row sep rest ns

variable {s rest : List Byte} {sep c : Byte} {v : ℤ} {k : ℕ} {n : Number} {ns : List Number}

theorem row_cons_cons {m : Number} : row sep rest (n :: m :: ns) = n.text ++ sep :: row sep rest (m :: ns) := rfl

/-! ### One number -/

theorem isDigit_facts (h : isDigit c = true) : isSpace c = false ∧ c ≠ 43#8 ∧ c ≠ 45#8 := by
  have hall : ∀ c : Byte, isDigit c = true → isSpace c = false ∧ c ≠ 43#8 ∧ c ≠ 45#8 := by decide +kernel
  exact hall c h

theorem scanSign_digits (h : ∀ c ∈ s.head?, c ≠ 43#8 ∧ c ≠ 45#8) : scanSign s = (false, s) := by
  rcases s with _ | ⟨c, s⟩
  · rfl
  · obtain ⟨hp, hm⟩ := h c rfl
    rw [scanSign, if_neg hm, if_neg hp]

/-- What a sign leaves. -/
theorem scanSign_eq (s : List Byte) : ∃ sign, (sign = [] ∨ sign = [43#8] ∨ sign = [45#8]) ∧
    s = sign ++ (scanSign s).2 ∧ ((scanSign s).1 = true ↔ sign = [45#8]) := by
  rcases s with _ | ⟨c, s⟩
  · exact ⟨[], Or.inl rfl, rfl, by simp [scanSign]⟩
  · rw [scanSign]
    split_ifs with hm hp
    · exact ⟨[45#8], Or.inr (Or.inr rfl), by rw [hm]; rfl, iff_of_true rfl rfl⟩
    · exact ⟨[43#8], Or.inr (Or.inl rfl), by rw [hp]; rfl, by simp⟩
    · exact ⟨[], Or.inl rfl, rfl, by simp⟩

/-- **What `%d` reads** is a number. -/
theorem scanNumber_sound (h : scanNumber s = some (v, rest)) :
    ∃ n : Number, s = n.text ++ rest ∧ n.value = v ∧ EndsNumber rest := by
  obtain ⟨sign, hsign, hs, hneg⟩ := scanSign_eq (s.dropWhile isSpace)
  simp only [scanNumber, Option.ite_none_left_eq_some, Option.some.injEq, Prod.mk.injEq] at h
  obtain ⟨hne, hv, hrest⟩ := h
  refine ⟨⟨s.takeWhile isSpace, sign, (scanSign (s.dropWhile isSpace)).2.takeWhile isDigit,
    fun c hc => List.mem_takeWhile_imp hc, hsign, fun c hc => List.mem_takeWhile_imp hc, hne⟩, ?_, ?_, ?_⟩
  · rw [Number.text, ← hrest, List.append_assoc, List.append_assoc, List.takeWhile_append_dropWhile, ← hs,
      List.takeWhile_append_dropWhile]
  · rw [← hv, Number.value]
    exact if_congr hneg.symm rfl rfl
  · intro c hc
    have hnot := List.head?_dropWhile_not isDigit (scanSign (s.dropWhile isSpace)).2
    rw [hrest, show rest.head? = some c from hc] at hnot
    simpa using hnot

/-- **A number is read.** -/
theorem scanNumber_complete (n : Number) (hrest : EndsNumber rest) :
    scanNumber (n.text ++ rest) = some (n.value, rest) := by
  obtain ⟨d, ds, hd⟩ := List.exists_cons_of_ne_nil n.ne
  obtain ⟨hspace, hp, hm⟩ := isDigit_facts (n.digit d (by rw [hd]; exact List.mem_cons_self))
  have hblanks : (n.text ++ rest).dropWhile isSpace = n.sign ++ (n.digits ++ rest) := by
    rw [Number.text, List.append_assoc, List.append_assoc, List.dropWhile_append_of_pos n.blank]
    rcases n.signed with h | h | h
    · rw [h, hd, List.nil_append, List.cons_append, List.dropWhile_cons_of_neg (by simp [hspace])]
    · rw [h]
      exact List.dropWhile_cons_of_neg (by decide)
    · rw [h]
      exact List.dropWhile_cons_of_neg (by decide)
  have hsign : scanSign (n.sign ++ (n.digits ++ rest)) = (decide (n.sign = [45#8]), n.digits ++ rest) := by
    rcases n.signed with h | h | h
    · rw [h, List.nil_append, scanSign_digits]
      · rfl
      · rw [hd]
        rintro c hc
        obtain rfl := Option.some.inj hc
        exact ⟨hp, hm⟩
    · rw [h]
      rfl
    · rw [h]
      rfl
  have hend : rest.takeWhile isDigit = [] ∧ rest.dropWhile isDigit = rest := by
    rcases rest with _ | ⟨c, rest⟩
    · exact ⟨rfl, rfl⟩
    · have hc := hrest c rfl
      exact ⟨List.takeWhile_cons_of_neg (by simp [hc]), List.dropWhile_cons_of_neg (by simp [hc])⟩
  have htake : (n.digits ++ rest).takeWhile isDigit = n.digits := by
    rw [List.takeWhile_append_of_pos n.digit, hend.1, List.append_nil]
  have hdrop : (n.digits ++ rest).dropWhile isDigit = rest := by
    rw [List.dropWhile_append_of_pos n.digit, hend.2]
  simp only [scanNumber, hblanks, hsign, htake, hdrop, if_neg n.ne, decide_eq_true_eq]
  rfl

/-! ### A row of numbers -/

/-- **All numbers assigned** stand in a row at the start of the text. -/
theorem scan_separated (k : ℕ) (s : List Byte) (h : scan (separated sep k) s ≠ []) :
    ∃ ns rest, s = row sep rest ns ∧ ns.map Number.value = scan (separated sep k) s ∧ EndsNumber rest := by
  induction k generalizing s with
  | zero =>
    rw [separated, scan] at h ⊢
    rcases hs : scanNumber s with _ | ⟨v, rest⟩
    · rw [hs] at h
      exact absurd rfl h
    · obtain ⟨n, rfl, rfl, hend⟩ := scanNumber_sound hs
      exact ⟨[n], rest, rfl, rfl, hend⟩
  | succ k ih =>
    rw [separated, scan] at h ⊢
    rcases hs : scanNumber s with _ | ⟨v, rest⟩
    · rw [hs] at h
      exact absurd rfl h
    · obtain ⟨n, rfl, rfl, hend⟩ := scanNumber_sound hs
      -- the numbers behind the separator, if there are any
      by_cases hmore : ∃ t, rest = sep :: t ∧ scan (separated sep k) t ≠ []
      · obtain ⟨t, rfl, hne⟩ := hmore
        obtain ⟨ns, rest, rfl, hvalues, hend'⟩ := ih t hne
        obtain ⟨m, ns, rfl⟩ : ∃ m ns', ns = m :: ns' := by
          cases ns with
          | nil => exact absurd hvalues.symm hne
          | cons m ns => exact ⟨m, ns, rfl⟩
        refine ⟨n :: m :: ns, rest, rfl, ?_, hend'⟩
        rw [List.map_cons, hvalues]
        simp only [scan, if_true]
      · refine ⟨[n], rest, rfl, ?_, hend⟩
        rcases rest with _ | ⟨x, t⟩
        · rfl
        · simp only [scan]
          by_cases hx : x = sep
          · subst hx
            have hnone : scan (separated x k) t = [] := by
              by_contra hne
              exact hmore ⟨t, rfl, hne⟩
            rw [if_pos rfl, hnone]
            rfl
          · rw [if_neg hx]
            rfl

/-- **A row of numbers is assigned**, as far as the format goes. -/
theorem prefix_scan (hsep : isDigit sep = false) (hrest : EndsNumber rest) (ns : List Number) (k : ℕ)
    (hlen : ns.length ≤ k + 1) (hne : ns ≠ []) :
    ns.map Number.value <+: scan (separated sep k) (row sep rest ns) := by
  induction ns generalizing k with
  | nil => exact absurd rfl hne
  | cons n ns ih =>
    rcases ns with _ | ⟨m, ns⟩
    · have hscan : ∀ ds, scan (.number :: ds) (row sep rest [n]) = n.value :: scan ds rest := fun ds => by
        rw [scan, row, scanNumber_complete n hrest]
      cases k with
      | zero => exact ⟨_, by rw [separated, hscan]; rfl⟩
      | succ k => exact ⟨_, by rw [separated, hscan]; rfl⟩
    · rw [List.length_cons, List.length_cons] at hlen
      obtain ⟨k, rfl⟩ := Nat.exists_eq_add_of_le' (show 1 ≤ k by omega)
      have hends : EndsNumber (sep :: row sep rest (m :: ns)) := by
        rintro c hc
        obtain rfl := Option.some.inj hc
        exact hsep
      obtain ⟨t, ht⟩ := ih k (by rw [List.length_cons]; omega) (List.cons_ne_nil _ _)
      refine ⟨t, ?_⟩
      rw [row_cons_cons, separated, scan, scanNumber_complete n hends]
      simp only [scan, if_true, ← ht]
      rfl

/-- Digits only, in the text. -/
theorem Number.plain_iff : n.Plain ↔ ∀ c ∈ n.text, isDigit c = true := by
  constructor
  · rintro ⟨hblanks, hsign⟩
    rw [Number.text, hblanks, hsign]
    exact n.digit
  · intro h
    have hfirst : n.blanks = [] := by
      rcases hb : n.blanks with _ | ⟨c, cs⟩
      · rfl
      · have hc : c ∈ n.blanks := by rw [hb]; exact List.mem_cons_self
        have hdigit := h c (List.mem_append_left _ (List.mem_append_left _ hc))
        exact absurd (n.blank c hc) (by simp [(isDigit_facts hdigit).1])
    refine ⟨hfirst, ?_⟩
    rcases n.signed with hs | hs | hs
    · exact hs
    · have hdigit := h 43#8 (List.mem_append_left _ (List.mem_append_right _ (by rw [hs]; exact List.mem_cons_self)))
      exact absurd hdigit (by decide)
    · have hdigit := h 45#8 (List.mem_append_left _ (List.mem_append_right _ (by rw [hs]; exact List.mem_cons_self)))
      exact absurd hdigit (by decide)

/-- **A text is a row in one way only.** -/
theorem row_unique (hsep : isDigit sep = false) {rest' : List Byte} (hrest : EndsNumber rest)
    (hrest' : EndsNumber rest') (ns ns' : List Number) (hlen : ns.length = ns'.length)
    (h : row sep rest ns = row sep rest' ns') : rest = rest' ∧ ns.map Number.text = ns'.map Number.text := by
  have hsepEnds : ∀ t, EndsNumber (sep :: t) := by
    rintro t c hc
    obtain rfl := Option.some.inj hc
    exact hsep
  -- one number, with what follows
  have hone : ∀ (n n' : Number) (r r' : List Byte), EndsNumber r → EndsNumber r' → n.text ++ r = n'.text ++ r' →
      r = r' ∧ n.text = n'.text := by
    intro n n' r r' hr hr' heq
    have hscan := scanNumber_complete n hr
    rw [heq, scanNumber_complete n' hr'] at hscan
    obtain ⟨-, rfl⟩ := Prod.mk.inj (Option.some.inj hscan)
    exact ⟨rfl, List.append_cancel_right heq⟩
  induction ns generalizing ns' with
  | nil =>
    obtain rfl := List.length_eq_zero_iff.mp hlen.symm
    exact ⟨h, rfl⟩
  | cons n ns ih =>
    obtain ⟨n', ns', rfl⟩ := List.exists_cons_of_length_pos (show 0 < ns'.length by rw [← hlen]; exact Nat.succ_pos _)
    rw [List.length_cons, List.length_cons, Nat.succ_inj] at hlen
    rcases ns with _ | ⟨m, ns⟩
    · obtain rfl := List.length_eq_zero_iff.mp hlen.symm
      obtain ⟨rfl, htext⟩ := hone n n' rest rest' hrest hrest' h
      exact ⟨rfl, by rw [List.map_singleton, List.map_singleton, htext]⟩
    · obtain ⟨m', ns', rfl⟩ :=
        List.exists_cons_of_length_pos (show 0 < ns'.length by rw [← hlen]; exact Nat.succ_pos _)
      obtain ⟨htail, htext⟩ := hone n n' _ _ (hsepEnds _) (hsepEnds _) h
      obtain ⟨rfl, htexts⟩ := ih _ hlen (List.cons.inj htail).2
      exact ⟨rfl, congrArg₂ List.cons htext htexts⟩

/-- The format assigns no more numbers than it has. -/
theorem length_scan_le (k : ℕ) (s : List Byte) : (scan (separated sep k) s).length ≤ k + 1 := by
  induction k generalizing s with
  | zero =>
    rw [separated, scan]
    rcases scanNumber s with _ | ⟨v, rest⟩
    · exact Nat.zero_le _
    · exact le_rfl
  | succ k ih =>
    rw [separated, scan]
    rcases scanNumber s with _ | ⟨v, rest⟩
    · exact Nat.zero_le _
    · rcases rest with _ | ⟨x, t⟩
      · exact Nat.succ_le_succ (Nat.zero_le _)
      · simp only [scan]
        split_ifs
        · exact Nat.succ_le_succ (ih t)
        · exact Nat.succ_le_succ (Nat.zero_le _)

end CompSys.Lib.ScanNumbers
