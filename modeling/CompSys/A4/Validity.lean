import CompSys.Lib.ScanNumbers
import CompSys.A4.ServerRequest

/-! # Addresses and ports as text (`A4/src/common.c`)

`is_valid_ip` and `is_valid_port` read numbers with `sscanf`, which skips white space, takes signs, and does not
look behind the last number; and `string_equal` compares no more characters than its second argument has. So what
they accept is more than the four numbers, the name and the number they are about. `validity_iff` says for which
texts that makes a difference.

A number that is no `int` has no defined result, and on a text of white space the process ends. -/

namespace CompSys.A4.Validity

open CompSys.Lib.ScanNumbers

abbrev dot : Byte := 46#8

/-- `"localhost"`. -/
def localhost : List Byte := [108#8, 111#8, 99#8, 97#8, 108#8, 104#8, 111#8, 115#8, 116#8]

/-! ### The checks -/

/-- How a check ends. -/
inductive Verdict
  | exits
  | undefined
  | returns (valid : Bool)
deriving DecidableEq

/-- `string_equal`: `strncmp` of as many characters as `y` has. -/
def stringEqual (x y : List Byte) : Bool := decide (x.take y.length = y)

/-- What fits an `int`. -/
def IsInt (v : ℤ) : Prop := -2 ^ 31 ≤ v ∧ v < 2 ^ 31

instance (v : ℤ) : Decidable (IsInt v) := inferInstanceAs (Decidable (_ ∧ _))

/-- **`is_valid_ip`**, with the format `"%d.%d.%d.%d"`. -/
def isValidIp (ipString : List Byte) : Verdict :=
  let ip := scan (separated dot 3) ipString
  if ∃ v ∈ ip, ¬ IsInt v then .undefined
  else if ∀ c ∈ ipString, isSpace c = true then .exits
  else if ip.length ≠ 4 then .returns (stringEqual ipString localhost)
  else .returns (ip.all fun v => decide (¬ (v > 255 ∨ v < 0)))

/-- **`is_valid_port`**, with the format `"%d"`. -/
def isValidPort (portString : List Byte) : Verdict :=
  let port := scan (separated dot 0) portString
  if ∃ v ∈ port, ¬ IsInt v then .undefined
  else if ∀ c ∈ portString, isSpace c = true then .exits
  else if port.length ≠ 1 then .returns false
  else .returns (port.all fun v => decide (¬ (v < 0 ∨ v > 65535)))

/-! ### The grammar -/

/-- A decimal number up to a bound. -/
def IsDecimal (bound : ℕ) (s : List Byte) : Prop := s ≠ [] ∧ (∀ c ∈ s, isDigit c = true) ∧ value s ≤ bound

/-- **An address**: the name, or four numbers with single dots between them. -/
def IsAddress (s : List Byte) : Prop :=
  s = localhost ∨ ∃ a b c d, IsDecimal 255 a ∧ IsDecimal 255 b ∧ IsDecimal 255 c ∧ IsDecimal 255 d ∧
    s = a ++ dot :: (b ++ dot :: (c ++ dot :: d))

/-- **A port.** -/
def IsPort (s : List Byte) : Prop := IsDecimal 65535 s

/-- The check returns, and whether it returns non-zero is whether `P` holds. -/
def Decides (verdict : Verdict) (P : Prop) : Prop := ∃ valid, verdict = .returns valid ∧ (valid = true ↔ P)

/-! ### What the checks take for it -/

/-- A row of `count` numbers up to the bound, with what follows. -/
structure Row (count bound : ℕ) (s rest : List Byte) (ns : List Number) : Prop where
  eq : s = row dot rest ns
  ends : EndsNumber rest
  length : ns.length = count
  bounds : ∀ n ∈ ns, 0 ≤ n.value ∧ n.value ≤ bound

/-- **A row that is not made of digits and dots only**, or has something behind it. -/
def Loose (count bound : ℕ) (s : List Byte) : Prop :=
  ∃ rest ns, Row count bound s rest ns ∧ ¬ (rest = [] ∧ ∀ n ∈ ns, n.Plain)

/-- **The name with something behind it.** -/
def LongName (s : List Byte) : Prop := localhost <+: s ∧ s ≠ localhost

/-- **A number that is no `int`**, among the first `count` in a row. -/
def Overflows (count : ℕ) (s : List Byte) : Prop :=
  ∃ rest ns, s = row dot rest ns ∧ EndsNumber rest ∧ ns ≠ [] ∧ ns.length ≤ count ∧ ∃ n ∈ ns, ¬ IsInt n.value

variable {s rest : List Byte} {ns : List Number} {count bound k : ℕ}

theorem isDigit_dot : isDigit dot = false := by decide

/-! ### Rows -/

theorem overflows_iff : (∃ v ∈ scan (separated dot k) s, ¬ IsInt v) ↔ Overflows (k + 1) s := by
  constructor
  · rintro ⟨v, hv, hint⟩
    obtain ⟨ns, rest, hs, hvalues, hend⟩ := scan_separated k s (List.ne_nil_of_mem hv)
    rw [← hvalues, List.mem_map] at hv
    obtain ⟨n, hn, rfl⟩ := hv
    have hlen : (scan (separated dot k) s).length ≤ k + 1 := length_scan_le k s
    rw [← hvalues, List.length_map] at hlen
    exact ⟨rest, ns, hs, hend, List.ne_nil_of_mem hn, hlen, n, hn, hint⟩
  · rintro ⟨rest, ns, rfl, hend, hne, hlen, n, hn, hint⟩
    exact ⟨n.value, (prefix_scan isDigit_dot hend ns k hlen hne).subset (List.mem_map_of_mem hn), hint⟩

/-- **All numbers are assigned, and in bounds**, if and only if the text starts with such a row. -/
theorem all_scan_iff : ((scan (separated dot k) s).length = k + 1 ∧
      ∀ v ∈ scan (separated dot k) s, 0 ≤ v ∧ v ≤ (bound : ℤ)) ↔ ∃ rest ns, Row (k + 1) bound s rest ns := by
  constructor
  · rintro ⟨hlen, hbounds⟩
    have hne : scan (separated dot k) s ≠ [] := by
      rw [ne_eq, ← List.length_eq_zero_iff, hlen]
      exact Nat.succ_ne_zero k
    obtain ⟨ns, rest, hs, hvalues, hend⟩ := scan_separated k s hne
    rw [← hvalues, List.length_map] at hlen
    refine ⟨rest, ns, hs, hend, hlen, fun n hn => hbounds n.value ?_⟩
    rw [← hvalues]
    exact List.mem_map_of_mem hn
  · rintro ⟨rest, ns, rfl, hend, hlen, hbounds⟩
    have hprefix := prefix_scan isDigit_dot hend ns k hlen.le (List.ne_nil_of_length_eq_add_one hlen)
    have heq : ns.map Number.value = scan (separated dot k) (row dot rest ns) := by
      refine hprefix.eq_of_length_le ?_
      rw [List.length_map, hlen]
      exact length_scan_le k _
    rw [← heq, List.length_map]
    refine ⟨hlen, fun v hv => ?_⟩
    obtain ⟨n, hn, rfl⟩ := List.mem_map.mp hv
    exact hbounds n hn

/-- A text that is a row of digits and dots is no other row. -/
theorem not_loose_of_plain (h : Row count bound s [] ns) (hplain : ∀ n ∈ ns, n.Plain) : ¬ Loose count bound s := by
  rintro ⟨rest, ns', h', hloose⟩
  obtain ⟨hrest, htexts⟩ := row_unique isDigit_dot h.ends h'.ends ns ns' (h.length.trans h'.length.symm)
    (h.eq.symm.trans h'.eq)
  refine hloose ⟨hrest.symm, fun n hn => ?_⟩
  have hmem : n.text ∈ ns.map Number.text := by
    rw [htexts]
    exact List.mem_map_of_mem hn
  obtain ⟨m, hm, htext⟩ := List.mem_map.mp hmem
  rw [Number.plain_iff, ← htext]
  exact Number.plain_iff.mp (hplain m hm)

/-- A number of digits only. -/
def plainNumber (digits : List Byte) (h : ∀ c ∈ digits, isDigit c = true) (hne : digits ≠ []) : Number :=
  ⟨[], [], digits, nofun, Or.inl rfl, h, hne⟩

theorem plain_eq {n : Number} (h : n.Plain) (hn : n.value ≤ bound) : n.text = n.digits ∧ IsDecimal bound n.digits := by
  obtain ⟨hblanks, hsign⟩ := h
  refine ⟨by rw [Number.text, hblanks, hsign]; rfl, n.ne, n.digit, ?_⟩
  rw [Number.value, hsign, if_neg (by decide)] at hn
  exact_mod_cast hn

theorem isDecimal_iff : IsDecimal bound s ↔ ∃ ns, Row 1 bound s [] ns ∧ ∀ n ∈ ns, n.Plain := by
  constructor
  · rintro ⟨hne, hdigits, hvalue⟩
    refine ⟨[plainNumber s hdigits hne], ⟨(List.append_nil s).symm, endsNumber_nil, rfl, ?_⟩, ?_⟩
    · rw [List.forall_mem_singleton]
      exact ⟨Int.natCast_nonneg _, Int.ofNat_le.mpr hvalue⟩
    · rw [List.forall_mem_singleton]
      exact ⟨rfl, rfl⟩
  · rintro ⟨ns, h, hplain⟩
    obtain ⟨n, rfl⟩ := List.length_eq_one_iff.mp h.length
    obtain ⟨htext, hdecimal⟩ := plain_eq (hplain n List.mem_cons_self) (h.bounds n List.mem_cons_self).2
    have hs : s = n.text ++ [] := h.eq
    rwa [hs, List.append_nil, htext]

theorem four_iff : (∃ a b c d, IsDecimal 255 a ∧ IsDecimal 255 b ∧ IsDecimal 255 c ∧ IsDecimal 255 d ∧
    s = a ++ dot :: (b ++ dot :: (c ++ dot :: d))) ↔ ∃ ns, Row 4 255 s [] ns ∧ ∀ n ∈ ns, n.Plain := by
  constructor
  · rintro ⟨a, b, c, d, ha, hb, hc, hd, rfl⟩
    obtain ⟨as, hra, hpa⟩ := isDecimal_iff.mp ha
    obtain ⟨bs, hrb, hpb⟩ := isDecimal_iff.mp hb
    obtain ⟨cs, hrc, hpc⟩ := isDecimal_iff.mp hc
    obtain ⟨ds, hrd, hpd⟩ := isDecimal_iff.mp hd
    obtain ⟨na, rfl⟩ := List.length_eq_one_iff.mp hra.length
    obtain ⟨nb, rfl⟩ := List.length_eq_one_iff.mp hrb.length
    obtain ⟨nc, rfl⟩ := List.length_eq_one_iff.mp hrc.length
    obtain ⟨nd, rfl⟩ := List.length_eq_one_iff.mp hrd.length
    refine ⟨[na, nb, nc, nd], ⟨?_, endsNumber_nil, rfl, ?_⟩, ?_⟩
    · rw [hra.eq, hrb.eq, hrc.eq, hrd.eq]
      simp only [row, List.append_nil]
    · simp only [List.forall_mem_cons]
      exact ⟨hra.bounds na List.mem_cons_self, hrb.bounds nb List.mem_cons_self, hrc.bounds nc List.mem_cons_self,
        hrd.bounds nd List.mem_cons_self, List.forall_mem_nil _⟩
    · simp only [List.forall_mem_cons]
      exact ⟨hpa na List.mem_cons_self, hpb nb List.mem_cons_self, hpc nc List.mem_cons_self,
        hpd nd List.mem_cons_self, List.forall_mem_nil _⟩
  · rintro ⟨ns, h, hplain⟩
    obtain ⟨na, nb, nc, nd, rfl⟩ := List.length_eq_four.mp h.length
    have hdecimal : ∀ n ∈ [na, nb, nc, nd], n.text = n.digits ∧ IsDecimal 255 n.digits := fun n hn =>
      plain_eq (hplain n hn) (h.bounds n hn).2
    simp only [List.forall_mem_cons] at hdecimal
    obtain ⟨⟨hta, ha⟩, ⟨htb, hb⟩, ⟨htc, hc⟩, ⟨htd, hd⟩, -⟩ := hdecimal
    refine ⟨na.digits, nb.digits, nc.digits, nd.digits, ha, hb, hc, hd, ?_⟩
    rw [← hta, ← htb, ← htc, ← htd, h.eq]
    simp only [row, List.append_nil]

/-! ### The name -/

/-- On a text that starts like the name nothing is assigned. -/
theorem scan_localhost (t : List Byte) (k : ℕ) : scan (separated dot k) (localhost ++ t) = [] := by
  have hnumber : scanNumber (localhost ++ t) = none := rfl
  cases k with
  | zero => rw [separated, scan, hnumber]
  | succ k => rw [separated, scan, hnumber]

theorem not_row_of_localhost (h : localhost <+: s) : ¬ Row (k + 1) bound s rest ns := by
  obtain ⟨t, rfl⟩ := h
  intro hrow
  have hall := (all_scan_iff (k := k)).mpr ⟨rest, ns, hrow⟩
  rw [scan_localhost] at hall
  exact absurd hall.1 (Nat.succ_ne_zero k).symm

theorem stringEqual_iff : stringEqual s localhost = true ↔ localhost <+: s := by
  rw [stringEqual, decide_eq_true_eq, List.prefix_iff_eq_take]
  exact eq_comm

/-! ### What is accepted -/

theorem not_blank (hblank : ∃ c ∈ s, isSpace c = false) : ¬ ∀ c ∈ s, isSpace c = true := by
  obtain ⟨c, hc, hne⟩ := hblank
  exact fun h => absurd (h c hc) (by simp [hne])

/-- **`is_valid_ip` returns non-zero** for the texts that start with the name, or with four numbers in bounds. -/
theorem isValidIp_eq (hblank : ∃ c ∈ s, isSpace c = false) (hint : ¬ Overflows 4 s) :
    Decides (isValidIp s) ((∃ rest ns, Row 4 255 s rest ns) ∨ localhost <+: s) := by
  rw [← overflows_iff] at hint
  simp only [isValidIp]
  rw [if_neg hint, if_neg (not_blank hblank)]
  by_cases hlen : (scan (separated dot 3) s).length = 4
  · rw [if_neg (not_not.mpr hlen)]
    refine ⟨_, rfl, ?_⟩
    have hname : ¬ localhost <+: s := by
      rintro ⟨t, rfl⟩
      rw [scan_localhost] at hlen
      exact absurd hlen (by decide)
    rw [or_iff_left hname, ← all_scan_iff, and_iff_right hlen, List.all_eq_true]
    refine forall₂_congr fun v _ => ?_
    rw [decide_eq_true_eq]
    push_cast
    omega
  · rw [if_pos hlen]
    refine ⟨_, rfl, ?_⟩
    have hrow : ¬ ∃ rest ns, Row 4 255 s rest ns := fun h => hlen (all_scan_iff.mpr h).1
    rw [or_iff_right hrow, stringEqual_iff]

/-- **`is_valid_port` returns non-zero** for the texts that start with a number in bounds. -/
theorem isValidPort_eq (hblank : ∃ c ∈ s, isSpace c = false) (hint : ¬ Overflows 1 s) :
    Decides (isValidPort s) (∃ rest ns, Row 1 65535 s rest ns) := by
  rw [← overflows_iff] at hint
  simp only [isValidPort]
  rw [if_neg hint, if_neg (not_blank hblank)]
  by_cases hlen : (scan (separated dot 0) s).length = 1
  · rw [if_neg (not_not.mpr hlen)]
    refine ⟨_, rfl, ?_⟩
    rw [← all_scan_iff, and_iff_right hlen, List.all_eq_true]
    refine forall₂_congr fun v _ => ?_
    rw [decide_eq_true_eq]
    push_cast
    omega
  · rw [if_pos hlen]
    exact ⟨_, rfl, iff_of_false Bool.false_ne_true fun h => hlen (all_scan_iff.mpr h).1⟩

/-- With a number that is no `int` nothing is returned. -/
theorem not_decides_of_overflows {P : Prop} : (Overflows 4 s → ¬ Decides (isValidIp s) P) ∧
    (Overflows 1 s → ¬ Decides (isValidPort s) P) := by
  constructor
  · rintro hint ⟨valid, hvalid, -⟩
    rw [← overflows_iff] at hint
    simp only [isValidIp] at hvalid
    rw [if_pos hint] at hvalid
    exact nomatch hvalid
  · rintro hint ⟨valid, hvalid, -⟩
    rw [← overflows_iff] at hint
    simp only [isValidPort] at hvalid
    rw [if_pos hint] at hvalid
    exact nomatch hvalid

theorem Decides.congr {verdict : Verdict} {P Q : Prop} (h : Decides verdict P) : Decides verdict Q ↔ (P ↔ Q) := by
  obtain ⟨valid, rfl, hP⟩ := h
  constructor
  · rintro ⟨valid', hvalid, hQ⟩
    obtain rfl := Verdict.returns.inj hvalid
    exact hP.symm.trans hQ
  · exact fun hPQ => ⟨valid, rfl, hP.trans hPQ⟩

/-- Where all rows are plain, having one is being one. -/
theorem row_iff_plain (hloose : ¬ Loose count bound s) :
    (∃ rest ns, Row count bound s rest ns) ↔ ∃ ns, Row count bound s [] ns ∧ ∀ n ∈ ns, n.Plain := by
  constructor
  · rintro ⟨rest, ns, h⟩
    by_contra hnot
    refine hloose ⟨rest, ns, h, ?_⟩
    rintro ⟨rfl, hplain⟩
    exact hnot ⟨ns, h, hplain⟩
  · rintro ⟨ns, h, -⟩
    exact ⟨[], ns, h⟩

/-- **An address** is judged right but for these texts. -/
theorem ip_iff (hblank : ∃ c ∈ s, isSpace c = false) :
    Decides (isValidIp s) (IsAddress s) ↔ ¬ (Loose 4 255 s ∨ LongName s ∨ Overflows 4 s) := by
  by_cases hint : Overflows 4 s
  · exact iff_of_false (not_decides_of_overflows.1 hint) fun h => h (Or.inr (Or.inr hint))
  rw [(isValidIp_eq hblank hint).congr, IsAddress, four_iff]
  constructor
  · rintro h (hloose | ⟨hname, hne⟩ | h')
    · obtain ⟨rest, ns, hrow, -⟩ := id hloose
      rcases h.mp (Or.inl ⟨rest, ns, hrow⟩) with rfl | ⟨ns', hrow', hplain⟩
      · exact not_row_of_localhost (List.prefix_refl _) hrow
      · exact not_loose_of_plain hrow' hplain hloose
    · rcases h.mp (Or.inr hname) with heq | ⟨ns, hrow, -⟩
      · exact hne heq
      · exact not_row_of_localhost hname hrow
    · exact hint h'
  · intro h
    rw [not_or, not_or] at h
    obtain ⟨hloose, hname, -⟩ := h
    rw [row_iff_plain hloose, or_comm]
    refine or_congr ⟨fun hpre => ?_, fun heq => by rw [heq]⟩ Iff.rfl
    by_contra hne
    exact hname ⟨hpre, hne⟩

/-- **A port** is judged right but for these texts. -/
theorem port_iff (hblank : ∃ c ∈ s, isSpace c = false) :
    Decides (isValidPort s) (IsPort s) ↔ ¬ (Loose 1 65535 s ∨ Overflows 1 s) := by
  by_cases hint : Overflows 1 s
  · exact iff_of_false (not_decides_of_overflows.2 hint) fun h => h (Or.inr hint)
  rw [(isValidPort_eq hblank hint).congr, IsPort, isDecimal_iff]
  constructor
  · rintro h (hloose | h')
    · obtain ⟨rest, ns, hrow, -⟩ := id hloose
      obtain ⟨ns', hrow', hplain⟩ := h.mp ⟨rest, ns, hrow⟩
      exact not_loose_of_plain hrow' hplain hloose
    · exact hint h'
  · exact fun h => row_iff_plain fun hloose => h (Or.inl hloose)

/-- **Validation accepts exactly its grammar** but for these texts: for an address, a row of four numbers with white
space, a sign or something behind it, the name with something behind it, and a row with a number that is no
`int`; for a port, a number like this. -/
theorem validity_iff (hblank : ∃ c ∈ s, isSpace c = false) :
    (Decides (isValidIp s) (IsAddress s) ↔ ¬ (Loose 4 255 s ∨ LongName s ∨ Overflows 4 s)) ∧
      (Decides (isValidPort s) (IsPort s) ↔ ¬ (Loose 1 65535 s ∨ Overflows 1 s)) :=
  ⟨ip_iff hblank, port_iff hblank⟩

/-- Nothing of this is true of the text `1`. -/
theorem validity_one :
    (Decides (isValidIp [49#8]) (IsAddress [49#8]) ↔
      ¬ (Loose 4 255 [49#8] ∨ LongName [49#8] ∨ Overflows 4 [49#8])) ∧
    (Decides (isValidPort [49#8]) (IsPort [49#8]) ↔ ¬ (Loose 1 65535 [49#8] ∨ Overflows 1 [49#8])) :=
  validity_iff ⟨49#8, by decide, by decide⟩

/-- The address `localhosts` and the port `80x`. -/
theorem more_than_the_grammar : ¬ Decides (isValidIp (localhost ++ [115#8])) (IsAddress (localhost ++ [115#8])) ∧
    ¬ Decides (isValidPort [56#8, 48#8, 120#8]) (IsPort [56#8, 48#8, 120#8]) := by
  have hport : Row 1 65535 [56#8, 48#8, 120#8] [120#8] [plainNumber [56#8, 48#8] (by decide) (by decide)] := by
    refine ⟨rfl, ?_, rfl, ?_⟩
    · rintro c hc
      obtain rfl := Option.some.inj hc
      decide
    · rw [List.forall_mem_singleton]
      decide
  refine ⟨fun h => ?_, fun h => ?_⟩
  · exact (ip_iff ⟨108#8, by decide, by decide⟩).mp h (Or.inr (Or.inl ⟨List.prefix_append _ _, by decide⟩))
  · exact (port_iff ⟨56#8, by decide, by decide⟩).mp h
      (Or.inl ⟨_, _, hport, fun hplain => absurd hplain.1 (by decide)⟩)

/-! ### The port of a request -/

theorem digits_eq (acc : ℕ) (s : List Byte) : SendMessage.digits acc s =
    (s.takeWhile isDigit).foldl (fun v c => 10 * v + (c.toNat - 48)) acc := by
  induction s generalizing acc with
  | nil => rfl
  | cons c s ih =>
    rw [SendMessage.digits]
    by_cases hc : 48#8 ≤ c ∧ c ≤ 57#8
    · have hdigit : isDigit c = true := by simpa [isDigit] using hc
      rw [if_pos hc, ih, List.takeWhile_cons_of_pos hdigit, List.foldl_cons]
    · have hdigit : ¬ isDigit c = true := by simpa [isDigit] using hc
      rw [if_neg hc, List.takeWhile_cons_of_neg hdigit, List.foldl_nil]

theorem scanDigits_eq_value (s : List Byte) : ServerRequest.scanDigits s =
    if s.takeWhile isDigit = [] then none else some (value (s.takeWhile isDigit) : ℤ) := by
  rcases s with _ | ⟨c, s⟩
  · rfl
  · rw [ServerRequest.scanDigits, digits_eq]
    by_cases hc : 48#8 ≤ c ∧ c ≤ 57#8
    · have hdigit : isDigit c = true := by simpa [isDigit] using hc
      rw [if_pos hc, List.takeWhile_cons_of_pos hdigit, if_neg (List.cons_ne_nil _ _)]
      rfl
    · have hdigit : ¬ isDigit c = true := by simpa [isDigit] using hc
      rw [if_neg hc, List.takeWhile_cons_of_neg hdigit, if_pos rfl]

/-- **The number of a port** is the one that `sscanf` assigns. -/
theorem scanInt_eq (s : List Byte) : ServerRequest.scanInt s = (scanNumber s).map Prod.fst := by
  have hspace : SendMessage.isSpace = isSpace := rfl
  rw [ServerRequest.scanInt, hspace, scanNumber]
  rcases s.dropWhile isSpace with _ | ⟨c, t⟩
  · rfl
  · simp only [scanSign, scanDigits_eq_value]
    split_ifs <;> simp_all

/-- **Where the number is an `int`**, a request's port is checked like this. -/
theorem isValidPort_returns (hblank : ∃ c ∈ s, isSpace c = false) (hint : ¬ Overflows 1 s) :
    isValidPort s = .returns (ServerRequest.isValidPort s) := by
  rw [← overflows_iff] at hint
  simp only [isValidPort]
  rw [if_neg hint, if_neg (not_blank hblank), ServerRequest.isValidPort, scanInt_eq, separated, scan]
  rcases scanNumber s with _ | ⟨v, rest⟩
  · rfl
  · simp [scan]

end CompSys.A4.Validity
