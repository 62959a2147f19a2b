import CompSys.A0.FindFormat
import CompSys.A0.Grammar
import CompSys.Lib.Fuel

/-! # The count of multi-byte characters

`count_utf_multiByte_characters` goes back by the number of bytes it expected, not by the number it has read.
Where a character breaks off before its last byte, that is too far, and the loop never ends
(`countLoop_hangs`); at the very start of the file `fseek` fails instead, and two bytes are skipped
(`body`). Otherwise the count is right (`countLoop_yields`), and the stream is back at the start unless the
file ends within a character. -/

namespace CompSys.A0.Counting

open CompSys.Lib.Fuel CompSys.A0.FindFormat CompSys.A0.Grammar

variable {s t : Stream} {m : BitVec 32} {b c x : Grammar.Byte} {k : ℕ} {bytes r : List Grammar.Byte}

/-! ### Bytes -/

theorem not_continuation_iff (c : Grammar.Byte) : c &&& 0xC0#8 ≠ 0x80#8 ↔ ¬ Continuation c := by
  revert c
  decide +kernel

theorem lead_expecting : ∀ c : Grammar.Byte, 0 < expecting c → Lead (expecting c) c := by
  decide +kernel

theorem expecting_lead (h : Lead k c) : expecting c = k := by
  have hall : ∀ c : Grammar.Byte, ∀ k < 4, Lead k c → 0 < expecting c := by decide +kernel
  exact (lead_expecting c (hall c k (Nat.lt_succ_of_le h.le) h)).unique h

theorem expecting_stray (h : Stray c) : expecting c = 0 := by
  by_contra hc
  exact h _ (lead_expecting c (Nat.pos_of_ne_zero hc))

theorem stray_of_expecting (h : expecting c = 0) : Stray c := by
  intro k hk
  have := hk.pos
  rw [expecting_lead hk] at h
  omega

theorem lead_or_stray (c : Grammar.Byte) : (∃ k, Lead k c) ∨ Stray c := by
  rcases Nat.eq_zero_or_pos (expecting c) with h | h
  · exact Or.inr (stray_of_expecting h)
  · exact Or.inl ⟨_, lead_expecting c h⟩

/-! ### Reading -/

/-- The bytes from the position on. -/
def rest (s : Stream) : List Grammar.Byte := s.bytes.drop s.position

/-- The stream `k` bytes further. -/
def forward (s : Stream) (k : ℕ) : Stream := { s with position := s.position + k }

@[simp] theorem forward_fd : (forward s k).fd = s.fd := rfl

@[simp] theorem forward_bytes : (forward s k).bytes = s.bytes := rfl

@[simp] theorem forward_position : (forward s k).position = s.position + k := rfl

@[simp] theorem forward_zero : forward s 0 = s := rfl

@[simp] theorem forward_forward (k l : ℕ) : forward (forward s k) l = forward s (k + l) := by
  simp only [forward, Nat.add_assoc]

@[simp] theorem rest_forward : rest (forward s k) = (rest s).drop k := by
  simp only [rest, forward_bytes, forward_position, List.drop_drop]

theorem getElem?_eq_head? : s.bytes[s.position]? = (rest s).head? := by
  rw [rest, List.head?_drop]

theorem rest_eq_cons {c x : Grammar.Byte} (hc : s.bytes[s.position]? = some c)
    (hx : s.bytes[s.position + 1]? = some x) : ∃ r, rest s = c :: x :: r := by
  obtain ⟨hlt, rfl⟩ := List.getElem?_eq_some_iff.mp hc
  obtain ⟨hlt', rfl⟩ := List.getElem?_eq_some_iff.mp hx
  exact ⟨_, by rw [rest, List.drop_eq_getElem_cons hlt, List.drop_eq_getElem_cons hlt']⟩

theorem getC_nil (h : rest s = []) : protectiveGetC s = (none, s) := by
  unfold protectiveGetC Stream.fgetc
  rw [getElem?_eq_head?, h]
  exact ite_self _

theorem getC_cons (hfd : s.fd ≠ 2) (h : rest s = c :: r) : protectiveGetC s = (some c, forward s 1) := by
  unfold protectiveGetC Stream.fgetc
  rw [getElem?_eq_head?, h, if_neg hfd]
  rfl

theorem rest_forward_one (h : rest s = c :: r) : rest (forward s 1) = r := by
  rw [rest_forward, h, List.drop_one, List.tail_cons]

/-- **How the loop over the expected bytes ends.** -/
theorem readRest_eq (hfd : s.fd ≠ 2) : readRest s k =
    if k ≤ conts (rest s) then .whole (forward s k)
    else if conts (rest s) < (rest s).length then .disproven (forward s (conts (rest s) + 1))
    else .eof (forward s (conts (rest s))) := by
  induction k generalizing s with
  | zero => rw [if_pos (Nat.zero_le _)]; rfl
  | succ k ih =>
    rcases hs : rest s with _ | ⟨x, r⟩
    · simp only [readRest, getC_nil hs]
      rfl
    · simp only [readRest, getC_cons hfd hs]
      by_cases hx : Continuation x
      · rw [if_neg (not_not_intro hx ∘ (not_continuation_iff x).mp), ih (by exact hfd), rest_forward_one hs,
          conts_cons hx, List.length_cons]
        simp only [forward_forward, Nat.add_le_add_iff_right, Nat.add_lt_add_iff_right, Nat.add_comm 1]
      · rw [if_pos ((not_continuation_iff x).mpr hx), conts_cons_eq_zero hx,
          if_neg (Nat.not_succ_le_zero k), List.length_cons, if_pos (Nat.succ_pos _)]

/-! ### One round of the count -/

/-- A byte by itself. -/
theorem countLoop_stray (hfd : s.fd ≠ 2) (h : rest s = c :: r) (hc : Stray c) (fuel : ℕ) :
    countLoop m s (fuel + 1) = countLoop m (forward s 1) fuel := by
  simp only [countLoop, getC_cons hfd h, expecting_stray hc, readRest]
  rfl

/-- A character. -/
theorem countLoop_whole (hfd : s.fd ≠ 2) (h : rest s = c :: r) (hc : Lead k c) (hk : k ≤ conts r) (fuel : ℕ) :
    countLoop m s (fuel + 1) = countLoop (m + 1) (forward s (k + 1)) fuel := by
  simp only [countLoop, getC_cons hfd h, expecting_lead hc]
  rw [readRest_eq (by exact hfd), rest_forward_one h, if_pos hk]
  simp only [if_pos hc.pos, forward_forward, Nat.add_comm 1]

/-- A character that breaks off: it goes back by `k` from behind the byte that is wrong. -/
theorem countLoop_disproven (hfd : s.fd ≠ 2) (h : rest s = c :: r) (hc : Lead k c) (hk : conts r < k)
    (hr : conts r < r.length) (fuel : ℕ) :
    countLoop m s (fuel + 1) = countLoop m ((forward s (conts r + 2)).seekBack k) fuel := by
  simp only [countLoop, getC_cons hfd h, expecting_lead hc]
  rw [readRest_eq (by exact hfd), rest_forward_one h, if_neg (by omega), if_pos hr]
  simp only [forward_forward, Nat.add_comm 1, Nat.add_assoc, Nat.reduceAdd]

/-- A character that the end of the file cuts off. -/
theorem countLoop_eof (hfd : s.fd ≠ 2) (h : rest s = c :: r) (hc : Lead k c) (hk : conts r < k)
    (hr : conts r = r.length) (fuel : ℕ) :
    countLoop m s (fuel + 1) = some (m, forward s (r.length + 1)) := by
  simp only [countLoop, getC_cons hfd h, expecting_lead hc]
  rw [readRest_eq (by exact hfd), rest_forward_one h, if_neg (by omega), if_neg (by omega), hr]
  simp only [forward_forward, Nat.add_comm 1]

theorem countLoop_end (h : rest s = []) (fuel : ℕ) : countLoop m s (fuel + 1) = some (m, s.rewind) := by
  simp only [countLoop, getC_nil h]

theorem seekBack_forward {j : ℕ} (h : k ≤ s.position + j) :
    (forward s j).seekBack k = { s with position := s.position + j - k } := if_pos h

/-! ### A character that breaks off too early -/

/-- The file starts with the lead byte of four, and no continuation byte follows. -/
def SlipsAtStart (bytes : List Grammar.Byte) : Prop :=
  ∃ b x r, bytes = b :: x :: r ∧ Lead 3 b ∧ ¬ Continuation x

/-- The loop stays where it is. -/
theorem hangs_here (hfd : s.fd ≠ 2) (h : rest s = c :: r) (hc : Lead k c) (hk : conts r + 2 = k)
    (hr : conts r < r.length) : Hangs (countLoop m s) := by
  have hround : ∀ fuel, countLoop m s (fuel + 1) = countLoop m s fuel := fun fuel => by
    rw [countLoop_disproven hfd h hc (by omega) hr, hk, seekBack_forward (by omega), Nat.add_sub_cancel]
  refine hangs_of_closed (fun _ _ => rfl) (fun u hu => ⟨s, rfl, ?_⟩) (Eq.refl s)
  rw [← hu]
  exact hround

/-- Between here and `p` there are only lead bytes of four. -/
structure Between (s : Stream) (p : ℕ) (u : Stream) : Prop where
  fd : u.fd = s.fd
  bytes : u.bytes = s.bytes
  le : u.position ≤ p
  lead : ∀ r, u.position < r → r ≤ p → ∃ c, s.bytes[r]? = some c ∧ Lead 3 c

/-- One round between a lead byte of four that is broken off at once and the bytes before it. -/
theorem Between.round {u : Stream} (hfd : s.fd ≠ 2) (hat : s.bytes[s.position]? = some c) (hc : Lead 3 c)
    (hnext : s.bytes[s.position + 1]? = some x) (hx : ¬ Continuation x) (hpos : 0 < s.position)
    (hslip : s.position = 1 → ¬ SlipsAtStart s.bytes) (hu : Between s s.position u) :
    ∃ v, Between s s.position v ∧ ∀ fuel, countLoop m u (fuel + 1) = countLoop m v fuel := by
  obtain ⟨fd, bytes, q⟩ := u
  obtain ⟨rfl, rfl, hq, hlead⟩ := hu
  dsimp only at hq hlead
  have hlen : s.position + 1 < s.bytes.length := (List.getElem?_eq_some_iff.mp hnext).1
  -- the byte behind `q` is a lead byte, or the wrong byte behind `s.position`
  obtain ⟨y, hy, hny⟩ : ∃ y, s.bytes[q + 1]? = some y ∧ ¬ Continuation y := by
    rcases Nat.lt_or_ge q s.position with hlt | hge
    · obtain ⟨y, hy, hl⟩ := hlead (q + 1) (by omega) (by omega)
      exact ⟨y, hy, hl.not_continuation⟩
    · obtain rfl : q = s.position := by omega
      exact ⟨x, hnext, hx⟩
  have hb? : s.bytes[q]? = some s.bytes[q] := List.getElem?_eq_getElem (by omega)
  generalize s.bytes[q] = b at hb?
  obtain ⟨t, ht⟩ := rest_eq_cons (s := { s with position := q }) hb? hy
  have hfd' : ({ s with position := q } : Stream).fd ≠ 2 := hfd
  have hmove : ¬ Lead 3 b → Between s s.position { s with position := q + 1 } := by
    intro hb
    refine ⟨rfl, rfl, ?_, fun r hlt hle => hlead r (by dsimp only at hlt; omega) hle⟩
    by_contra hge
    obtain rfl : q = s.position := by dsimp only at hge; omega
    rw [hat] at hb?
    exact hb (Option.some.inj hb? ▸ hc)
  rcases lead_or_stray b with ⟨k, hb⟩ | hb
  · have hback : ∀ fuel, countLoop m { s with position := q } (fuel + 1) =
        countLoop m ((forward { s with position := q } 2).seekBack k) fuel := fun fuel => by
      have h0 : conts (y :: t) = 0 := conts_cons_eq_zero hny
      rw [countLoop_disproven hfd' ht hb (h0 ▸ hb.pos) (h0 ▸ Nat.succ_pos _), h0]
    have hk := hb.le
    have hk0 := hb.pos
    interval_cases k
    -- two bytes: on to the next byte
    · refine ⟨_, hmove fun hb3 => absurd (hb.unique hb3) (by omega), fun fuel => ?_⟩
      rw [hback fuel, seekBack_forward (by dsimp only; omega)]
      rfl
    -- three bytes: the same byte again
    · refine ⟨{ s with position := q }, ⟨rfl, rfl, hq, hlead⟩, fun fuel => ?_⟩
      rw [hback fuel, seekBack_forward (by dsimp only; omega)]
      rfl
    -- four bytes: one byte back, or two on where `fseek` fails
    · rcases Nat.eq_zero_or_pos q with rfl | hq0
      · have hfail : (forward { s with position := 0 } 2).seekBack 3 = { s with position := 2 } := rfl
        have hne : s.position ≠ 1 := fun h1 => hslip h1 ⟨b, y, t, ht, hb, hny⟩
        refine ⟨{ s with position := 2 }, ⟨rfl, rfl, ?_, ?_⟩, fun fuel => ?_⟩
        · dsimp only
          omega
        · exact fun r hlt hle => hlead r (by dsimp only at hlt; omega) hle
        · rw [hback fuel, hfail]
      · refine ⟨{ s with position := q - 1 }, ⟨rfl, rfl, ?_, fun r hlt hle => ?_⟩, fun fuel => ?_⟩
        · dsimp only
          omega
        · rcases Nat.lt_or_ge q r with hr | hr
          · exact hlead r hr hle
          · obtain rfl : r = q := by dsimp only at hlt; omega
            exact ⟨b, hb?, hb⟩
        · rw [hback fuel, seekBack_forward (by dsimp only; omega)]
          rfl
  · exact ⟨_, hmove fun hb3 => hb 3 hb3, countLoop_stray hfd' ht hb⟩

theorem hangs_before (hfd : s.fd ≠ 2) (h : rest s = c :: x :: r) (hc : Lead 3 c) (hx : ¬ Continuation x)
    (hpos : 0 < s.position) (hslip : s.position = 1 → ¬ SlipsAtStart s.bytes) : Hangs (countLoop m s) := by
  have hat : s.bytes[s.position]? = some c := by rw [getElem?_eq_head?, h]; rfl
  have hnext : s.bytes[s.position + 1]? = some x := by
    have := getElem?_eq_head? (s := forward s 1)
    rwa [rest_forward_one h] at this
  have hstart : Between s s.position s := ⟨rfl, rfl, le_rfl, fun r hlt hle => absurd hle (by omega)⟩
  exact hangs_of_closed (T := Between s s.position) (fun _ _ => rfl)
    (fun u hu => hu.round hfd hat hc hnext hx hpos hslip) hstart

/-- **A character that breaks off** before its last byte is where the loop never gets past. -/
theorem hangs_at (hfd : s.fd ≠ 2) (h : rest s = c :: r) (hbreaks : Breaks (c :: r))
    (hslip : s.position ≤ 1 → ¬ SlipsAtStart s.bytes) : Hangs (countLoop m s) := by
  obtain ⟨k, hc, hk, hr⟩ := hbreaks
  have hk3 := hc.le
  by_cases hk2 : conts r + 2 = k
  · exact hangs_here hfd h hc hk2 hr
  · obtain rfl : k = 3 := by omega
    rcases r with _ | ⟨x, r⟩
    · exact absurd hr (by simp)
    · have hx : ¬ Continuation x := by
        intro hx
        rw [conts_cons hx] at hk hk2
        omega
      have hpos : 0 < s.position := by
        by_contra hzero
        obtain hzero : s.position = 0 := by omega
        refine hslip (by omega) ⟨c, x, r, ?_, hc, hx⟩
        rw [← h, rest, hzero, List.drop_zero]
      exact hangs_before hfd h hc hx hpos fun h1 => hslip h1.le

/-! ### The whole count -/

/-- **The loop hangs** if a character breaks off in the bytes that are left. -/
theorem countLoop_hangs (hfd : s.fd ≠ 2) (h : Somewhere Breaks (rest s))
    (hslip : s.position ≤ 1 → ¬ SlipsAtStart s.bytes) : Hangs (countLoop m s) := by
  induction hn : (rest s).length using Nat.strong_induction_on generalizing s m with
  | _ n ih =>
  subst hn
  rcases hs : rest s with _ | ⟨c, r⟩
  · rw [hs] at h
    exact absurd h (somewhere_nil id)
  rw [hs, somewhere_cons] at h
  by_cases hbreaks : Breaks (c :: r)
  · exact hangs_at hfd hs hbreaks hslip
  replace h := h.resolve_left hbreaks
  have hlen : (rest s).length = r.length + 1 := by rw [hs, List.length_cons]
  have hnext : ∀ k, k ≤ conts r → ∀ m, Hangs (countLoop m (forward s (k + 1))) := by
    intro k hk m
    have hrest : rest (forward s (k + 1)) = r.drop k := by
      rw [rest_forward, hs, List.drop_succ_cons]
    refine ih _ ?_ (by exact hfd) ?_ (fun hle => hslip (by rw [forward_position] at hle; omega)) rfl
    · rw [hrest, hlen, List.length_drop]
      omega
    · rw [hrest]
      exact (somewhere_breaks_drop hk).mp h
  rcases lead_or_stray c with ⟨k, hc⟩ | hc
  · rw [breaks_lead hc] at hbreaks
    by_cases hk : k ≤ conts r
    · exact .next rfl (countLoop_whole hfd hs hc hk) (hnext k hk _)
    rcases Nat.lt_or_ge (conts r) r.length with hr | hr
    · have hk1 : conts r + 1 = k := by omega
      refine .next rfl (fun fuel => ?_) (hnext 0 (Nat.zero_le _) m)
      rw [countLoop_disproven hfd hs hc (by omega) hr, seekBack_forward (by omega)]
      congr 2
      omega
    · -- the file ends in this character, and breaks off nowhere
      have hr' : conts r = r.length := le_antisymm (conts_le r) hr
      rw [somewhere_breaks_drop (le_refl (conts r)), hr', List.drop_length] at h
      exact absurd h (somewhere_nil id)
  · exact .next rfl (countLoop_stray hfd hs hc) (hnext 0 (Nat.zero_le _) m)

/-- The loop ends in `t`: at the start of the file, or at the end if the file ends in a character. -/
structure Counts (m : BitVec 32) (s t : Stream) : Prop where
  yields : Yields (countLoop m s) (m + BitVec.ofNat 32 (characters (rest s)), t)
  fd : t.fd = s.fd
  atEnd : Somewhere Truncated (rest s) → rest t = []
  atStart : ¬ Somewhere Truncated (rest s) → t = s.rewind

/-- A round that moves on behind `k` continuation bytes. -/
theorem Counts.next {m' : BitVec 32} (h : Counts m' (forward s (k + 1)) t) (hs : rest s = c :: r) (hk : k ≤ conts r)
    (htrunc : ¬ Truncated (c :: r)) (hround : ∀ fuel, countLoop m s (fuel + 1) = countLoop m' (forward s (k + 1)) fuel)
    (hm : m' + BitVec.ofNat 32 (characters (r.drop k)) = m + BitVec.ofNat 32 (characters (c :: r))) :
    Counts m s t := by
  have hrest : rest (forward s (k + 1)) = r.drop k := by
    rw [rest_forward, hs, List.drop_succ_cons]
  have hiff : Somewhere Truncated (rest s) ↔ Somewhere Truncated (rest (forward s (k + 1))) := by
    rw [hs, hrest, somewhere_cons, or_iff_right htrunc, somewhere_truncated_drop hk]
  refine ⟨?_, h.fd, fun ht => h.atEnd (hiff.mp ht), fun ht => h.atStart (hiff.not.mp ht)⟩
  have hy := h.yields
  rw [hrest, hm, ← hs] at hy
  exact hy.next rfl hround

/-- **The loop counts the characters** in the bytes that are left if none breaks off. -/
theorem countLoop_yields (hfd : s.fd ≠ 2) (h : ¬ Somewhere Breaks (rest s)) : ∃ t, Counts m s t := by
  induction hn : (rest s).length using Nat.strong_induction_on generalizing s m with
  | _ n ih =>
  subst hn
  rcases hs : rest s with _ | ⟨c, r⟩
  · refine ⟨s.rewind, .now rfl fun fuel => ?_, rfl, fun ht => ?_, fun _ => rfl⟩
    · rw [countLoop_end hs, hs, characters_nil, BitVec.add_zero]
    · rw [hs] at ht
      exact absurd ht (somewhere_nil id)
  rw [hs, somewhere_cons, not_or] at h
  have hnext : ∀ k, k ≤ conts r → ∀ m, ∃ t, Counts m (forward s (k + 1)) t := by
    intro k hk m
    have hrest : rest (forward s (k + 1)) = r.drop k := by
      rw [rest_forward, hs, List.drop_succ_cons]
    refine ih _ ?_ (by exact hfd) ?_ rfl
    · rw [hrest, hs, List.length_drop, List.length_cons]
      omega
    · rw [hrest]
      exact fun hb => h.2 ((somewhere_breaks_drop hk).mpr hb)
  rcases lead_or_stray c with ⟨k, hc⟩ | hc
  · have hbreaks := h.1
    rw [breaks_lead hc] at hbreaks
    by_cases hk : k ≤ conts r
    · obtain ⟨t, ht⟩ := hnext k hk (m + 1)
      refine ⟨t, ht.next hs hk ?_ (countLoop_whole hfd hs hc hk) ?_⟩
      · rw [truncated_lead hc]
        have := conts_le r
        omega
      · rw [characters_lead hc hk, BitVec.ofNat_add, BitVec.add_comm (BitVec.ofNat 32 _), ← BitVec.add_assoc]
        rfl
    have hopens : ¬ Opens (c :: r) := by rwa [opens_lead hc]
    rcases Nat.lt_or_ge (conts r) r.length with hr | hr
    · obtain ⟨t, ht⟩ := hnext 0 (Nat.zero_le _) m
      refine ⟨t, ht.next hs (Nat.zero_le _) ?_ (fun fuel => ?_) ?_⟩
      · rw [truncated_lead hc]
        omega
      · rw [countLoop_disproven hfd hs hc (by omega) hr, seekBack_forward (by omega)]
        congr 2
        omega
      · rw [characters_cons hopens, List.drop_zero]
    · have hr' : conts r = r.length := le_antisymm (conts_le r) hr
      have htrunc : Truncated (c :: r) := (truncated_lead hc).mpr ⟨by omega, hr'⟩
      have hzero : characters (c :: r) = 0 := by
        rw [characters_cons hopens, characters_drop (le_refl (conts r)), hr', List.drop_length, characters_nil]
      refine ⟨forward s (r.length + 1), .now rfl fun fuel => ?_, rfl, fun _ => ?_, fun hnot => ?_⟩
      · rw [countLoop_eof hfd hs hc (by omega) hr', hs, hzero, BitVec.add_zero]
      · rw [rest_forward, hs, List.drop_succ_cons, List.drop_length]
      · rw [hs, somewhere_cons] at hnot
        exact absurd (Or.inl htrunc) hnot
  · obtain ⟨t, ht⟩ := hnext 0 (Nat.zero_le _) m
    refine ⟨t, ht.next hs (Nat.zero_le _) hc.not_truncated (countLoop_stray hfd hs hc) ?_⟩
    rw [characters_cons hc.not_opens, List.drop_zero]

/-! ### From the start of the file -/

/-- What is left to count: where the file slips at its start, its first two bytes are skipped. -/
def body : List Grammar.Byte → List Grammar.Byte
  | b :: x :: bytes => if Lead 3 b ∧ ¬ Continuation x then bytes else b :: x :: bytes
  | bytes => bytes

theorem body_of_not_slips (h : ¬ SlipsAtStart bytes) : body bytes = bytes := by
  rcases bytes with _ | ⟨b, _ | ⟨x, bytes⟩⟩
  · rfl
  · rfl
  · exact if_neg fun hbx => h ⟨b, x, bytes, rfl, hbx⟩

/-- **The count from the start**, one round or none ahead of the loop over `body`. -/
theorem count_start (hfd : s.fd ≠ 2) (hpos : s.position = 0) : ∃ u, rest u = body s.bytes ∧ u.fd ≠ 2 ∧
    u.rewind = s ∧ (u.position ≤ 1 → ¬ SlipsAtStart u.bytes) ∧
    (u = s ∨ ∀ fuel, countLoop m s (fuel + 1) = countLoop m u fuel) := by
  have hrest : rest s = s.bytes := by rw [rest, hpos, List.drop_zero]
  have hrewind : s.rewind = s := by
    obtain ⟨fd, bytes, q⟩ := s
    obtain rfl : q = 0 := hpos
    rfl
  by_cases hslip : SlipsAtStart s.bytes
  · obtain ⟨b, x, r, hbytes, hb, hx⟩ := hslip
    have hs : rest s = b :: x :: r := hrest.trans hbytes
    have h0 : conts (x :: r) = 0 := conts_cons_eq_zero hx
    refine ⟨forward s 2, ?_, hfd, hrewind, ?_, Or.inr fun fuel => ?_⟩
    · rw [rest_forward, hs, hbytes]
      exact (if_pos ⟨hb, hx⟩).symm
    · rw [forward_position, hpos]
      omega
    · have hfail : (forward s 2).seekBack 3 = forward s 2 := if_neg (by rw [forward_position, hpos]; omega)
      rw [countLoop_disproven hfd hs hb (by omega) (h0 ▸ Nat.succ_pos _), h0, hfail]
  · exact ⟨s, by rw [hrest, body_of_not_slips hslip], hfd, hrewind, fun _ => hslip, Or.inl rfl⟩

theorem count_hangs (hfd : s.fd ≠ 2) (hpos : s.position = 0) (h : Somewhere Breaks (body s.bytes)) :
    Hangs (countUtfMultiByteCharacters s) := by
  obtain ⟨u, hrest, hufd, _, hslip, hu⟩ := count_start (m := 0) hfd hpos
  have hhangs := countLoop_hangs (m := 0) hufd (hrest ▸ h) hslip
  rcases hu with rfl | hround
  · exact hhangs
  · exact .next rfl hround hhangs

/-- **What is counted**, and where the stream is then. -/
theorem count_yields (hfd : s.fd ≠ 2) (hpos : s.position = 0) (h : ¬ Somewhere Breaks (body s.bytes)) :
    ∃ t, Yields (countUtfMultiByteCharacters s) (BitVec.ofNat 32 (characters (body s.bytes)), t) ∧ t.fd = s.fd ∧
      (Somewhere Truncated (body s.bytes) → rest t = []) ∧ (¬ Somewhere Truncated (body s.bytes) → t = s) := by
  obtain ⟨u, hrest, hufd, hrewind, _, hu⟩ := count_start (m := 0) hfd hpos
  obtain ⟨t, hyields, htfd, hend, hstart⟩ := countLoop_yields (m := 0) hufd (hrest ▸ h)
  rw [hrest] at hyields hend hstart
  rw [show (0 : BitVec 32) = 0#32 from rfl, BitVec.zero_add] at hyields
  refine ⟨t, ?_, ?_, hend, fun ht => (hstart ht).trans hrewind⟩
  · rcases hu with rfl | hround
    · exact hyields
    · exact .next rfl hround hyields
  · rw [htfd, ← hrewind]
    rfl

end CompSys.A0.Counting
