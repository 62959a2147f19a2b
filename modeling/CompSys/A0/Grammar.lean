import Mathlib.Tactic

/-! # Texts and characters

What a file is, by its bytes alone (`Classified`): the grammar of texts of single bytes and multi-byte
characters (`Chars`), and the places where a multi-byte character stands (`Opens`), is cut off by the end of
the file (`Truncated`) or is broken off before its last byte (`Breaks`). At one place at most one of these
holds; none of them starts at a continuation byte. -/

namespace CompSys.A0.Grammar

abbrev Byte := BitVec 8

/-- The lead byte of a character with `k` more bytes: `110xxxxx`, `1110xxxx`, `11110xxx`. -/
def Lead : ℕ → Byte → Prop
  | 1, b => b >>> 5 = 0b110#8
  | 2, b => b >>> 4 = 0b1110#8
  | 3, b => b >>> 3 = 0b11110#8
  | _, _ => False

/-- A continuation byte: `10xxxxxx`. -/
def Continuation (b : Byte) : Prop := b >>> 6 = 0b10#8

/-- A text byte. -/
def Text (b : Byte) : Prop :=
  (0x07 ≤ b.toNat ∧ b.toNat ≤ 0x0D) ∨ b.toNat = 0x1B ∨ (0x20 ≤ b.toNat ∧ b.toNat ≤ 0x7E)

/-- A byte of an ISO text. -/
def IsoText (b : Byte) : Prop := Text b ∨ 0xA0 ≤ b.toNat

/-- No lead byte. -/
def Stray (b : Byte) : Prop := ∀ k, ¬ Lead k b

instance (b : Byte) : Decidable (Continuation b) := inferInstanceAs (Decidable (_ = _))

instance (b : Byte) : Decidable (Text b) := inferInstanceAs (Decidable (_ ∨ _))

instance (b : Byte) : Decidable (IsoText b) := inferInstanceAs (Decidable (_ ∨ _))

instance : ∀ (k : ℕ) (b : Byte), Decidable (Lead k b)
  | 0, _ => inferInstanceAs (Decidable False)
  | 1, _ => inferInstanceAs (Decidable (_ = _))
  | 2, _ => inferInstanceAs (Decidable (_ = _))
  | 3, _ => inferInstanceAs (Decidable (_ = _))
  | _ + 4, _ => inferInstanceAs (Decidable False)

/-- **A sequence of single bytes and multi-byte characters.** -/
inductive Chars (single : Byte → Prop) : List Byte → Prop
  | nil : Chars single []
  | single {b : Byte} {bytes : List Byte} (hb : single b) (h : Chars single bytes) : Chars single (b :: bytes)
  | char {k : ℕ} {b : Byte} {cs bytes : List Byte} (hb : Lead k b) (hlen : cs.length = k)
      (hcs : ∀ c ∈ cs, Continuation c) (h : Chars single bytes) : Chars single (b :: (cs ++ bytes))

variable {single : Byte → Prop} {b : Byte} {k : ℕ} {bytes cs rest : List Byte}

/-! ### Bytes -/

theorem Lead.unique {k l : ℕ} (hk : Lead k b) (hl : Lead l b) : k = l := by
  have h : ∀ b : Byte, ∀ k < 4, ∀ l < 4, Lead k b → Lead l b → k = l := by decide +kernel
  have hlt : ∀ m, Lead m b → m < 4 := by
    rintro (_ | _ | _ | _ | m) hm
    · omega
    · omega
    · omega
    · omega
    · exact hm.elim
  exact h b k (hlt k hk) l (hlt l hl) hk hl

theorem Lead.pos (h : Lead k b) : 0 < k := by
  rcases k with _ | k
  · exact h.elim
  · omega

theorem Lead.le (h : Lead k b) : k ≤ 3 := by
  by_contra hk
  obtain ⟨m, rfl⟩ := Nat.exists_eq_add_of_le' (show 4 ≤ k by omega)
  exact h.elim

theorem Lead.not_continuation (h : Lead k b) : ¬ Continuation b := by
  have hall : ∀ b : Byte, ∀ k < 4, Lead k b → ¬ Continuation b := by decide +kernel
  exact hall b k (by have := h.le; omega) h

theorem Lead.not_text (h : Lead k b) : ¬ Text b := by
  have hall : ∀ b : Byte, ∀ k < 4, Lead k b → ¬ Text b := by decide +kernel
  exact hall b k (by have := h.le; omega) h

theorem Text.stray (h : Text b) : Stray b := fun _ hl => hl.not_text h

theorem Continuation.stray (h : Continuation b) : Stray b := fun _ hl => hl.not_continuation h

/-! ### Continuation bytes in front -/

/-- The number of continuation bytes in front. -/
def conts : List Byte → ℕ
  | [] => 0
  | c :: rest => if Continuation c then conts rest + 1 else 0

@[simp] theorem conts_nil : conts [] = 0 := rfl

theorem conts_cons (h : Continuation b) : conts (b :: rest) = conts rest + 1 := if_pos h

@[simp] theorem conts_cons_eq_zero (h : ¬ Continuation b) : conts (b :: rest) = 0 := if_neg h

theorem conts_le : ∀ rest : List Byte, conts rest ≤ rest.length
  | [] => le_rfl
  | c :: rest => by
    have ih := conts_le rest
    by_cases hc : Continuation c
    · rw [conts_cons hc, List.length_cons]
      omega
    · rw [conts_cons_eq_zero hc]
      omega

theorem le_conts_append : ∀ {cs : List Byte}, (∀ c ∈ cs, Continuation c) → cs.length ≤ conts (cs ++ rest)
  | [], _ => Nat.zero_le _
  | c :: cs, h => by
    rw [List.forall_mem_cons] at h
    rw [List.cons_append, conts_cons h.1, List.length_cons]
    exact Nat.succ_le_succ (le_conts_append h.2)

theorem continuation_of_mem_take : ∀ {k : ℕ} {rest : List Byte}, k ≤ conts rest →
    ∀ c ∈ rest.take k, Continuation c
  | 0, _, _, _, hc => by simp at hc
  | _ + 1, [], hk, _, _ => by simp at hk
  | k + 1, x :: rest, hk, c, hc => by
    have hx : Continuation x := by
      by_contra hx
      rw [conts_cons_eq_zero hx] at hk
      omega
    rw [conts_cons hx] at hk
    rw [List.take_succ_cons, List.mem_cons] at hc
    rcases hc with rfl | hc
    · exact hx
    · exact continuation_of_mem_take (Nat.le_of_succ_le_succ hk) c hc

/-! ### Sequences of characters -/

theorem chars_stray (h : Stray b) : Chars single (b :: rest) ↔ single b ∧ Chars single rest := by
  constructor
  · rintro (_ | ⟨hb, hrest⟩ | ⟨hb, _, _, _⟩)
    · exact ⟨hb, hrest⟩
    · exact absurd hb (h _)
  · rintro ⟨hb, hrest⟩
    exact .single hb hrest

theorem chars_lead (hl : Lead k b) (hb : ¬ single b) :
    Chars single (b :: rest) ↔ k ≤ conts rest ∧ Chars single (rest.drop k) := by
  constructor
  · intro h
    generalize hlist : b :: rest = bytes at h
    cases h with
    | nil => exact nomatch hlist
    | single hb' _ =>
      obtain ⟨rfl, rfl⟩ := List.cons.inj hlist
      exact absurd hb' hb
    | char hl' hlen hcs htail =>
      obtain ⟨rfl, rfl⟩ := List.cons.inj hlist
      obtain rfl := hl'.unique hl
      rw [← hlen, List.drop_left]
      exact ⟨le_conts_append hcs, htail⟩
  · rintro ⟨hk, htail⟩
    have hlen : (rest.take k).length = k := by
      have := conts_le rest
      rw [List.length_take]
      omega
    have h := Chars.char hl hlen (continuation_of_mem_take hk) htail
    rwa [List.take_append_drop] at h

theorem Chars.mono {other : Byte → Prop} (h : ∀ b, single b → other b) (hc : Chars single bytes) :
    Chars other bytes := by
  induction hc with
  | nil => exact .nil
  | single hb _ ih => exact .single (h _ hb) ih
  | char hb hlen hcs _ ih => exact .char hb hlen hcs ih

/-- Without lead bytes every byte is by itself. -/
theorem chars_iff_of_stray (h : ∀ b ∈ bytes, Stray b) : Chars single bytes ↔ ∀ b ∈ bytes, single b := by
  induction bytes with
  | nil => exact iff_of_true .nil nofun
  | cons b bytes ih =>
    rw [List.forall_mem_cons] at h
    rw [chars_stray h.1, ih h.2, List.forall_mem_cons]

/-! ### Places -/

/-- A multi-byte character stands here. -/
def Opens : List Byte → Prop
  | [] => False
  | b :: rest => ∃ k, Lead k b ∧ k ≤ conts rest

/-- A multi-byte character stands here as far as the bytes go. -/
def Truncated : List Byte → Prop
  | [] => False
  | b :: rest => ∃ k, Lead k b ∧ rest.length < k ∧ conts rest = rest.length

/-- **A multi-byte character breaks off here**, and not just before its last byte. -/
def Breaks : List Byte → Prop
  | [] => False
  | b :: rest => ∃ k, Lead k b ∧ conts rest + 1 < k ∧ conts rest < rest.length

/-- Somewhere in the bytes. -/
def Somewhere (P : List Byte → Prop) (bytes : List Byte) : Prop := ∃ t, t <:+ bytes ∧ P t

theorem somewhere_cons {P : List Byte → Prop} : Somewhere P (b :: rest) ↔ P (b :: rest) ∨ Somewhere P rest := by
  constructor
  · rintro ⟨t, ht, h⟩
    rcases List.suffix_cons_iff.mp ht with rfl | ht
    · exact Or.inl h
    · exact Or.inr ⟨t, ht, h⟩
  · rintro (h | ⟨t, ht, h⟩)
    · exact ⟨_, List.suffix_rfl, h⟩
    · exact ⟨t, ht.trans (List.suffix_cons b rest), h⟩

theorem somewhere_nil {P : List Byte → Prop} (h : ¬ P []) : ¬ Somewhere P [] := by
  rintro ⟨t, ht, hP⟩
  rw [List.suffix_nil.mp ht] at hP
  exact h hP

/-- Nothing starts at a continuation byte. -/
theorem somewhere_drop {P : List Byte → Prop} (hP : ∀ c rest, Continuation c → ¬ P (c :: rest)) :
    ∀ {k : ℕ} {rest : List Byte}, k ≤ conts rest → (Somewhere P rest ↔ Somewhere P (rest.drop k))
  | 0, _, _ => by rw [List.drop_zero]
  | _ + 1, [], hk => by simp at hk
  | k + 1, x :: rest, hk => by
    have hx : Continuation x := by
      by_contra hx
      rw [conts_cons_eq_zero hx] at hk
      omega
    rw [conts_cons hx] at hk
    rw [somewhere_cons, List.drop_succ_cons, ← somewhere_drop hP (Nat.le_of_succ_le_succ hk)]
    exact or_iff_right (hP x rest hx)

/-! ### Places at a lead byte and elsewhere -/

theorem opens_lead (h : Lead k b) : Opens (b :: rest) ↔ k ≤ conts rest := by
  constructor
  · rintro ⟨l, hl, hle⟩
    rwa [h.unique hl]
  · intro hle
    exact ⟨k, h, hle⟩

theorem truncated_lead (h : Lead k b) :
    Truncated (b :: rest) ↔ rest.length < k ∧ conts rest = rest.length := by
  constructor
  · rintro ⟨l, hl, hrest⟩
    rwa [h.unique hl]
  · intro hrest
    exact ⟨k, h, hrest⟩

theorem breaks_lead (h : Lead k b) : Breaks (b :: rest) ↔ conts rest + 1 < k ∧ conts rest < rest.length := by
  constructor
  · rintro ⟨l, hl, hrest⟩
    rwa [h.unique hl]
  · intro hrest
    exact ⟨k, h, hrest⟩

theorem Stray.not_opens (h : Stray b) : ¬ Opens (b :: rest) := fun ⟨k, hk, _⟩ => h k hk

theorem Stray.not_truncated (h : Stray b) : ¬ Truncated (b :: rest) := fun ⟨k, hk, _⟩ => h k hk

theorem Stray.not_breaks (h : Stray b) : ¬ Breaks (b :: rest) := fun ⟨k, hk, _⟩ => h k hk

theorem somewhere_truncated_drop (hk : k ≤ conts rest) :
    Somewhere Truncated rest ↔ Somewhere Truncated (rest.drop k) :=
  somewhere_drop (fun _ _ hc => hc.stray.not_truncated) hk

theorem somewhere_breaks_drop (hk : k ≤ conts rest) :
    Somewhere Breaks rest ↔ Somewhere Breaks (rest.drop k) :=
  somewhere_drop (fun _ _ hc => hc.stray.not_breaks) hk

instance : DecidablePred Opens
  | [] => inferInstanceAs (Decidable False)
  | b :: rest => decidable_of_iff (∃ k < 4, Lead k b ∧ k ≤ conts rest)
    ⟨fun ⟨k, _, h⟩ => ⟨k, h⟩, fun ⟨k, h⟩ => ⟨k, Nat.lt_succ_of_le h.1.le, h⟩⟩

/-- **The number of multi-byte characters.** -/
def characters : List Byte → ℕ
  | [] => 0
  | b :: rest => characters rest + if Opens (b :: rest) then 1 else 0

@[simp] theorem characters_nil : characters [] = 0 := rfl

theorem characters_cons (h : ¬ Opens (b :: rest)) : characters (b :: rest) = characters rest := by
  rw [characters, if_neg h, Nat.add_zero]

theorem characters_drop : ∀ {k : ℕ} {rest : List Byte}, k ≤ conts rest →
    characters rest = characters (rest.drop k)
  | 0, _, _ => by rw [List.drop_zero]
  | _ + 1, [], hk => by simp at hk
  | k + 1, x :: rest, hk => by
    have hx : Continuation x := by
      by_contra hx
      rw [conts_cons_eq_zero hx] at hk
      omega
    rw [conts_cons hx] at hk
    rw [characters_cons hx.stray.not_opens, List.drop_succ_cons]
    exact characters_drop (Nat.le_of_succ_le_succ hk)

theorem characters_lead (h : Lead k b) (hk : k ≤ conts rest) :
    characters (b :: rest) = characters (rest.drop k) + 1 := by
  rw [characters, if_pos ((opens_lead h).mpr hk), characters_drop hk]

/-- **A text of characters** has no character that is cut off or breaks off, and its only bytes that are
no text bytes are those of its characters. -/
theorem Chars.places (h : Chars Text bytes) : ¬ Somewhere Breaks bytes ∧ ¬ Somewhere Truncated bytes ∧
    (characters bytes = 0 → ∀ b ∈ bytes, Text b) := by
  induction h with
  | nil => exact ⟨somewhere_nil id, somewhere_nil id, fun _ b hb => nomatch hb⟩
  | single hb _ ih =>
    obtain ⟨hbreaks, htrunc, hchars⟩ := ih
    refine ⟨?_, ?_, ?_⟩
    · rw [somewhere_cons]
      rintro (h | h)
      · exact hb.stray.not_breaks h
      · exact hbreaks h
    · rw [somewhere_cons]
      rintro (h | h)
      · exact hb.stray.not_truncated h
      · exact htrunc h
    · rw [characters_cons hb.stray.not_opens, List.forall_mem_cons]
      exact fun hzero => ⟨hb, hchars hzero⟩
  | @char k b cs tail hb hlen hcs _ ih =>
    obtain ⟨hbreaks, htrunc, _⟩ := ih
    have hk : k ≤ conts (cs ++ tail) := hlen ▸ le_conts_append hcs
    have hdrop : (cs ++ tail).drop k = tail := by rw [← hlen, List.drop_left]
    refine ⟨?_, ?_, ?_⟩
    · rw [somewhere_cons, breaks_lead hb, somewhere_breaks_drop hk, hdrop]
      rintro (⟨h, _⟩ | h)
      · omega
      · exact hbreaks h
    · rw [somewhere_cons, truncated_lead hb, somewhere_truncated_drop hk, hdrop]
      rintro (⟨h, h'⟩ | h)
      · omega
      · exact htrunc h
    · rw [characters_lead hb hk]
      exact fun hzero => nomatch hzero

/-- Without lead bytes there is no character, whole or not. -/
theorem places_of_stray (h : ∀ b ∈ bytes, Stray b) :
    ¬ Somewhere Breaks bytes ∧ ¬ Somewhere Truncated bytes ∧ characters bytes = 0 := by
  induction bytes with
  | nil => exact ⟨somewhere_nil id, somewhere_nil id, rfl⟩
  | cons b bytes ih =>
    rw [List.forall_mem_cons] at h
    obtain ⟨hbreaks, htrunc, hzero⟩ := ih h.2
    rw [somewhere_cons, somewhere_cons, characters_cons h.1.not_opens]
    exact ⟨not_or.mpr ⟨h.1.not_breaks, hbreaks⟩, not_or.mpr ⟨h.1.not_truncated, htrunc⟩, hzero⟩

end CompSys.A0.Grammar
