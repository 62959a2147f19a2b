import Mathlib.Data.List.Basic
import Mathlib.Tactic

/-! # Hashing block by block

A text is cut into blocks of `n` elements, and `f` takes the chaining value from one block to the next. `absorb` goes
over the full blocks, and `rest` is what remains of the text. A text may come in pieces: the chaining value and the
rest of the text so far are all that is needed to go on (`absorb_append`), and until a block is full only the rest
grows (`absorb_of_lt`, `absorb_of_eq`).

Two texts of full blocks with the same value either have the same length and are equal, or lead to a collision of `f`
(`collision_of_absorb_eq`, `collision_of_last_ne`). -/

namespace CompSys.Lib.BlockHash

variable {α σ : Type*} {n : ℕ} {f : σ → List α → σ} {h h' : σ} {l m b : List α}

/-- The chaining value after `k` blocks. -/
def chain (n : ℕ) (f : σ → List α → σ) : ℕ → σ → List α → σ
  | 0, h, _ => h
  | k + 1, h, l => chain n f k (f h (l.take n)) (l.drop n)

/-- **The chaining value** after the full blocks of a text. -/
def absorb (n : ℕ) (f : σ → List α → σ) (h : σ) (l : List α) : σ := chain n f (l.length / n) h l

/-- What remains behind the full blocks. -/
def rest (n : ℕ) (l : List α) : List α := l.drop (n * (l.length / n))

/-! ### Block by block -/

theorem absorb_short (h : σ) (hl : l.length < n) : absorb n f h l = h := by
  rw [absorb, Nat.div_eq_of_lt hl, chain]

theorem rest_short (hl : l.length < n) : rest n l = l := by
  rw [rest, Nat.div_eq_of_lt hl, Nat.mul_zero, List.drop_zero]

theorem absorb_block (hn : 0 < n) (h : σ) (hb : b.length = n) (l : List α) :
    absorb n f h (b ++ l) = absorb n f (f h b) l := by
  have hdiv : (b ++ l).length / n = l.length / n + 1 := by
    rw [List.length_append, hb, Nat.add_div_left _ hn]
  rw [absorb, hdiv, chain, List.take_left' hb, List.drop_left' hb, absorb]

theorem rest_block (hn : 0 < n) (hb : b.length = n) (l : List α) : rest n (b ++ l) = rest n l := by
  have hdiv : n * ((b ++ l).length / n) = b.length + n * (l.length / n) := by
    rw [List.length_append, hb, Nat.add_div_left _ hn, Nat.mul_succ, Nat.add_comm]
  rw [rest, hdiv, ← List.drop_drop, List.drop_left, rest]

/-- A text is short, or a block with a text behind it. -/
theorem blocks_induction {motive : List α → Prop} (hn : 0 < n) (short : ∀ l, l.length < n → motive l)
    (block : ∀ b l, b.length = n → motive l → motive (b ++ l)) (l : List α) : motive l := by
  induction hlen : l.length using Nat.strong_induction_on generalizing l with
  | _ k ih =>
    by_cases hl : l.length < n
    · exact short l hl
    · rw [← List.take_append_drop n l]
      refine block _ _ (List.length_take_of_le (not_lt.mp hl)) (ih _ ?_ _ rfl)
      rw [List.length_drop]
      omega

theorem length_rest_lt (hn : 0 < n) (l : List α) : (rest n l).length < n := by
  induction l using blocks_induction hn with
  | short l hl => rwa [rest_short hl]
  | block b l hb ih => rwa [rest_block hn hb]

theorem length_rest (l : List α) : (rest n l).length = l.length % n := by
  rw [rest, List.length_drop, Nat.mod_eq_sub_mul_div]

/-- **A text that comes in two pieces.** -/
theorem absorb_append (hn : 0 < n) (h : σ) (l m : List α) :
    absorb n f h (l ++ m) = absorb n f (absorb n f h l) (rest n l ++ m) ∧ rest n (l ++ m) = rest n (rest n l ++ m) := by
  induction l using blocks_induction hn generalizing h with
  | short l hl => exact ⟨by rw [absorb_short h hl, rest_short hl], by rw [rest_short hl]⟩
  | block b l hb ih =>
    obtain ⟨habsorb, hrest⟩ := ih (f h b)
    rw [List.append_assoc, absorb_block hn h hb, absorb_block hn h hb, rest_block hn hb, rest_block hn hb]
    exact ⟨habsorb, hrest⟩

/-- Until the block is full, only the rest grows. -/
theorem absorb_of_lt (hn : 0 < n) (h : σ) (hlt : (rest n l).length + m.length < n) :
    absorb n f h (l ++ m) = absorb n f h l ∧ rest n (l ++ m) = rest n l ++ m := by
  obtain ⟨habsorb, hrest⟩ := absorb_append (f := f) hn h l m
  rw [← List.length_append] at hlt
  exact ⟨habsorb.trans (absorb_short _ hlt), hrest.trans (rest_short hlt)⟩

/-- Then `f` takes it. -/
theorem absorb_of_eq (hn : 0 < n) (h : σ) (heq : (rest n l).length + m.length = n) :
    absorb n f h (l ++ m) = f (absorb n f h l) (rest n l ++ m) ∧ rest n (l ++ m) = [] := by
  obtain ⟨habsorb, hrest⟩ := absorb_append (f := f) hn h l m
  rw [← List.length_append] at heq
  have hone := absorb_block (f := f) hn (absorb n f h l) heq []
  have hnil := rest_block hn heq ([] : List α)
  rw [List.append_nil] at hone hnil
  exact ⟨habsorb.trans (hone.trans (absorb_short _ hn)), hrest.trans (hnil.trans (rest_short hn))⟩

/-! ### Collisions -/

/-- Two different inputs of `f` with the same value. -/
def Collision (n : ℕ) (f : σ → List α → σ) : Prop :=
  ∃ h b h' b', b.length = n ∧ b'.length = n ∧ (h, b) ≠ (h', b') ∧ f h b = f h' b'

/-- **Texts of one length**, with the same value. -/
theorem collision_of_absorb_eq (hn : 0 < n) (hdvd : n ∣ l.length) (hlen : m.length = l.length)
    (heq : absorb n f h l = absorb n f h' m) (hne : (h, l) ≠ (h', m)) : Collision n f := by
  induction l using blocks_induction hn generalizing h h' m with
  | short l hl =>
    have h0 : l.length = 0 := Nat.eq_zero_of_dvd_of_lt hdvd hl
    obtain rfl := List.length_eq_zero_iff.mp h0
    obtain rfl := List.length_eq_zero_iff.mp hlen
    rw [absorb_short h hn, absorb_short h' hn] at heq
    exact absurd (by rw [heq]) hne
  | block b l hb ih =>
    obtain ⟨b', m, rfl, hb'⟩ : ∃ b' m', m = b' ++ m' ∧ b'.length = n := by
      refine ⟨m.take n, m.drop n, (List.take_append_drop n m).symm, List.length_take_of_le ?_⟩
      rw [hlen, List.length_append, hb]
      exact Nat.le_add_right n _
    rw [absorb_block hn h hb, absorb_block hn h' hb'] at heq
    rw [List.length_append, hb] at hdvd
    rw [List.length_append, List.length_append, hb, hb'] at hlen
    by_cases hstep : (f h b, l) = (f h' b', m)
    · obtain ⟨hf, rfl⟩ := Prod.mk.inj hstep
      refine ⟨h, b, h', b', hb, hb', fun hsame => hne ?_, hf⟩
      obtain ⟨rfl, rfl⟩ := Prod.mk.inj hsame
      rfl
    · exact ih ((Nat.dvd_add_right (dvd_refl n)).mp hdvd) (by omega) heq hstep

/-- **Texts whose last blocks differ**, with the same value. -/
theorem collision_of_last_ne (hn : 0 < n) {b' : List α} (hb : b.length = n) (hb' : b'.length = n) (hl : n ∣ l.length)
    (hm : n ∣ m.length) (heq : absorb n f h (l ++ b) = absorb n f h' (m ++ b')) (hne : b ≠ b') : Collision n f := by
  have hrest : ∀ t : List α, n ∣ t.length → (rest n t).length = 0 := fun t ht => by
    rw [length_rest, Nat.mod_eq_zero_of_dvd ht]
  have hnil : rest n l = [] := List.length_eq_zero_iff.mp (hrest l hl)
  have hnil' : rest n m = [] := List.length_eq_zero_iff.mp (hrest m hm)
  have hlast := (absorb_of_eq (f := f) (l := l) (m := b) hn h (by rw [hrest l hl, hb, Nat.zero_add])).1
  have hlast' := (absorb_of_eq (f := f) (l := m) (m := b') hn h' (by rw [hrest m hm, hb', Nat.zero_add])).1
  rw [hlast, hlast', hnil, hnil', List.nil_append, List.nil_append] at heq
  exact ⟨_, b, _, b', hb, hb', fun hsame => hne (Prod.mk.inj hsame).2, heq⟩

end CompSys.Lib.BlockHash
