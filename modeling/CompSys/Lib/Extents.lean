import Mathlib.Tactic

/-! # Extents and tilings

An extent is an interval `[addr, addr + size)` of addresses. A list of extents *tiles* `[lo, hi)` if
each starts where the one before stops, and none is empty: then any two of them are apart
(`Tiles.apart`), all lie between `lo` and `hi`, and every address there belongs to one
(`Tiles.covers`). -/

namespace CompSys.Lib.Extents

/-- `[addr, addr + size)`. -/
structure Extent where
  addr : ℕ
  size : ℕ
  deriving DecidableEq, Repr

/-- The first address after the extent. -/
def Extent.stop (b : Extent) : ℕ := b.addr + b.size

/-- Two extents without a common address. -/
def Apart (b c : Extent) : Prop := b.stop ≤ c.addr ∨ c.stop ≤ b.addr

instance (b c : Extent) : Decidable (Apart b c) := by unfold Apart; infer_instance

theorem Apart.symm {b c : Extent} (h : Apart b c) : Apart c b := Or.symm h

/-- Parts of extents that are apart are apart. -/
theorem Apart.mono {b c b' c' : Extent} (h : Apart b c) (hb : b.addr ≤ b'.addr)
    (hb' : b'.stop ≤ b.stop) (hc : c.addr ≤ c'.addr) (hc' : c'.stop ≤ c.stop) : Apart b' c' := by
  unfold Apart at *
  omega

/-- Each extent starts where the one before stops. -/
def Tiles : ℕ → List Extent → ℕ → Prop
  | lo, [], hi => lo = hi
  | lo, b :: bs, hi => b.addr = lo ∧ 0 < b.size ∧ Tiles b.stop bs hi

/-- `n` extents of size `s` in a row. -/
def row (lo s n : ℕ) : List Extent := (List.range n).map fun i => ⟨lo + i * s, s⟩

theorem row_succ (lo s n : ℕ) : row lo s (n + 1) = row lo s n ++ [⟨lo + n * s, s⟩] := by
  unfold row
  rw [List.range_succ, List.map_append, List.map_singleton]

theorem mem_row {lo s n : ℕ} {b : Extent} : b ∈ row lo s n ↔ ∃ i < n, b = ⟨lo + i * s, s⟩ := by
  unfold row
  simp only [List.mem_map, List.mem_range]
  constructor <;> rintro ⟨i, hi, h⟩ <;> exact ⟨i, hi, h.symm⟩

variable {lo mid hi : ℕ} {bs cs : List Extent}

theorem Tiles.append (h : Tiles lo bs mid) (h' : Tiles mid cs hi) : Tiles lo (bs ++ cs) hi := by
  induction bs generalizing lo with
  | nil =>
    obtain rfl : lo = mid := h
    exact h'
  | cons b bs ih =>
    obtain ⟨ha, hs, ht⟩ := h
    exact ⟨ha, hs, ih ht⟩

theorem tiles_row {s : ℕ} (hs : 0 < s) (lo n : ℕ) : Tiles lo (row lo s n) (lo + n * s) := by
  induction n with
  | zero => simp [row, Tiles]
  | succ n ih =>
    rw [row_succ]
    refine ih.append ⟨rfl, hs, ?_⟩
    simp only [Tiles, Extent.stop]
    ring

theorem row_cons (lo s n : ℕ) : row lo s (n + 1) = ⟨lo, s⟩ :: row (lo + s) s n := by
  unfold row
  rw [List.range_succ_eq_map, List.map_cons, List.map_map, Nat.zero_mul, Nat.add_zero]
  refine congrArg _ (List.map_congr_left fun i _ => ?_)
  simp only [Function.comp_apply, Extent.mk.injEq, and_true]
  rw [Nat.succ_mul]
  omega

/-- **Extents of one size** that tile an interval are a row. -/
theorem Tiles.eq_row {s : ℕ} (h : Tiles lo bs hi) (hs : ∀ b ∈ bs, b.size = s) :
    bs = row lo s bs.length ∧ hi = lo + bs.length * s := by
  induction bs generalizing lo with
  | nil => exact ⟨rfl, by simpa using (show lo = hi from h).symm⟩
  | cons b bs ih =>
    obtain ⟨ha, -, ht⟩ := h
    have hb := hs b List.mem_cons_self
    obtain ⟨h1, h2⟩ := ih ht fun c hc => hs c (List.mem_cons_of_mem _ hc)
    have hstop : b.stop = lo + s := by rw [Extent.stop, ha, hb]
    rw [hstop] at h1 h2
    refine ⟨?_, ?_⟩
    · rw [List.length_cons, row_cons, ← h1, ← ha, ← hb]
    · rw [h2, List.length_cons, Nat.succ_mul]
      omega

theorem Tiles.le (h : Tiles lo bs hi) : lo ≤ hi := by
  induction bs generalizing lo with
  | nil => exact le_of_eq h
  | cons b bs ih =>
    obtain ⟨ha, hs, ht⟩ := h
    have := ih ht
    unfold Extent.stop at this
    omega

/-- **Inside.** -/
theorem Tiles.inside (h : Tiles lo bs hi) {b : Extent} (hb : b ∈ bs) :
    lo ≤ b.addr ∧ 0 < b.size ∧ b.stop ≤ hi := by
  induction bs generalizing lo with
  | nil => cases hb
  | cons c bs ih =>
    obtain ⟨ha, hs, ht⟩ := h
    rcases List.mem_cons.mp hb with rfl | hb
    · exact ⟨ha.ge, hs, ht.le⟩
    · obtain ⟨h1, h2, h3⟩ := ih ht hb
      refine ⟨?_, h2, h3⟩
      unfold Extent.stop at h1
      omega

/-- **Two different blocks of a tiling are apart.** -/
theorem Tiles.apart (h : Tiles lo bs hi) {b c : Extent} (hb : b ∈ bs) (hc : c ∈ bs)
    (hne : b ≠ c) : Apart b c := by
  induction bs generalizing lo with
  | nil => cases hb
  | cons d bs ih =>
    obtain ⟨-, -, ht⟩ := h
    rcases List.mem_cons.mp hb with hbd | hb' <;> rcases List.mem_cons.mp hc with hcd | hc'
    · exact absurd (hbd.trans hcd.symm) hne
    · exact Or.inl (by rw [hbd]; exact (ht.inside hc').1)
    · exact Or.inr (by rw [hcd]; exact (ht.inside hb').1)
    · exact ih ht hb' hc'

/-- **The blocks of a tiling** are apart, each from every later one. -/
theorem Tiles.pairwise (h : Tiles lo bs hi) : bs.Pairwise Apart := by
  induction bs generalizing lo with
  | nil => exact List.Pairwise.nil
  | cons b bs ih =>
    obtain ⟨-, -, ht⟩ := h
    exact List.Pairwise.cons (fun c hc => Or.inl (ht.inside hc).1) (ih ht)

theorem Tiles.eq_of_addr (h : Tiles lo bs hi) {b c : Extent} (hb : b ∈ bs) (hc : c ∈ bs)
    (ha : b.addr = c.addr) : b = c := by
  by_contra hne
  have hap := h.apart hb hc hne
  have hb' := (h.inside hb).2.1
  have hc' := (h.inside hc).2.1
  unfold Apart Extent.stop at hap
  omega

/-- **Every address** between `lo` and `hi` belongs to a block. -/
theorem Tiles.covers (h : Tiles lo bs hi) {x : ℕ} (hlo : lo ≤ x) (hhi : x < hi) :
    ∃ b ∈ bs, b.addr ≤ x ∧ x < b.stop := by
  induction bs generalizing lo with
  | nil =>
    obtain rfl : lo = hi := h
    omega
  | cons b bs ih =>
    obtain ⟨ha, -, ht⟩ := h
    by_cases hx : x < b.stop
    · exact ⟨b, List.mem_cons_self, by omega, hx⟩
    · obtain ⟨c, hc, hcx⟩ := ih ht (by omega)
      exact ⟨c, List.mem_cons_of_mem _ hc, hcx⟩

end CompSys.Lib.Extents
