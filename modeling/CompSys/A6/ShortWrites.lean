import CompSys.Lib.Fuel
import CompSys.A6.RadixMain

/-! # Short writes of the radix program

`write_int_buffer` may write fewer numbers than asked for. The loop of `main` counts them, but every call starts at
the first number of `out_numbers` again. So the loop always ends, with as many numbers in the file as were taken
(`loop_ends`), and they are the numbers taken only if each call happens to write what should come next
(`writes_iff`). -/

namespace CompSys.A6.ShortWrites

open CompSys.Lib.Fuel CompSys.A6.Radix CompSys.A6.RadixRuns CompSys.A6.RadixMain

variable {P : Type} {sys : System P} {batch file : List Word} {f : List Word} {p q : ℕ}

/-- A call writes at least one of the numbers asked for. -/
def Progresses (sys : System P) : Prop :=
  ∀ file size, 0 < size → 1 ≤ sys.written file size ∧ sys.written file size ≤ size

/-- The loop, by the number of rounds. -/
def loop (sys : System P) (batch : List Word) (toWrite : ℕ) (file : List Word) (fuel : ℕ) : Option (List Word) :=
  writeLoop sys batch fuel toWrite file

theorem loop_done : Yields (loop sys batch 0 f) f :=
  .now rfl fun fuel => by rw [loop, writeLoop, if_neg (by simp)]

/-- One call of `write_int_buffer`. -/
theorem loop_next {m : ℕ} (hsys : Progresses sys) (hm : 0 < m) (fuel : ℕ) :
    loop sys batch m f (fuel + 1) =
      loop sys batch (m - sys.written f m) (f ++ batch.take (sys.written f m)) fuel := by
  have hle := (hsys f m hm).2
  rw [loop, writeLoop, if_pos (by omega), Int.toNat_natCast, loop, Nat.cast_sub hle]

/-- **The loop ends**, with as many numbers as it was to write. -/
theorem loop_ends (hsys : Progresses sys) (batch : List Word) : ∀ (m : ℕ) (f : List Word), m ≤ batch.length →
    ∃ out, Yields (loop sys batch m f) (f ++ out) ∧ out.length = m := by
  intro m
  induction m using Nat.strong_induction_on with
  | _ m ih =>
    intro f hlen
    rcases Nat.eq_zero_or_pos m with rfl | hm
    · exact ⟨[], by rw [List.append_nil]; exact loop_done, rfl⟩
    · obtain ⟨hone, hle⟩ := hsys f m hm
      obtain ⟨out, hyields, hout⟩ :=
        ih (m - sys.written f m) (by omega) (f ++ batch.take (sys.written f m)) (by omega)
      refine ⟨batch.take (sys.written f m) ++ out, ?_, ?_⟩
      · rw [← List.append_assoc]
        exact hyields.next rfl (loop_next hsys hm)
      · rw [List.length_append, List.length_take, hout]
        omega

/-- What the call that starts at a position reports, if all before it has been written as it should. -/
def reported (sys : System P) (batch file : List Word) (p : ℕ) : ℕ :=
  sys.written (file ++ batch.take p) (batch.length - p)

/-- From position `p` on, the positions where a call starts. -/
inductive Starts (sys : System P) (batch file : List Word) : ℕ → ℕ → Prop
  | here (p : ℕ) : Starts sys batch file p p
  | later {p q : ℕ} : p < batch.length → Starts sys batch file (p + reported sys batch file p) q →
    Starts sys batch file p q

/-- The call that starts at a position writes the numbers that stand there. -/
def WritesOn (sys : System P) (batch file : List Word) (p : ℕ) : Prop :=
  batch.take (reported sys batch file p) = (batch.drop p).take (reported sys batch file p)

theorem reported_pos (hsys : Progresses sys) (file : List Word) (hp : p < batch.length) :
    1 ≤ reported sys batch file p ∧ reported sys batch file p ≤ batch.length - p :=
  hsys _ _ (Nat.sub_pos_of_lt hp)

/-- One call, from a position on. -/
theorem yields_loop_iff (hsys : Progresses sys) (hp : p < batch.length) {g : List Word} :
    Yields (loop sys batch (batch.length - p) (file ++ batch.take p)) g ↔
      Yields (loop sys batch (batch.length - p - reported sys batch file p)
        (file ++ batch.take p ++ batch.take (reported sys batch file p))) g :=
  yields_next_iff rfl (loop_next hsys (Nat.sub_pos_of_lt hp))

theorem WritesOn.append (h : WritesOn sys batch file p) :
    file ++ batch.take p ++ batch.take (reported sys batch file p) =
      file ++ batch.take (p + reported sys batch file p) := by
  rw [h, List.append_assoc, List.take_add]

/-- If the batch is written in the end, then the first call writes on. -/
theorem writesOn_of_yields (hsys : Progresses sys) (hp : p < batch.length)
    (h : Yields (loop sys batch (batch.length - p) (file ++ batch.take p)) (file ++ batch)) :
    WritesOn sys batch file p := by
  obtain ⟨hone, hle⟩ := reported_pos hsys file hp
  rw [yields_loop_iff hsys hp] at h
  obtain ⟨out, hout, -⟩ := loop_ends hsys batch (batch.length - p - reported sys batch file p)
    (file ++ batch.take p ++ batch.take (reported sys batch file p)) (by omega)
  have hbatch := h.unique hout
  rw [List.append_assoc, List.append_assoc, List.append_cancel_left_eq] at hbatch
  have hlen : (batch.take p).length = p := List.length_take_of_le hp.le
  have hreported : (batch.take (reported sys batch file p)).length = reported sys batch file p :=
    List.length_take_of_le (by omega)
  have hdrop := congrArg (List.drop p) hbatch
  rw [List.drop_left' hlen] at hdrop
  rw [WritesOn, hdrop, List.take_left' hreported]

/-- From position `p` on. -/
theorem loop_iff (hsys : Progresses sys) (file : List Word) : ∀ (m p : ℕ), p + m = batch.length →
    (Yields (loop sys batch m (file ++ batch.take p)) (file ++ batch) ↔
      ∀ q, Starts sys batch file p q → q < batch.length → WritesOn sys batch file q) := by
  intro m
  induction m using Nat.strong_induction_on with
  | _ m ih =>
    intro p hp
    rcases Nat.eq_zero_or_pos m with rfl | hm
    · rw [Nat.add_zero] at hp
      rw [hp, List.take_length]
      refine iff_of_true loop_done fun q hq hlt => ?_
      cases hq with
      | here => omega
      | later hlt' => omega
    · obtain rfl : m = batch.length - p := by omega
      have hlt : p < batch.length := by omega
      obtain ⟨hone, hle⟩ := reported_pos hsys file hlt
      have hrest := ih (batch.length - p - reported sys batch file p) (by omega)
        (p + reported sys batch file p) (by omega)
      constructor
      · intro hyields q hq hqlt
        have hon := writesOn_of_yields hsys hlt hyields
        cases hq with
        | here => exact hon
        | later _ hq =>
          rw [yields_loop_iff hsys hlt, hon.append, hrest] at hyields
          exact hyields q hq hqlt
      · intro hall
        rw [yields_loop_iff hsys hlt, (hall p (.here p) hlt).append, hrest]
        exact fun q hq hqlt => hall q (.later hlt hq) hqlt

/-- **The batch is written** exactly if every call writes the numbers that come next. -/
theorem writes_iff (sys : System P) (hsys : Progresses sys) (batch file : List Word) :
    Yields (fun fuel => writeLoop sys batch fuel batch.length file) (file ++ batch) ↔
      ∀ p, Starts sys batch file 0 p → p < batch.length → WritesOn sys batch file p := by
  have h := loop_iff hsys file batch.length 0 (Nat.zero_add _)
  rwa [List.take_zero, List.append_nil] at h

theorem writes_iff_full : Yields (fun fuel => writeLoop ⟨fun _ size => size, fun _ => nextFree⟩ [1#32, 2#32] fuel 2 [])
      [1#32, 2#32] ↔
    ∀ p, Starts ⟨fun _ size => size, fun _ => nextFree⟩ [1#32, 2#32] [] 0 p → p < 2 →
      WritesOn ⟨fun _ size => size, fun _ => nextFree⟩ [1#32, 2#32] [] p :=
  writes_iff ⟨fun _ size => size, fun _ => nextFree⟩ (fun _ _ h => ⟨h, le_rfl⟩) [1#32, 2#32] []

/-- Two writes of one number each write the first number twice. -/
theorem short_write_repeats :
    Progresses (⟨fun _ _ => 1, fun _ => nextFree⟩ : System ℕ) ∧
      Yields (fun fuel => writeLoop ⟨fun _ _ => 1, fun _ => nextFree⟩ [1#32, 2#32] fuel 2 []) [1#32, 1#32] ∧
        ¬ Yields (fun fuel => writeLoop ⟨fun _ _ => 1, fun _ => nextFree⟩ [1#32, 2#32] fuel 2 []) [1#32, 2#32] := by
  have hyields : Yields (fun fuel => writeLoop ⟨fun _ _ => 1, fun _ => nextFree⟩ [1#32, 2#32] fuel 2 [])
      [1#32, 1#32] :=
    .next rfl (fun _ => rfl) (.next rfl (fun _ => rfl) (.now rfl fun _ => rfl))
  refine ⟨fun _ _ h => ⟨le_rfl, h⟩, hyields, fun h => ?_⟩
  exact absurd (hyields.unique h) (by decide)

end CompSys.A6.ShortWrites
