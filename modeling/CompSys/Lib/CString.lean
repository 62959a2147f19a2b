import Mathlib.Data.List.TakeWhile
import Mathlib.Tactic

/-! # Strings in memory

Memory from a pointer on is a list, and the string there ends in front of the first terminator (`str`). What is
written with a terminator behind it is the string that is found (`str_append`). `fgets` takes a line of a file, as
far as there is room for it. -/

namespace CompSys.Lib.CString

variable {α : Type*} [DecidableEq α] {nul newline : α} {s t mem : List α}

/-- The string at a pointer. -/
def str (nul : α) (mem : List α) : List α := mem.takeWhile (· ≠ nul)

@[simp] theorem str_nil : str nul [] = [] := rfl

theorem not_mem_str : nul ∉ str nul mem := by
  intro h
  have hne := List.mem_takeWhile_imp h
  simp at hne

/-- **A string with its terminator** is read back. -/
theorem str_append (h : nul ∉ s) : str nul (s ++ nul :: t) = s := by
  have hs : ∀ c ∈ s, decide (c ≠ nul) = true := fun c hc => decide_eq_true (ne_of_mem_of_not_mem hc h)
  rw [str, List.takeWhile_append_of_pos hs, List.takeWhile_cons_of_neg (by simp), List.append_nil]

/-- Memory without a terminator in its first part. -/
theorem str_append_of_not_mem (h : nul ∉ s) : str nul (s ++ t) = s ++ str nul t := by
  have hs : ∀ c ∈ s, decide (c ≠ nul) = true := fun c hc => decide_eq_true (ne_of_mem_of_not_mem hc h)
  exact List.takeWhile_append_of_pos hs

/-- What stands in front of a terminator is at least as long as the string. -/
theorem length_str_append_le (nul : α) (s t : List α) : (str nul (s ++ nul :: t)).length ≤ s.length := by
  induction s with
  | nil => rw [List.nil_append, str, List.takeWhile_cons_of_neg (by simp)]
  | cons c s ih =>
    by_cases hc : c = nul
    · rw [List.cons_append, str, List.takeWhile_cons_of_neg (by simp [hc])]
      exact Nat.zero_le _
    · rw [List.cons_append, str, List.takeWhile_cons_of_pos (by simp [hc])]
      exact Nat.succ_le_succ ih

/-! ### Lines -/

/-- The next line of a file, with its newline, in `room` characters at most. -/
def takeLine (newline : α) : ℕ → List α → List α
  | 0, _ => []
  | _ + 1, [] => []
  | room + 1, c :: file => if c = newline then [c] else c :: takeLine newline room file

/-- **`fgets`**, for a buffer of `size` elements; what is there, and behind it, is `buf`. At the end of the file
nothing is written. -/
def fgets (nul newline : α) (size : ℕ) (file buf : List α) : List α :=
  let line := takeLine newline (size - 1) file
  if line = [] then buf else line ++ nul :: buf.drop (line.length + 1)

theorem length_takeLine_le : ∀ (room : ℕ) (file : List α), (takeLine newline room file).length ≤ room
  | 0, _ => le_rfl
  | _ + 1, [] => Nat.zero_le _
  | room + 1, c :: file => by
    rw [takeLine]
    split_ifs with hc
    · exact Nat.succ_le_succ (Nat.zero_le _)
    · exact Nat.succ_le_succ (length_takeLine_le room file)

/-- **A line that is too long** is cut off. -/
theorem takeLine_of_le : ∀ {room : ℕ} {s : List α}, newline ∉ s → room ≤ s.length →
    takeLine newline room (s ++ t) = s.take room
  | 0, _, _, _ => rfl
  | room + 1, [], _, hroom => absurd hroom (Nat.not_succ_le_zero room)
  | room + 1, c :: s, hs, hroom => by
    rw [List.mem_cons, not_or] at hs
    rw [List.cons_append, takeLine, if_neg (Ne.symm hs.1), takeLine_of_le hs.2 (Nat.le_of_succ_le_succ hroom),
      List.take_succ_cons]

/-- The buffer is left alone, or there is a string in it that it has room for. -/
theorem fgets_cases (nul newline : α) (size : ℕ) (file buf : List α) : fgets nul newline size file buf = buf ∨
    (str nul (fgets nul newline size file buf)).length < max size 1 := by
  unfold fgets
  by_cases hline : takeLine newline (size - 1) file = []
  · exact Or.inl (if_pos hline)
  · refine Or.inr ?_
    have hle : (takeLine newline (size - 1) file).length ≤ size - 1 := length_takeLine_le _ file
    simp only [if_neg hline]
    generalize takeLine newline (size - 1) file = line at hle
    have hstr := length_str_append_le nul line (buf.drop (line.length + 1))
    omega

end CompSys.Lib.CString
