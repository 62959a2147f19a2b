import Mathlib.Tactic

/-! # Reading from a feed

A feed is what a source still delivers: items, and reads that fail, in their order; after the last of them it is at
its end. `scan stop n` takes items until it has `n`, or one at which it is to `stop`, or the feed fails or ends. What
is taken in pieces is taken as a whole (`scan_append`). -/

namespace CompSys.Lib.Feeds

variable {β : Type*}

/-- Items, and `none` where a read fails. -/
abbrev Feed (β : Type*) := List (Option β)

/-- The items taken, whether a read failed after them, and what is left. -/
structure Taken (β : Type*) where
  items : List β
  failed : Bool
  rest : Feed β

/-- More items in front. -/
def Taken.after (bs : List β) (t : Taken β) : Taken β := { t with items := bs ++ t.items }

def scan (stop : β → Bool) : ℕ → Feed β → Taken β
  | 0, s => ⟨[], false, s⟩
  | _ + 1, [] => ⟨[], false, []⟩
  | _ + 1, none :: s => ⟨[], true, s⟩
  | n + 1, some b :: s => if stop b then ⟨[b], false, s⟩ else (scan stop n s).after [b]

/-- Up to `n` items. -/
def scanAll (n : ℕ) (s : Feed β) : Taken β := scan (fun _ => false) n s

variable {stop : β → Bool} {n : ℕ} {s : Feed β}

@[simp] theorem after_nil (t : Taken β) : t.after [] = t := rfl

@[simp] theorem after_after (bs cs : List β) (t : Taken β) : (t.after cs).after bs = t.after (bs ++ cs) := by
  simp [Taken.after]

@[simp] theorem scan_zero (stop : β → Bool) (s : Feed β) : scan stop 0 s = ⟨[], false, s⟩ := rfl

@[simp] theorem scan_nil (stop : β → Bool) (n : ℕ) : scan stop n [] = ⟨[], false, []⟩ := by
  cases n <;> rfl

@[simp] theorem scan_none (stop : β → Bool) (n : ℕ) (s : Feed β) :
    scan stop (n + 1) (none :: s) = ⟨[], true, s⟩ := rfl

theorem scan_some (stop : β → Bool) (n : ℕ) (b : β) (s : Feed β) :
    scan stop (n + 1) (some b :: s) = if stop b then ⟨[b], false, s⟩ else (scan stop n s).after [b] := rfl

/-- **Piece by piece**: items at which it does not stop, and then the rest. -/
theorem scan_append (stop : β → Bool) {bs : List β} (h : ∀ b ∈ bs, stop b = false) (m : ℕ) (s : Feed β) :
    scan stop (bs.length + m) (bs.map some ++ s) = (scan stop m s).after bs := by
  induction bs with
  | nil => rw [List.length_nil, Nat.zero_add, List.map_nil, List.nil_append, after_nil]
  | cons b bs ih =>
    obtain ⟨hb, hbs⟩ := List.forall_mem_cons.mp h
    rw [List.length_cons, Nat.add_right_comm, List.map_cons, List.cons_append, scan_some, hb, if_neg Bool.false_ne_true,
      ih hbs, after_after, List.singleton_append]

/-- Without failures the items are the next of the feed. -/
theorem scanAll_map (n : ℕ) (l : List β) : scanAll n (l.map some) = ⟨l.take n, false, (l.drop n).map some⟩ := by
  rcases Nat.le_total n l.length with h | h
  · have hscan := scan_append (fun _ => false) (fun b (_ : b ∈ l.take n) => rfl) 0 ((l.drop n).map some)
    rw [← List.map_append, List.take_append_drop, List.length_take_of_le h] at hscan
    simpa [scanAll, Taken.after] using hscan
  · have hscan := scan_append (fun _ => false) (fun b (_ : b ∈ l) => rfl) (n - l.length) []
    rw [List.append_nil, Nat.add_sub_cancel' h] at hscan
    simpa [scanAll, Taken.after, List.take_of_length_le h, List.drop_of_length_le h] using hscan

end CompSys.Lib.Feeds
