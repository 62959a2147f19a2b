import Mathlib.Tactic

/-! # Search trees without balancing

A key that is there already is inserted below the old one, to the right. A lookup stops at the first
node with its key, so it finds the value that was inserted first: after a list of insertions it finds
what a scan of the list from the front finds (`lookup_ofList`). No order of the keys in the tree is
needed for this, since a lookup and an insertion of one key take the same path (`lookup_insert`). -/

namespace CompSys.Lib.SearchTree

/-- A tree with a key and a value in each node. -/
inductive Tree (κ ν : Type*)
  | nil
  | node (left : Tree κ ν) (key : κ) (value : ν) (right : Tree κ ν)

namespace Tree

variable {κ ν : Type*}

def height : Tree κ ν → ℕ
  | nil => 0
  | node left _ _ right => max left.height right.height + 1

theorem height_node (left right : Tree κ ν) (key : κ) (value : ν) :
    (node left key value right).height = max left.height right.height + 1 := rfl

variable [LinearOrder κ]

def insert (k : κ) (v : ν) : Tree κ ν → Tree κ ν
  | nil => node nil k v nil
  | node left key value right =>
    if key ≤ k then node left key value (insert k v right)
    else node (insert k v left) key value right

def lookup (q : κ) : Tree κ ν → Option ν
  | nil => none
  | node left key value right =>
    if key = q then some value else if q < key then lookup q left else lookup q right

/-- The insertions of a list, from the front. -/
def ofList (xs : List (κ × ν)) : Tree κ ν := xs.foldl (fun t x => t.insert x.1 x.2) nil

/-- **What was inserted first is found.** -/
theorem lookup_insert (k : κ) (v : ν) (q : κ) (t : Tree κ ν) :
    (t.insert k v).lookup q = (t.lookup q).or (if k = q then some v else none) := by
  induction t with
  | nil =>
    rw [insert, lookup, lookup, Option.none_or]
    split_ifs
    · rfl
    · rfl
    · rfl
  | node left key value right ihl ihr =>
    by_cases hkey : key = q
    · have hold : (node left key value right).lookup q = some value := by rw [lookup, if_pos hkey]
      rw [hold, Option.some_or, insert]
      by_cases hk : key ≤ k
      · rw [if_pos hk, lookup, if_pos hkey]
      · rw [if_neg hk, lookup, if_pos hkey]
    · by_cases hk : key ≤ k
      · rw [insert, if_pos hk, lookup, lookup, if_neg hkey, if_neg hkey, ihr]
        by_cases hq : q < key
        · have hkq : k ≠ q := fun h => absurd hk (not_le.mpr (h ▸ hq))
          rw [if_pos hq, if_pos hq, if_neg hkq, Option.or_none]
        · rw [if_neg hq, if_neg hq]
      · rw [insert, if_neg hk, lookup, lookup, if_neg hkey, if_neg hkey, ihl]
        by_cases hq : q < key
        · rw [if_pos hq, if_pos hq]
        · have hkq : k ≠ q := fun h => absurd (h ▸ not_le.mp hk) hq
          rw [if_neg hq, if_neg hq, if_neg hkq, Option.or_none]

theorem lookup_foldl (xs : List (κ × ν)) (t : Tree κ ν) (q : κ) :
    (xs.foldl (fun t x => t.insert x.1 x.2) t).lookup q =
      (t.lookup q).or ((xs.find? fun x => decide (x.1 = q)).map Prod.snd) := by
  induction xs generalizing t with
  | nil => rw [List.foldl_nil, List.find?_nil, Option.map_none, Option.or_none]
  | cons x xs ih =>
    rw [List.foldl_cons, ih, lookup_insert, Option.or_assoc, List.find?_cons]
    by_cases hx : x.1 = q
    · simp only [hx, if_true, decide_true, Option.some_or, Option.map_some]
    · simp only [hx, if_false, decide_false, Option.none_or]

/-- **A lookup after a list of insertions** is a scan of the list. -/
theorem lookup_ofList (xs : List (κ × ν)) (q : κ) :
    (ofList xs).lookup q = (xs.find? fun x => decide (x.1 = q)).map Prod.snd := by
  rw [ofList, lookup_foldl, lookup, Option.none_or]

/-- An insertion adds one level at most. -/
theorem height_insert_le (k : κ) (v : ν) (t : Tree κ ν) :
    (t.insert k v).height ≤ t.height + 1 := by
  induction t with
  | nil => exact le_rfl
  | node left key value right ihl ihr =>
    rw [insert]
    split_ifs
    · rw [height_node, height_node]
      omega
    · rw [height_node, height_node]
      omega

theorem height_foldl_le (xs : List (κ × ν)) (t : Tree κ ν) :
    (xs.foldl (fun t x => t.insert x.1 x.2) t).height ≤ t.height + xs.length := by
  induction xs generalizing t with
  | nil => exact le_rfl
  | cons x xs ih =>
    have hinsert := height_insert_le x.1 x.2 t
    have hrest := ih (t.insert x.1 x.2)
    rw [List.foldl_cons, List.length_cons]
    omega

/-- The tree of a list is no higher than the list is long. -/
theorem height_ofList_le (xs : List (κ × ν)) : (ofList xs).height ≤ xs.length := by
  have h := height_foldl_le xs nil
  rwa [show (nil : Tree κ ν).height = 0 from rfl, Nat.zero_add] at h

end Tree

end CompSys.Lib.SearchTree
