import Mathlib.Tactic

/-! # The sequential fauxgrep (`A2/fauxgrep.c`)

A line is what `getline` reads, with its newline; `strstr` and `%s` see it up to its first NUL. -/

namespace CompSys.A2.Fauxgrep

abbrev Byte := BitVec 8

/-- A regular file; without contents it cannot be opened. -/
structure File where
  path : List Byte
  contents : Option (List Byte)
  deriving DecidableEq

/-- What a `printf` prints: the path, the line number and the line. -/
structure Match where
  path : List Byte
  lineno : BitVec 32
  line : List Byte
  deriving DecidableEq

/-- The bytes up to the first newline, and what is left. -/
def splitLine : List Byte → List Byte × List Byte
  | [] => ([], [])
  | c :: cs => if c = 10#8 then ([c], cs) else (c :: (splitLine cs).1, (splitLine cs).2)

/-- `getline`. -/
def getline (rest : List Byte) : Option (List Byte × List Byte) :=
  if rest = [] then none else some (splitLine rest)

/-- A line as a string. -/
def cString (line : List Byte) : List Byte := line.takeWhile (· ≠ 0#8)

/-- `strstr(line, needle) != NULL`. -/
def strstr (line needle : List Byte) : Bool := (cString line).tails.any fun t => needle.isPrefixOf t

theorem splitLine_length {rest : List Byte} (h : rest ≠ []) :
    (splitLine rest).2.length < rest.length := by
  induction rest with
  | nil => exact absurd rfl h
  | cons c cs ih =>
    unfold splitLine
    split_ifs
    · exact Nat.lt_succ_self _
    · by_cases hcs : cs = []
      · subst hcs
        exact Nat.zero_lt_one
      · exact Nat.lt_succ_of_lt (ih hcs)

/-- A line is shorter than what is left before. -/
theorem getline_length {rest line rest' : List Byte} (h : getline rest = some (line, rest')) :
    rest'.length < rest.length := by
  unfold getline at h
  split_ifs at h with hne
  have hsplit := splitLine_length hne
  rw [Option.some.inj h] at hsplit
  exact hsplit

/-- What the loop of `fauxgrep_file` prints, from line `lineno` on. -/
def printLines (needle path : List Byte) (lineno : BitVec 32) (rest : List Byte) : List Match :=
  match h : getline rest with
  | none => []
  | some (line, rest') =>
    have := getline_length h
    if strstr line needle then ⟨path, lineno, cString line⟩ :: printLines needle path (lineno + 1) rest'
    else printLines needle path (lineno + 1) rest'
  termination_by rest.length

/-- `fauxgrep_file`. -/
def fauxgrepFile (needle : List Byte) (f : File) : List Match :=
  match f.contents with
  | none => []
  | some contents => printLines needle f.path 1 contents

/-- `main` of `fauxgrep.c`. -/
def fauxgrep (needle : List Byte) (files : List File) : List Match := files.flatMap (fauxgrepFile needle)

theorem printLines_eof {needle path rest : List Byte} {lineno : BitVec 32} (h : getline rest = none) :
    printLines needle path lineno rest = [] := by
  rw [printLines]
  split
  · rfl
  · next heq => rw [h] at heq; cases heq

theorem printLines_line {needle path rest line rest' : List Byte} {lineno : BitVec 32}
    (h : getline rest = some (line, rest')) :
    printLines needle path lineno rest =
      (if strstr line needle then [⟨path, lineno, cString line⟩] else []) ++
        printLines needle path (lineno + 1) rest' := by
  rw [printLines]
  split
  · next heq => rw [h] at heq; cases heq
  · next line' rest'' heq =>
    rw [h] at heq
    obtain ⟨rfl, rfl⟩ := Prod.mk.inj (Option.some.inj heq)
    split_ifs <;> rfl

end CompSys.A2.Fauxgrep
