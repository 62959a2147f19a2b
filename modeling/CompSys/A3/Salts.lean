import CompSys.A3.Requests

/-! # The salt on disc (`A3/src/networking.c`)

`save_to_disc` writes the salt and a newline to a file of the user, and `find_file` reads a line of it, with
`SALT_LEN` as the size of the buffer. So `fgets` has room for one character less than the salt has: the next
session finds the salt without its last letter (`find_file_cuts`), and never the salt (`salt_never_survives`). -/

namespace CompSys.A3.Salts

open CompSys.Lib.CString CompSys.A3.Requests

abbrev saltLen : ℕ := 64

abbrev newline : Byte := 10#8

/-- What `arc4random` returns becomes a letter. -/
def letter (random : BitVec 32) : Byte := (97#32 + random % 26#32).setWidth 8

/-- **`generate_salt`**: letters over the first bytes of the memory. Its argument `size` is not used. -/
def generateSalt (random : ℕ → BitVec 32) (salt : List Byte) : List Byte :=
  (List.range saltLen).map (fun i => letter (random i)) ++ salt.drop saltLen

/-- `char file_path[256]`. -/
abbrev filePathLen : ℕ := 256

/-- What there is on disc, and what the system lets the program do. -/
structure Disc where
  file : List Byte → Option (List Byte)
  /-- `mkdir` succeeds, or the folder is there. -/
  folder : Bool
  /-- The paths that `fopen` opens for writing. -/
  writable : List Byte → Bool

/-- The bytes of a string constant. -/
def bytes (s : String) : List Byte := s.toList.map fun c => BitVec.ofNat 8 c.toNat

/-- `file_path`, if it fits its array. -/
def filePath (username : List Byte) : Option (List Byte) :=
  let path := bytes "user_salts/" ++ cString username ++ bytes ".salt"
  if path.length < filePathLen then some path else none

/-- **`save_to_disc`.** -/
def saveToDisc (disc : Disc) (username salt : List Byte) : Option Disc :=
  if disc.folder then
    (filePath username).map fun path =>
      if disc.writable path then
        { disc with file := Function.update disc.file path (some (cString salt ++ [newline])) }
      else disc
  else some disc

/-- **`find_file`**: the memory from `salt` on. -/
def findFile (disc : Disc) (username salt : List Byte) (buffSize : ℕ) : Option (List Byte) :=
  (filePath username).map fun path =>
    match disc.file path with
    | none => salt
    | some file => fgets 0#8 newline buffSize file salt

/-- **The salt survives a restart**: whatever the buffer of the next session holds, `find_file` puts the string into
it, and so the signatures are the same. -/
def SurvivesRestart (sha : List Byte → Hash) (disc : Disc) (username salt : List Byte) : Prop :=
  ∃ saved, saveToDisc disc username salt = some saved ∧
    ∀ buf, ∃ buf', findFile saved username buf saltLen = some buf' ∧ cString buf' = cString salt ∧
      ∀ password, getSignature sha password buf' = getSignature sha password salt

variable {disc saved : Disc} {username salt buf buf' path : List Byte} {random : ℕ → BitVec 32}

/-! ### The salt -/

theorem toNat_letter (random : BitVec 32) : (letter random).toNat = 97 + random.toNat % 26 := by
  have hmod : random.toNat % 26 < 26 := Nat.mod_lt _ (by decide)
  rw [letter, BitVec.toNat_setWidth, BitVec.toNat_add, BitVec.toNat_umod]
  norm_num
  omega

/-- **What `generate_salt` makes** are letters, and no NUL is put behind them. -/
theorem cString_generateSalt (random : ℕ → BitVec 32) (salt : List Byte) : cString (generateSalt random salt) =
    (List.range saltLen).map (fun i => letter (random i)) ++ cString (salt.drop saltLen) := by
  refine str_append_of_not_mem fun h => ?_
  obtain ⟨i, -, hi⟩ := List.mem_map.mp h
  have hto := toNat_letter (random i)
  rw [hi, show (0#8).toNat = 0 from rfl] at hto
  omega

theorem length_generateSalt_ge (random : ℕ → BitVec 32) (salt : List Byte) :
    saltLen ≤ (cString (generateSalt random salt)).length := by
  rw [cString_generateSalt, List.length_append, List.length_map, List.length_range]
  exact Nat.le_add_right _ _

/-! ### The file -/

/-- What `find_file` puts into a buffer is shorter than its size. -/
theorem length_findFile_lt {buffSize : ℕ} (hsize : 1 < buffSize) (hbuf : cString buf = [])
    (hfind : findFile disc username buf buffSize = some buf') : (cString buf').length < buffSize := by
  obtain ⟨path, -, hpath⟩ := Option.map_eq_some_iff.mp hfind
  have hempty : (cString buf).length < buffSize := by
    rw [hbuf]
    exact Nat.lt_of_succ_lt hsize
  cases hfile : disc.file path with
  | none =>
    simp only [hfile] at hpath
    rwa [← hpath]
  | some file =>
    simp only [hfile] at hpath
    rw [← hpath]
    rcases fgets_cases 0#8 newline buffSize file buf with heq | hlt
    · rwa [heq]
    · rwa [max_eq_left (Nat.le_of_lt hsize)] at hlt

/-- **What the next session finds**, if the file can be written: the salt as far as there is room for it. -/
theorem find_file_cuts (hfolder : disc.folder = true) (hpath : filePath username = some path)
    (hwritable : disc.writable path = true) (hsave : saveToDisc disc username salt = some saved)
    {buffSize : ℕ} (hsize : 1 < buffSize) (hlong : buffSize ≤ (cString salt).length + 1)
    (hline : newline ∉ cString salt) :
    ∃ buf', findFile saved username buf buffSize = some buf' ∧ cString buf' = (cString salt).take (buffSize - 1) := by
  have hsaved : saved.file path = some (cString salt ++ [newline]) := by
    rw [saveToDisc, if_pos hfolder, hpath, Option.map_some, if_pos hwritable, Option.some.injEq] at hsave
    rw [← hsave]
    exact Function.update_self _ _ _
  have htake := takeLine_of_le (t := [newline]) hline (show buffSize - 1 ≤ (cString salt).length by omega)
  have hne : (cString salt).take (buffSize - 1) ≠ [] := by
    rw [ne_eq, List.take_eq_nil_iff]
    rintro (h | h)
    · omega
    · rw [h, List.length_nil] at hlong
      omega
  refine ⟨_, by rw [findFile, hpath, Option.map_some], ?_⟩
  simp only [hsaved, fgets, htake, if_neg hne]
  exact str_append fun h => not_mem_str (List.mem_of_mem_take h)

/-- **The salt never survives a restart.** -/
theorem salt_never_survives (sha : List Byte → Hash) (disc : Disc) (username : List Byte) (random : ℕ → BitVec 32)
    (salt : List Byte) : ¬ SurvivesRestart sha disc username (generateSalt random salt) := by
  rintro ⟨saved, -, hfind⟩
  obtain ⟨buf', hbuf', hstr, -⟩ := hfind []
  have hlt := length_findFile_lt (by decide) str_nil hbuf'
  have hge := length_generateSalt_ge random salt
  rw [hstr] at hlt
  omega

/-- A disc with no file, on which the program may do everything. -/
def emptyDisc : Disc := ⟨fun _ => none, true, fun _ => true⟩

/-- The user `a` with a salt of 64 `a`s finds 63 of them. -/
theorem last_letter_lost : ¬ SurvivesRestart firstBytes emptyDisc [97#8, 0#8]
    (generateSalt (fun _ => 0#32) [0#8]) := by
  rintro ⟨saved, -, hfind⟩
  obtain ⟨buf', hbuf', hstr, -⟩ := hfind []
  have hlt := length_findFile_lt (by decide) str_nil hbuf'
  rw [hstr] at hlt
  exact absurd hlt (by decide)

end CompSys.A3.Salts
