import CompSys.Lib.CString

/-! # The requests of the client (`A3/src/networking.c`)

`register_user` and `get_file` both send the username and a signature, the hash of the password with the salt
behind it. A `char*` is the memory from it on. The hash is a parameter, since nothing depends on which one it is.

`get_file` hands `&salt` to `get_signature`, so that what is hashed behind the password is the pointer itself, with
what lies behind it in memory up to a NUL: the two requests authenticate alike only if that happens to be the salt,
or has the same hash behind the password (`authenticates_alike_iff`). -/

namespace CompSys.A3.Requests

open CompSys.Lib.CString

abbrev Byte := BitVec 8

/-- `hashdata_t`. -/
abbrev Hash := Fin 32 → Byte

/-- The string at a `char*`. -/
def cString (mem : List Byte) : List Byte := str 0#8 mem

def strlen (mem : List Byte) : ℕ := (cString mem).length

/-! ### The signature -/

/-- `get_data_sha`, of the first `data_size` bytes. -/
def getDataSha (sha : List Byte → Hash) (sourcedata : List Byte) (dataSize : ℕ) : Hash :=
  sha (sourcedata.take dataSize)

/-- `salted_password`, with the NUL that is put behind it. -/
def saltedPassword (password salt : List Byte) : List Byte :=
  password.take (strlen password) ++ salt.take (strlen salt) ++ [0#8]

/-- **`get_signature`.** -/
def getSignature (sha : List Byte → Hash) (password salt : List Byte) : Hash :=
  getDataSha sha (saltedPassword password salt) (strlen (saltedPassword password salt))

variable {password salt : List Byte}

theorem take_strlen (mem : List Byte) : mem.take (strlen mem) = cString mem :=
  (List.prefix_iff_eq_take.mp (List.takeWhile_prefix _)).symm

/-- **What is hashed** is the password and the salt. -/
theorem getSignature_eq (sha : List Byte → Hash) (password salt : List Byte) :
    getSignature sha password salt = sha (cString password ++ cString salt) := by
  have hsalted : saltedPassword password salt = cString password ++ cString salt ++ [0#8] := by
    rw [saltedPassword, take_strlen, take_strlen]
  have hnul : 0#8 ∉ cString password ++ cString salt := by
    rw [List.mem_append]
    exact not_or.mpr ⟨not_mem_str, not_mem_str⟩
  have hstr : cString (saltedPassword password salt) = cString password ++ cString salt := by
    rw [hsalted]
    exact str_append hnul
  rw [getSignature, getDataSha, strlen, hstr, hsalted, List.take_left]

/-! ### The requests -/

abbrev usernameLen : ℕ := 16
abbrev pathLen : ℕ := 128

/-- `RequestHeader_t`. -/
structure RequestHeader where
  username : Fin 16 → Byte
  saltedAndHashed : Hash
  length : BitVec 32

/-- `Request_t`. -/
structure Request where
  header : RequestHeader
  payload : Fin 128 → Byte

/-- `memcpy` of so many bytes. -/
def memcpy (n : ℕ) (mem : List Byte) : Fin n → Byte := fun i => mem.getD i 0#8

/-- An argument that is a pointer. -/
structure Pointer where
  /-- The memory from the argument on: the bytes of the pointer, and what lies behind them. -/
  itself : List Byte
  /-- The memory that it points to. -/
  target : List Byte

/-- **The request of `register_user`**, once it is connected. -/
def registerUser (sha : List Byte → Hash) (username password : List Byte) (userSalt : Pointer) : RequestHeader where
  username := memcpy usernameLen username
  saltedAndHashed := getSignature sha password userSalt.target
  length := 0

/-- **The request of `get_file`**, once it is connected. Its signature is made with `&salt`. -/
def getFile (sha : List Byte → Hash) (username password : List Byte) (salt : Pointer) (toGet : List Byte) :
    Request where
  header :=
    { username := memcpy usernameLen username
      saltedAndHashed := getSignature sha password salt.itself
      length := BitVec.ofNat 32 (strlen toGet) }
  payload := memcpy pathLen toGet

/-- Two headers with the same username and signature. -/
structure Alike (h h' : RequestHeader) : Prop where
  username : h.username = h'.username
  saltedAndHashed : h.saltedAndHashed = h'.saltedAndHashed

theorem alike_iff (sha : List Byte → Hash) (username password : List Byte) (salt : Pointer) (path : List Byte) :
    Alike (getFile sha username password salt path).header (registerUser sha username password salt) ↔
      sha (cString password ++ cString salt.itself) = sha (cString password ++ cString salt.target) := by
  rw [← getSignature_eq sha password salt.itself, ← getSignature_eq sha password salt.target]
  exact ⟨Alike.saltedAndHashed, fun h => ⟨rfl, h⟩⟩

/-- Two texts that every function takes to the same hash. -/
theorem eq_of_hashes {s t : List Byte} (h : ∀ sha : List Byte → Hash, sha s = sha t) : s = t := by
  by_contra hne
  have hsha := h fun l => if l = s then fun _ => 0#8 else fun _ => 1#8
  simp only [if_true, if_neg (Ne.symm hne)] at hsha
  exact absurd (congrFun hsha 0) (by decide)

/-- **The two requests authenticate alike**, for one hash, if and only if it does not tell the bytes at `&salt` from
the salt; and for every hash, if and only if these bytes are the salt. -/
theorem authenticates_alike_iff (username password : List Byte) (salt : Pointer) (path : List Byte) :
    (∀ sha, Alike (getFile sha username password salt path).header (registerUser sha username password salt) ↔
      sha (cString password ++ cString salt.itself) = sha (cString password ++ cString salt.target)) ∧
    ((∀ sha, Alike (getFile sha username password salt path).header (registerUser sha username password salt)) ↔
      cString salt.itself = cString salt.target) := by
  refine ⟨fun sha => alike_iff sha username password salt path, ?_⟩
  simp only [alike_iff]
  constructor
  · exact fun h => List.append_cancel_left (eq_of_hashes h)
  · exact fun h sha => by rw [h]

/-- A hash for examples: the first 32 bytes. -/
def firstBytes (s : List Byte) : Hash := fun i => s.getD i 0#8

/-- The salt `b`, at the address `0x1061`. -/
def lowSalt : Pointer := ⟨[97#8, 16#8, 0#8], [98#8, 0#8]⟩

/-- **Registration and retrieval** with this salt do not authenticate alike. -/
theorem pointer_signed : ¬ Alike (getFile firstBytes [97#8] [112#8, 0#8] lowSalt [116#8, 0#8]).header
    (registerUser firstBytes [97#8] [112#8, 0#8] lowSalt) := by
  intro h
  exact absurd (congrFun h.saltedAndHashed 1) (by decide)

end CompSys.A3.Requests
