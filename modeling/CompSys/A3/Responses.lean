import CompSys.Lib.Bytes
import CompSys.A3.Requests

/-! # The arrays of the client (`A3/src/networking.c`)

`get_signature` makes `salted_password`, and `register_user` and `get_file` make `response`, as long as the text that
goes into it, and put a NUL behind that text: one element behind the array, whatever the passwords, the salts and
the responses are (`never_inside`). What is copied before that stays inside if and only if the response came as far
as its length field says (`received_iff`). -/

namespace CompSys.A3.Responses

open CompSys.Lib.Bytes CompSys.A3.Requests

/-- `MAXBUF`. -/
abbrev maxBuf : ℕ := 8192

/-- `RESPONSE_HEADER_LEN`. -/
abbrev responseHeaderLen : ℕ := 80

/-! ### Receiving -/

/-- `compsys_helper_readn`: what it puts into its buffer, with what `read` has for it in turn. A read of nothing is
the end of the file. -/
def readn : List (List Byte) → ℕ → List Byte
  | [], _ => []
  | bytes :: reads, nleft =>
    if nleft = 0 ∨ bytes = [] then []
    else bytes.take nleft ++ readn reads (nleft - (bytes.take nleft).length)

/-- The part of `resbuf` that was received. -/
def received (reads : List (List Byte)) : List Byte := readn reads maxBuf

/-- `resbuf`; behind what was received is what the array held. -/
def resbuf (reads : List (List Byte)) (stack : ℕ → Byte) (i : ℕ) : Byte :=
  if i < (received reads).length then (received reads).getD i 0#8 else stack i

/-- `len`. -/
def responseLength (reads : List (List Byte)) (stack : ℕ → Byte) : ℕ :=
  (swap (word (resbuf reads stack 0) (resbuf reads stack 1) (resbuf reads stack 2) (resbuf reads stack 3))).toNat

/-! ### Accesses -/

/-- An element of `salted_password` or `response` that is written. -/
structure Write where
  index : ℕ
  /-- The number of elements of the array. -/
  size : ℕ
deriving DecidableEq

/-- What a function writes to these arrays, and what it copies out of `resbuf`. -/
structure Accesses where
  writes : List Write
  copied : List ℕ

def Accesses.append (a b : Accesses) : Accesses := ⟨a.writes ++ b.writes, a.copied ++ b.copied⟩

/-- `memcpy` of `n` elements, to `start` and the places behind it. -/
def copyWrites (start n size : ℕ) : List Write := (List.range n).map fun i => ⟨start + i, size⟩

/-- `salted_password`. -/
def signatureAccesses (password salt : List Byte) : Accesses where
  writes :=
    copyWrites 0 (strlen password) (strlen password + strlen salt) ++
      copyWrites (strlen password) (strlen salt) (strlen password + strlen salt) ++
      [⟨strlen password + strlen salt, strlen password + strlen salt⟩]
  copied := []

/-- The header fields in `resbuf`, by their places and lengths: the length, the status code, the number of the block,
the number of blocks, and the two hashes. -/
def headerFields : List (ℕ × ℕ) := [(0, 4), (4, 4), (8, 4), (12, 4), (16, 32), (48, 32)]

/-- The places that are copied out of `resbuf`, for a response of `len` bytes. -/
def copiedPlaces (len : ℕ) : List ℕ :=
  (headerFields ++ [(responseHeaderLen, len)]).flatMap fun field => (List.range field.2).map (field.1 + ·)

/-- **The response**, in `register_user` and `get_file`. -/
def responseAccesses (reads : List (List Byte)) (stack : ℕ → Byte) : Accesses where
  writes :=
    copyWrites 0 (responseLength reads stack) (responseLength reads stack) ++
      [⟨responseLength reads stack, responseLength reads stack⟩]
  copied := copiedPlaces (responseLength reads stack)

/-- **`register_user`**, once it is connected. -/
def registerUserAccesses (password : List Byte) (userSalt : Pointer) (reads : List (List Byte))
    (stack : ℕ → Byte) : Accesses :=
  (signatureAccesses password userSalt.target).append (responseAccesses reads stack)

/-- **`get_file`**, once it is connected. -/
def getFileAccesses (password : List Byte) (salt : Pointer) (reads : List (List Byte)) (stack : ℕ → Byte) :
    Accesses :=
  (signatureAccesses password salt.itself).append (responseAccesses reads stack)

/-- **Every element written lies inside its array**, and every byte copied inside the part received. -/
structure Accesses.Inside (a : Accesses) (received : List Byte) : Prop where
  writes : ∀ w ∈ a.writes, w.index < w.size
  copied : ∀ i ∈ a.copied, i < received.length

variable {reads : List (List Byte)} {stack : ℕ → Byte} {a b : Accesses} {l : List Byte}

/-! ### What is copied -/

theorem length_readn_le : ∀ (reads : List (List Byte)) (n : ℕ), (readn reads n).length ≤ n
  | [], _ => Nat.zero_le _
  | bytes :: reads, n => by
    rw [readn]
    split_ifs
    · exact Nat.zero_le _
    · have hrest := length_readn_le reads (n - (bytes.take n).length)
      have htake : (bytes.take n).length ≤ n := List.length_take_le n bytes
      rw [List.length_append]
      omega

theorem copyWrites_inside {start n size : ℕ} (h : start + n ≤ size) :
    ∀ w ∈ copyWrites start n size, w.index < w.size := by
  intro w hw
  obtain ⟨i, hi, rfl⟩ := List.mem_map.mp hw
  have hlt := List.mem_range.mp hi
  show start + i < size
  omega

theorem mem_copiedPlaces {i len : ℕ} : i ∈ copiedPlaces len ↔ i < responseHeaderLen + len := by
  have hfield : ∀ start n, i ∈ (List.range n).map (start + ·) ↔ start ≤ i ∧ i < start + n := by
    intro start n
    rw [List.mem_map]
    constructor
    · rintro ⟨j, hj, rfl⟩
      have hlt := List.mem_range.mp hj
      omega
    · exact fun h => ⟨i - start, List.mem_range.mpr (by omega), by omega⟩
  simp only [copiedPlaces, headerFields, List.cons_append, List.nil_append, List.flatMap_cons, List.flatMap_nil,
    List.append_nil, List.mem_append, hfield, responseHeaderLen]
  omega

/-- **What is copied out of `resbuf`** was received if and only if the response came as far as its length says. -/
theorem received_iff (reads : List (List Byte)) (stack : ℕ → Byte) :
    (∀ i ∈ (responseAccesses reads stack).copied, i < (received reads).length) ↔
      responseHeaderLen + responseLength reads stack ≤ (received reads).length := by
  simp only [responseAccesses, mem_copiedPlaces]
  constructor
  · intro h
    by_contra hlt
    exact absurd (h _ (not_le.mp hlt)) (lt_irrefl _)
  · exact fun h i hi => lt_of_lt_of_le hi h

/-- Then the length says no more than fits the buffer. -/
theorem length_le_of_received
    (h : ∀ i ∈ (responseAccesses reads stack).copied, i < (received reads).length) :
    responseLength reads stack ≤ maxBuf - responseHeaderLen :=
  Nat.le_sub_of_add_le' (((received_iff reads stack).mp h).trans (length_readn_le reads maxBuf))

/-- **Up to the terminators** nothing is written outside. -/
theorem texts_inside (password salt : List Byte) (len : ℕ) :
    (∀ w ∈ copyWrites 0 (strlen password) (strlen password + strlen salt) ++
      copyWrites (strlen password) (strlen salt) (strlen password + strlen salt), w.index < w.size) ∧
      ∀ w ∈ copyWrites 0 len len, w.index < w.size := by
  refine ⟨fun w hw => ?_, copyWrites_inside (Nat.zero_add len).le⟩
  rcases List.mem_append.mp hw with hw | hw
  · exact copyWrites_inside (by omega) w hw
  · exact copyWrites_inside le_rfl w hw

/-! ### The terminators -/

theorem Accesses.Inside.left (h : (a.append b).Inside l) : a.Inside l :=
  ⟨fun w hw => h.writes w (List.mem_append_left _ hw), fun i hi => h.copied i (List.mem_append_left _ hi)⟩

/-- **`get_signature`** writes behind its array. -/
theorem signature_outside (password salt received : List Byte) :
    ¬ (signatureAccesses password salt).Inside received := fun h =>
  lt_irrefl _ (h.writes ⟨strlen password + strlen salt, strlen password + strlen salt⟩
    (List.mem_append_right _ (List.mem_singleton_self _)))

/-- So does the response. -/
theorem response_outside (reads : List (List Byte)) (stack : ℕ → Byte) (received : List Byte) :
    ¬ (responseAccesses reads stack).Inside received := fun h =>
  lt_irrefl _ (h.writes ⟨responseLength reads stack, responseLength reads stack⟩
    (List.mem_append_right _ (List.mem_singleton_self _)))

/-- **The client never stays in bounds**: not in `get_signature`, nor in what the two requests do with their
response. -/
theorem never_inside (password : List Byte) (salt : Pointer) (reads : List (List Byte)) (stack : ℕ → Byte) :
    ¬ (signatureAccesses password salt.target).Inside (received reads) ∧
      ¬ (registerUserAccesses password salt reads stack).Inside (received reads) ∧
      ¬ (getFileAccesses password salt reads stack).Inside (received reads) ∧
      ¬ (responseAccesses reads stack).Inside (received reads) :=
  ⟨signature_outside _ _ _, fun h => signature_outside _ _ _ h.left, fun h => signature_outside _ _ _ h.left,
    response_outside _ _ _⟩

/-- The password `p` with the salt `s`: an array of two elements, of which the third is written. -/
theorem third_of_two : ¬ (signatureAccesses [112#8, 0#8] [115#8, 0#8]).Inside [] := fun h =>
  absurd (h.writes ⟨2, 2⟩ (by decide)) (by decide)

end CompSys.A3.Responses
