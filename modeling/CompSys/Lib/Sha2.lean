import Mathlib.Data.Nat.NthRoot.Defs
import Mathlib.Data.Nat.Prime.Basic
import CompSys.Lib.BlockHash
import CompSys.Lib.Bytes

/-! # SHA-256

The hash function of the standard, for texts of whole bytes. The constants are what the standard says that they are:
the first 32 bits of the fractional parts of the roots of the first primes. A text is padded to whole blocks
(`dvd_length_pad`), the last of which ends with the length (`last_block`), and so two texts with the same digest lead to
a collision of `compress` (`collision_of_digest_eq`). -/

namespace CompSys.Lib.Sha2

open CompSys.Lib.Bytes CompSys.Lib.BlockHash

abbrev Byte := BitVec 8
abbrev Word := BitVec 32

/-! ### The functions -/

def ch (x y z : Word) : Word := (x &&& y) ^^^ (~~~x &&& z)

def maj (x y z : Word) : Word := (x &&& y) ^^^ (x &&& z) ^^^ (y &&& z)

def bigSigma0 (x : Word) : Word := x.rotateRight 2 ^^^ x.rotateRight 13 ^^^ x.rotateRight 22

def bigSigma1 (x : Word) : Word := x.rotateRight 6 ^^^ x.rotateRight 11 ^^^ x.rotateRight 25

def smallSigma0 (x : Word) : Word := x.rotateRight 7 ^^^ x.rotateRight 18 ^^^ x >>> 3

def smallSigma1 (x : Word) : Word := x.rotateRight 17 ^^^ x.rotateRight 19 ^^^ x >>> 10

/-! ### The constants -/

/-- The first 32 bits of the fractional part of a root. -/
def rootFraction (k p : ℕ) : Word := BitVec.ofNat 32 (Nat.nthRoot k (p * 2 ^ (32 * k)))

/-- The first 64 primes. -/
def primes : List ℕ := (List.range 312).filter Nat.Prime

/-- The constant of round `t`, from the cube roots. -/
def roundConstant (t : ℕ) : Word := rootFraction 3 (primes.getD t 0)

/-- The first chaining value, from the square roots. -/
def initialHash (i : Fin 8) : Word := rootFraction 2 (primes.getD i 0)

/-! ### A block -/

/-- Word `t` of a block, most significant byte first. -/
def blockWord (b : List Byte) (t : ℕ) : Word :=
  word (b.getD (4 * t + 3) 0) (b.getD (4 * t + 2) 0) (b.getD (4 * t + 1) 0) (b.getD (4 * t) 0)

/-- **The message schedule.** -/
def schedule (b : List Byte) (t : ℕ) : Word :=
  if t < 16 then blockWord b t
  else smallSigma1 (schedule b (t - 2)) + schedule b (t - 7) + smallSigma0 (schedule b (t - 15)) +
    schedule b (t - 16)

/-- Variable `i` of the eight working variables. -/
def var (v : Fin 8 → Word) (i : ℕ) : Word := if h : i < 8 then v ⟨i, h⟩ else 0

/-- One round on the working variables. -/
def round (k w : Word) (v : Fin 8 → Word) : Fin 8 → Word :=
  let t1 := var v 7 + bigSigma1 (var v 4) + ch (var v 4) (var v 5) (var v 6) + k + w
  let t2 := bigSigma0 (var v 0) + maj (var v 0) (var v 1) (var v 2)
  ![t1 + t2, var v 0, var v 1, var v 2, var v 3 + t1, var v 4, var v 5, var v 6]

/-- The first `t` rounds. -/
def rounds (b : List Byte) : ℕ → (Fin 8 → Word) → Fin 8 → Word
  | 0, v => v
  | t + 1, v => round (roundConstant t) (schedule b t) (rounds b t v)

/-- **The compression function.** -/
def compress (h : Fin 8 → Word) (b : List Byte) : Fin 8 → Word := fun i => h i + rounds b 64 h i

/-! ### Padding and the digest -/

/-- The length in bits, most significant byte first. -/
def lengthBytes (n : ℕ) : List Byte :=
  (List.range 8).map fun i => BitVec.ofNat 8 (8 * n / 256 ^ (7 - i))

/-- The number of zero bytes between the bit that ends a text and its length. -/
def zeros (n : ℕ) : ℕ := (119 - n % 64) % 64

def pad (m : List Byte) : List Byte :=
  m ++ 0x80#8 :: (List.replicate (zeros m.length) 0#8 ++ lengthBytes m.length)

/-- The bytes of a chaining value, each word with its most significant byte first. -/
def hashBytes (h : Fin 8 → Word) : List Byte :=
  (List.finRange 8).flatMap fun i => [byteOf (h i) 3, byteOf (h i) 2, byteOf (h i) 1, byteOf (h i) 0]

/-- **The digest** of a text. -/
def digest (m : List Byte) : List Byte := hashBytes (absorb 64 compress initialHash (pad m))

variable {b m m' : List Byte} {t n : ℕ}

/-! ### Constants in numbers -/

/-- A number below 312 is prime if no smaller prime up to 17 divides it. -/
theorem prime_iff (hn : n < 312) : n.Prime ↔ 2 ≤ n ∧ ∀ d ∈ [2, 3, 5, 7, 11, 13, 17], d ∣ n → d = n := by
  constructor
  · intro hp
    refine ⟨hp.two_le, fun d hd hdvd => ?_⟩
    have hd1 : d ≠ 1 := by rintro rfl; revert hd; decide
    exact (hp.eq_one_or_self_of_dvd d hdvd).resolve_left hd1
  · rintro ⟨h2, hdvd⟩
    by_contra hp
    have hfac : n.minFac.Prime := Nat.minFac_prime (by omega)
    have hsq : n.minFac ^ 2 ≤ n := Nat.minFac_sq_le_self (by omega) hp
    have hlt : n.minFac < 18 := by nlinarith
    have hmem : n.minFac ∈ [2, 3, 5, 7, 11, 13, 17] := by
      revert hfac
      interval_cases n.minFac <;> decide
    have hself := hdvd _ hmem (Nat.minFac_dvd n)
    rw [hself, sq] at hsq
    have := Nat.le_of_mul_le_mul_left (hsq.trans_eq (Nat.mul_one n).symm) (by omega)
    omega

theorem primes_eq : primes =
    (List.range 312).filter fun n => 2 ≤ n ∧ ∀ d ∈ [2, 3, 5, 7, 11, 13, 17], d ∣ n → d = n :=
  List.filter_congr fun n hn => by rw [decide_eq_decide]; exact prime_iff (List.mem_range.mp hn)

/-! ### The schedule -/

theorem schedule_of_lt (b : List Byte) (ht : t < 16) : schedule b t = blockWord b t := by
  rw [schedule, if_pos ht]

theorem schedule_add (b : List Byte) (t : ℕ) : schedule b (t + 16) =
    smallSigma1 (schedule b (t + 14)) + schedule b (t + 9) + smallSigma0 (schedule b (t + 1)) + schedule b t := by
  rw [schedule, if_neg (by omega), Nat.add_sub_cancel, show t + 16 - 2 = t + 14 by omega,
    show t + 16 - 7 = t + 9 by omega, show t + 16 - 15 = t + 1 by omega]

/-! ### Different texts -/

theorem dvd_length_pad (m : List Byte) : 64 ∣ (pad m).length := by
  simp only [pad, zeros, lengthBytes, List.length_append, List.length_cons, List.length_replicate, List.length_map,
    List.length_range]
  omega

/-- The padding ends with the length. -/
theorem drop_pad (m : List Byte) : (pad m).drop ((pad m).length - 8) = lengthBytes m.length := by
  have hsplit : pad m = (m ++ 0x80#8 :: List.replicate (zeros m.length) 0#8) ++ lengthBytes m.length := by
    rw [pad, List.append_assoc, List.cons_append]
  have hlen : (lengthBytes m.length).length = 8 := by rw [lengthBytes, List.length_map, List.length_range]
  rw [hsplit]
  refine List.drop_left' ?_
  rw [List.length_append, List.length_append, hlen, List.length_append, Nat.add_sub_cancel]

/-- The last block ends with the length. -/
theorem last_block (m : List Byte) : ∃ l b, pad m = l ++ b ∧ b.length = 64 ∧ 64 ∣ l.length ∧
    b.drop 56 = lengthBytes m.length := by
  obtain ⟨k, hk⟩ := dvd_length_pad m
  have hpos : 0 < (pad m).length := by rw [pad, List.length_append]; exact Nat.add_pos_right _ (Nat.succ_pos _)
  refine ⟨(pad m).take (64 * (k - 1)), (pad m).drop (64 * (k - 1)), (List.take_append_drop _ _).symm, ?_, ?_, ?_⟩
  · rw [List.length_drop]
    omega
  · rw [List.length_take_of_le (by omega)]
    exact Nat.dvd_mul_right 64 _
  · rw [List.drop_drop, ← drop_pad m]
    congr 1
    omega

/-- The digits of a number in base 256. -/
theorem mod_pow_eq {x y : ℕ} (k : ℕ) (h : ∀ i < k, x / 256 ^ i % 256 = y / 256 ^ i % 256) :
    x % 256 ^ k = y % 256 ^ k := by
  induction k with
  | zero => rw [pow_zero, Nat.mod_one, Nat.mod_one]
  | succ k ih =>
    rw [Nat.mod_pow_succ, Nat.mod_pow_succ, ih fun i hi => h i (by omega), h k k.lt_succ_self]

theorem eq_of_lengthBytes {n n' : ℕ} (hn : 8 * n < 2 ^ 64) (hn' : 8 * n' < 2 ^ 64)
    (h : lengthBytes n = lengthBytes n') : n = n' := by
  have hbytes : ∀ i < 8, 8 * n / 256 ^ i % 256 = 8 * n' / 256 ^ i % 256 := fun i hi => by
    have hget := congrArg (fun l => (l.getD (7 - i) 0#8).toNat) h
    simpa [lengthBytes, List.getD_eq_getElem?_getD, List.getElem?_map, List.getElem?_range,
      show 7 - i < 8 by omega, show 7 - (7 - i) = i by omega] using hget
  have hmod := mod_pow_eq 8 hbytes
  rw [show (256 : ℕ) ^ 8 = 2 ^ 64 from rfl, Nat.mod_eq_of_lt hn, Nat.mod_eq_of_lt hn'] at hmod
  omega

/-- Pieces of one length, put together. -/
theorem eq_of_flatMap_eq {ι α : Type*} {f g : ι → List α} {l : List ι} (h : l.flatMap f = l.flatMap g)
    (hlen : ∀ i, (f i).length = (g i).length) : ∀ i ∈ l, f i = g i := by
  induction l with
  | nil => exact fun i hi => absurd hi List.not_mem_nil
  | cons a l ih =>
    rw [List.flatMap_cons, List.flatMap_cons] at h
    obtain ⟨ha, hl⟩ := List.append_inj h (hlen a)
    exact List.forall_mem_cons.mpr ⟨ha, ih hl⟩

theorem hashBytes_inj {h h' : Fin 8 → Word} (heq : hashBytes h = hashBytes h') : h = h' := by
  funext i
  have hword := eq_of_flatMap_eq heq (fun _ => rfl) i (List.mem_finRange i)
  simp only [List.cons.injEq, and_true] at hword
  obtain ⟨h3, h2, h1, h0⟩ := hword
  rw [← word_byteOf (h i), h0, h1, h2, h3, word_byteOf]

/-- **Texts with the same digest** lead to a collision of the compression function. -/
theorem collision_of_digest_eq (hm : 8 * m.length < 2 ^ 64) (hm' : 8 * m'.length < 2 ^ 64)
    (heq : digest m = digest m') (hne : m ≠ m') : Collision 64 compress := by
  have habsorb := hashBytes_inj heq
  by_cases hlen : m.length = m'.length
  · have hpad : pad m ≠ pad m' := fun hpad => hne (List.append_inj hpad hlen).1
    refine collision_of_absorb_eq (by omega) (dvd_length_pad m) ?_ habsorb fun hsame => hpad (Prod.mk.inj hsame).2
    simp only [pad, lengthBytes, List.length_append, List.length_cons, List.length_replicate, List.length_map, hlen]
  · obtain ⟨l, b, hcut, hb, hl, hlast⟩ := last_block m
    obtain ⟨l', b', hcut', hb', hl', hlast'⟩ := last_block m'
    rw [hcut, hcut'] at habsorb
    refine collision_of_last_ne (by omega) hb hb' hl hl' habsorb fun hsame => hlen ?_
    rw [hsame, hlast'] at hlast
    exact (eq_of_lengthBytes hm' hm hlast).symm

end CompSys.Lib.Sha2
