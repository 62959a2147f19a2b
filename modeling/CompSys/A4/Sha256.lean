import CompSys.A4.Wire
import CompSys.Lib.Sha2

/-! # SHA-256 (`A4/src/sha256.c`, the same file as `A3/src/sha256.c`)

As it is compiled on a little-endian host, with neither `SHA256_FAST_COPY` nor `RUNTIME_ENDIAN`, and
`get_data_sha` and `get_file_sha` of `A4/src/peer.c`. `none` is an access out of bounds or of a word that has not been
written. `burnStack`, which clears stack memory, is left out. -/

namespace CompSys.A4.Sha256

open CompSys.Lib.Bytes CompSys.A4.Wire
open CompSys.Lib.Sha2 (Word)

/-! ### The macros -/

def ROTL (x : Word) (n : ℕ) : Word := x <<< n ||| x >>> (32 - n)

def ROTR (x : Word) (n : ℕ) : Word := x >>> n ||| x <<< (32 - n)

def Ch (x y z : Word) : Word := z ^^^ (x &&& (y ^^^ z))

def Maj (x y z : Word) : Word := (x &&& (y ||| z)) ||| (y &&& z)

def SIGMA0 (x : Word) : Word := ROTR x 2 ^^^ ROTR x 13 ^^^ ROTR x 22

def SIGMA1 (x : Word) : Word := ROTR x 6 ^^^ ROTR x 11 ^^^ ROTR x 25

def sigma0 (x : Word) : Word := ROTR x 7 ^^^ ROTR x 18 ^^^ x >>> 3

def sigma1 (x : Word) : Word := ROTR x 17 ^^^ ROTR x 19 ^^^ x >>> 10

def BYTESWAP (x : Word) : Word := (ROTR x 8 &&& 0xff00ff00#32) ||| (ROTL x 8 &&& 0x00ff00ff#32)

/-- `_byteswap64`. -/
def BYTESWAP64 (x : BitVec 64) : BitVec 64 :=
  let a := (x >>> 32).setWidth 32
  let b := x.setWidth 32
  (BYTESWAP b).setWidth 64 <<< 32 ||| (BYTESWAP a).setWidth 64

/-! ### The tables -/

def K : List Word :=
  [0x428a2f98#32, 0x71374491#32, 0xb5c0fbcf#32, 0xe9b5dba5#32,
   0x3956c25b#32, 0x59f111f1#32, 0x923f82a4#32, 0xab1c5ed5#32,
   0xd807aa98#32, 0x12835b01#32, 0x243185be#32, 0x550c7dc3#32,
   0x72be5d74#32, 0x80deb1fe#32, 0x9bdc06a7#32, 0xc19bf174#32,
   0xe49b69c1#32, 0xefbe4786#32, 0x0fc19dc6#32, 0x240ca1cc#32,
   0x2de92c6f#32, 0x4a7484aa#32, 0x5cb0a9dc#32, 0x76f988da#32,
   0x983e5152#32, 0xa831c66d#32, 0xb00327c8#32, 0xbf597fc7#32,
   0xc6e00bf3#32, 0xd5a79147#32, 0x06ca6351#32, 0x14292967#32,
   0x27b70a85#32, 0x2e1b2138#32, 0x4d2c6dfc#32, 0x53380d13#32,
   0x650a7354#32, 0x766a0abb#32, 0x81c2c92e#32, 0x92722c85#32,
   0xa2bfe8a1#32, 0xa81a664b#32, 0xc24b8b70#32, 0xc76c51a3#32,
   0xd192e819#32, 0xd6990624#32, 0xf40e3585#32, 0x106aa070#32,
   0x19a4c116#32, 0x1e376c08#32, 0x2748774c#32, 0x34b0bcb5#32,
   0x391c0cb3#32, 0x4ed8aa4a#32, 0x5b9cca4f#32, 0x682e6ff3#32,
   0x748f82ee#32, 0x78a5636f#32, 0x84c87814#32, 0x8cc70208#32,
   0x90befffa#32, 0xa4506ceb#32, 0xbef9a3f7#32, 0xc67178f2#32]

def padding : List Byte := 0x80#8 :: List.replicate 63 0#8

/-! ### A block -/

/-- `SHA256_CTX`. The words of the buffer are its bytes, four by four. -/
structure Context where
  totalLength : BitVec 64
  hash : Fin 8 → Word
  bufferLength : Word
  bytes : Fin 64 → Byte

/-- `sc->buffer.words`. -/
def Context.words (sc : Context) : List Word :=
  List.ofFn fun k : Fin 16 => word (sc.bytes ⟨4 * k, by omega⟩) (sc.bytes ⟨4 * k + 1, by omega⟩)
    (sc.bytes ⟨4 * k + 2, by omega⟩) (sc.bytes ⟨4 * k + 3, by omega⟩)

/-- `*(W++) = x`. `buf` holds the words that have been written, and `W` points behind them. -/
def put (buf : List Word) (x : Word) : Option (List Word) := if buf.length < 64 then some (buf ++ [x]) else none

/-- The first loop, `i` more times; `cbuf` is what is left of the block. -/
def swapBlock : ℕ → List Word → List Word → Option (List Word)
  | 0, _, buf => some buf
  | i + 1, cbuf, buf => do
    let buf ← put buf (BYTESWAP (← cbuf.head?))
    swapBlock i cbuf.tail buf

/-- `W2`, `W7`, `W15` and `W16`. -/
structure Pointers where
  W2 : ℕ
  W7 : ℕ
  W15 : ℕ
  W16 : ℕ

/-- The second loop, `i` more times. -/
def expand : ℕ → Pointers → List Word → Option (List Word)
  | 0, _, buf => some buf
  | i + 1, p, buf => do
    let buf ← put buf (sigma1 (← buf[p.W2]?) + (← buf[p.W7]?) + sigma0 (← buf[p.W15]?) + (← buf[p.W16]?))
    expand i ⟨p.W2 + 1, p.W7 + 1, p.W15 + 1, p.W16 + 1⟩ buf

/-- The variables of a round. -/
structure Round where
  a : Word
  b : Word
  c : Word
  d : Word
  e : Word
  f : Word
  g : Word
  h : Word
  Kp : ℕ
  W : ℕ

/-- `DO_ROUND`. -/
def DO_ROUND (buf : List Word) (r : Round) : Option Round := do
  let t1 := r.h + SIGMA1 r.e + Ch r.e r.f r.g + (← K[r.Kp]?) + (← buf[r.W]?)
  let t2 := SIGMA0 r.a + Maj r.a r.b r.c
  return { a := t1 + t2, b := r.a, c := r.b, d := r.c, e := r.d + t1, f := r.e, g := r.f, h := r.g
           Kp := r.Kp + 1, W := r.W + 1 }

/-- The loop over the rounds, `i` more times: four of them each time. -/
def unrolled (buf : List Word) : ℕ → Round → Option Round
  | 0, r => some r
  | i + 1, r => do unrolled buf i (← DO_ROUND buf (← DO_ROUND buf (← DO_ROUND buf (← DO_ROUND buf r))))

/-- **`SHA256Guts`.** -/
def SHA256Guts (sc : Context) (cbuf : List Word) : Option Context := do
  let buf ← swapBlock 16 cbuf []
  let buf ← expand 48 { W2 := 14, W7 := 9, W15 := 1, W16 := 0 } buf
  let r ← unrolled buf 16
    { a := sc.hash 0, b := sc.hash 1, c := sc.hash 2, d := sc.hash 3, e := sc.hash 4, f := sc.hash 5
      g := sc.hash 6, h := sc.hash 7, Kp := 0, W := 0 }
  return { sc with hash := ![sc.hash 0 + r.a, sc.hash 1 + r.b, sc.hash 2 + r.c, sc.hash 3 + r.d,
                             sc.hash 4 + r.e, sc.hash 5 + r.f, sc.hash 6 + r.g, sc.hash 7 + r.h] }

/-! ### The three calls -/

/-- `sha256_init`: the buffer keeps what it holds. -/
def sha256Init (sc : Context) : Context :=
  { sc with
    totalLength := 0
    hash := ![0x6a09e667#32, 0xbb67ae85#32, 0x3c6ef372#32, 0xa54ff53a#32,
              0x510e527f#32, 0x9b05688c#32, 0x1f83d9ab#32, 0x5be0cd19#32]
    bufferLength := 0 }

/-- `memcpy` of `n` bytes to the end of what is in the buffer. -/
def memcpy (sc : Context) (data : List Byte) (n : ℕ) : Option (Fin 64 → Byte) :=
  if sc.bufferLength.toNat + n ≤ 64 ∧ n ≤ data.length then
    some fun i => if sc.bufferLength.toNat ≤ i ∧ i < sc.bufferLength.toNat + n then
      data.getD (i - sc.bufferLength.toNat) 0 else sc.bytes i
  else none

/-- An iteration of `sha256_update`: the context and the bytes that it copies. -/
def updateOnce (sc : Context) (data : List Byte) (len : Word) : Option (Context × Word) := do
  let bufferBytesLeft := 64 - sc.bufferLength
  let bytesToCopy := if len < bufferBytesLeft then len else bufferBytesLeft
  let bytes ← memcpy sc data bytesToCopy.toNat
  let sc := { sc with bytes
                      totalLength := sc.totalLength + bytesToCopy.setWidth 64 * 8
                      bufferLength := sc.bufferLength + bytesToCopy }
  let sc ← if sc.bufferLength = 64 then do
      let sc ← SHA256Guts sc sc.words
      pure { sc with bufferLength := 0 }
    else pure sc
  return (sc, bytesToCopy)

/-- `while (len)`, in at most `fuel` iterations. -/
def updateLoop : ℕ → Context → List Byte → Word → Option Context
  | 0, sc, _, len => if len = 0 then some sc else none
  | fuel + 1, sc, data, len =>
    if len = 0 then some sc else do
      let (sc, bytesToCopy) ← updateOnce sc data len
      updateLoop fuel sc (data.drop bytesToCopy.toNat) (len - bytesToCopy)

/-- **`sha256_update`**: `data` is the memory from the pointer on. -/
def sha256Update (sc : Context) (data : List Byte) (len : Word) : Option Context := updateLoop len.toNat sc data len

/-- The bytes of a `uint64_t`. -/
def longBytes (x : BitVec 64) : List Byte := wordBytes (x.setWidth 32) ++ wordBytes ((x >>> 32).setWidth 32)

/-- **`sha256_final`**, with somewhere to put the hash. -/
def sha256Final (sc : Context) : Option (Context × List Byte) := do
  let bytesToPad : Word := 120 - sc.bufferLength
  let bytesToPad := if 64 < bytesToPad then bytesToPad - 64 else bytesToPad
  let lengthPad := BYTESWAP64 sc.totalLength
  let sc ← sha256Update sc padding bytesToPad
  let sc ← sha256Update sc (longBytes lengthPad) 8
  return (sc, (List.finRange 8).flatMap fun i => [(sc.hash i >>> 24).setWidth 8, (sc.hash i >>> 16).setWidth 8,
    (sc.hash i >>> 8).setWidth 8, (sc.hash i).setWidth 8])

/-! ### Hashing data and files -/

/-- **`get_data_sha`**. `sha256_final` writes 32 bytes of `shabuffer`, which has `hash_size` of them, and then
`hash_size` bytes of the 32 of `hash` are written. -/
def getDataSha (shactx : Context) (sourcedata : List Byte) (dataSize : Word) (hashSize : ℤ) : Option (List Byte) := do
  let (_, shabuffer) ← sha256Final (← sha256Update (sha256Init shactx) sourcedata dataSize)
  if shabuffer.length ≤ hashSize ∧ hashSize ≤ 32 then shabuffer else none

/-- **`get_file_sha`** on a file that can be opened: `ftell` gives an `int`. -/
def getFileSha (shactx : Context) (file : List Byte) (size : ℤ) : Option (List Byte) :=
  let cascFileSize := BitVec.ofNat 32 file.length
  if 0 ≤ cascFileSize.toInt then getDataSha shactx (file.take cascFileSize.toNat) cascFileSize size else none

end CompSys.A4.Sha256
