import ZeroEmbedded.Foundation.BlockHash
import ZeroEmbedded.Types

/-!
# The SHA-256 hash

`sha256.c`, and the hash as FIPS 180-4 defines it. A message may be absorbed in
pieces of any size. The context keeps what does not fill a block in its buffer,
and finds its place in the buffer from the number of bits.

## Implementation notes

The names of the standard that differ from those of the code only in the case
of their letters are `bigSigma0` and `bigSigma1`. The functions, the constants
and the byte orders of the standard have definitions of their own; its constants
are taken from roots of primes, not from a table.
-/

namespace ZeroEmbedded.Sha256

open Foundation

/-- `ROTR`. -/
def rotr (x n : UInt32) : UInt32 := x >>> n ||| x <<< (32 - n)

/-- `CH`. -/
def ch (x y z : UInt32) : UInt32 := (x &&& y) ^^^ (~~~x &&& z)

/-- `MAJ`. -/
def maj (x y z : UInt32) : UInt32 := (x &&& y) ^^^ (x &&& z) ^^^ (y &&& z)

/-- `SIGMA0`. -/
def bigSigma0 (x : UInt32) : UInt32 := rotr x 2 ^^^ rotr x 13 ^^^ rotr x 22

/-- `SIGMA1`. -/
def bigSigma1 (x : UInt32) : UInt32 := rotr x 6 ^^^ rotr x 11 ^^^ rotr x 25

/-- `sigma0`. -/
def sigma0 (x : UInt32) : UInt32 := rotr x 7 ^^^ rotr x 18 ^^^ x >>> 3

/-- `sigma1`. -/
def sigma1 (x : UInt32) : UInt32 := rotr x 17 ^^^ rotr x 19 ^^^ x >>> 10

/-- `K`. -/
def k : List UInt32 :=
  [0x428a2f98, 0x71374491, 0xb5c0fbcf, 0xe9b5dba5, 0x3956c25b, 0x59f111f1, 0x923f82a4, 0xab1c5ed5,
    0xd807aa98, 0x12835b01, 0x243185be, 0x550c7dc3, 0x72be5d74, 0x80deb1fe, 0x9bdc06a7, 0xc19bf174,
    0xe49b69c1, 0xefbe4786, 0x0fc19dc6, 0x240ca1cc, 0x2de92c6f, 0x4a7484aa, 0x5cb0a9dc, 0x76f988da,
    0x983e5152, 0xa831c66d, 0xb00327c8, 0xbf597fc7, 0xc6e00bf3, 0xd5a79147, 0x06ca6351, 0x14292967,
    0x27b70a85, 0x2e1b2138, 0x4d2c6dfc, 0x53380d13, 0x650a7354, 0x766a0abb, 0x81c2c92e, 0x92722c85,
    0xa2bfe8a1, 0xa81a664b, 0xc24b8b70, 0xc76c51a3, 0xd192e819, 0xd6990624, 0xf40e3585, 0x106aa070,
    0x19a4c116, 0x1e376c08, 0x2748774c, 0x34b0bcb5, 0x391c0cb3, 0x4ed8aa4a, 0x5b9cca4f, 0x682e6ff3,
    0x748f82ee, 0x78a5636f, 0x84c87814, 0x8cc70208, 0x90befffa, 0xa4506ceb, 0xbef9a3f7, 0xc67178f2]

/-- The variables `a` to `h`. -/
structure Working where
  a : UInt32
  b : UInt32
  c : UInt32
  d : UInt32
  e : UInt32
  f : UInt32
  g : UInt32
  h : UInt32

/-- The first loop over `W`. -/
def loadWords (data : Vector UInt8 64) : List UInt32 :=
  (List.range 16).map fun i =>
    (data.toList.getD (i * 4) 0).toUInt32 <<< 24 |||
      (data.toList.getD (i * 4 + 1) 0).toUInt32 <<< 16 |||
      (data.toList.getD (i * 4 + 2) 0).toUInt32 <<< 8 |||
      (data.toList.getD (i * 4 + 3) 0).toUInt32

/-- The second loop over `W`, where the words in front of `W[i]` are known. -/
def expandLoop : Nat → List UInt32 → List UInt32
  | 0, w => w
  | n + 1, w =>
      let i := w.length
      expandLoop n (w ++ [sigma1 (w.getD (i - 2) 0) + w.getD (i - 7) 0 +
        sigma0 (w.getD (i - 15) 0) + w.getD (i - 16) 0])

/-- A round of the compression. -/
def roundStep (v : Working) (ki wi : UInt32) : Working :=
  let t1 := v.h + bigSigma1 v.e + ch v.e v.f v.g + ki + wi
  let t2 := bigSigma0 v.a + maj v.a v.b v.c
  { h := v.g, g := v.f, f := v.e, e := v.d + t1, d := v.c, c := v.b, b := v.a, a := t1 + t2 }

/-- `sha256_transform`. -/
def sha256Transform (state : Vector UInt32 8) (data : Vector UInt8 64) : Vector UInt32 8 :=
  let w := expandLoop 48 (loadWords data)
  let v := (List.range 64).foldl (fun v i => roundStep v (k.getD i 0) (w.getD i 0))
    ⟨state[0], state[1], state[2], state[3], state[4], state[5], state[6], state[7]⟩
  #v[state[0] + v.a, state[1] + v.b, state[2] + v.c, state[3] + v.d,
    state[4] + v.e, state[5] + v.f, state[6] + v.g, state[7] + v.h]

/-- `fw_sha256_ctx_t`. -/
structure FwSha256Ctx where
  state : Vector UInt32 8
  bitCount : UInt64
  buffer : Vector UInt8 64

/-- The state of `fw_sha256_init`. -/
def initialState : Vector UInt32 8 :=
  #v[0x6a09e667, 0xbb67ae85, 0x3c6ef372, 0xa54ff53a, 0x510e527f, 0x9b05688c, 0x1f83d9ab, 0x5be0cd19]

/-- `fw_sha256_init`, which leaves the buffer as it is. -/
def fwSha256Init (ctx : FwSha256Ctx) : FwSha256Ctx :=
  { ctx with state := initialState, bitCount := 0 }

/-- `memcpy(buffer + idx, p, p_len)`. -/
def copyInto (buffer : Vector UInt8 64) (idx : Nat) (p : List UInt8) : Vector UInt8 64 :=
  Vector.ofFn fun i =>
    if idx ≤ i.val ∧ i.val < idx + p.length then p.getD (i.val - idx) 0 else buffer[i]

/-- `(bit_count / 8) % FW_SHA256_BLOCK_SIZE`. -/
def FwSha256Ctx.bufferIdx (ctx : FwSha256Ctx) : Nat := (ctx.bitCount / 8 % 64).toNat

/-- The loop of `fw_sha256_update`; every round takes at least one byte. -/
def updateLoop : Nat → FwSha256Ctx → Nat → List UInt8 → FwSha256Ctx
  | 0, ctx, _, _ => ctx
  | fuel + 1, ctx, bufferIdx, p =>
      if p.length > 0 then
        let toCopy := 64 - bufferIdx
        let toCopy := if toCopy > p.length then p.length else toCopy
        let ctx := { ctx with buffer := copyInto ctx.buffer bufferIdx (p.take toCopy) }
        if bufferIdx + toCopy = 64 then
          updateLoop fuel { ctx with state := sha256Transform ctx.state ctx.buffer } 0
            (p.drop toCopy)
        else updateLoop fuel ctx (bufferIdx + toCopy) (p.drop toCopy)
      else ctx

/-- `fw_sha256_update`. -/
def fwSha256Update (ctx : FwSha256Ctx) (data : List UInt8) : FwSha256Ctx :=
  if data.length = 0 then ctx
  else
    updateLoop data.length { ctx with bitCount := ctx.bitCount + UInt64.ofNat data.length * 8 }
      ctx.bufferIdx data

/-- The bytes of a word, the most significant one first. -/
def be32 (x : UInt32) : List UInt8 :=
  [(x >>> 24).toUInt8, (x >>> 16).toUInt8, (x >>> 8).toUInt8, x.toUInt8]

/-- The bit length in the last eight bytes of the last block. -/
def lengthBytes (bitCount : UInt64) : List UInt8 :=
  (List.range 8).map fun i => (bitCount >>> UInt64.ofNat (56 - i * 8)).toUInt8

/-- `fw_sha256_final`. -/
def fwSha256Final (ctx : FwSha256Ctx) : List UInt8 × FwSha256Ctx :=
  let bufferIdx := ctx.bufferIdx
  let ctx := { ctx with buffer := copyInto ctx.buffer bufferIdx [0x80] }
  let bufferIdx := bufferIdx + 1
  let (ctx, bufferIdx) :=
    if bufferIdx > 56 then
      let buffer := copyInto ctx.buffer bufferIdx (List.replicate (64 - bufferIdx) 0)
      ({ ctx with buffer := buffer, state := sha256Transform ctx.state buffer }, 0)
    else (ctx, bufferIdx)
  let buffer := copyInto ctx.buffer bufferIdx (List.replicate (56 - bufferIdx) 0)
  let buffer := copyInto buffer 56 (lengthBytes ctx.bitCount)
  let ctx := { ctx with buffer := buffer, state := sha256Transform ctx.state buffer }
  (ctx.state.toList.flatMap be32, ctx)

/-- `fw_sha256_digest`, where `ctx` is what lies on the stack. -/
def fwSha256Digest (ctx : FwSha256Ctx) (data : List UInt8) : List UInt8 :=
  (fwSha256Final (fwSha256Update (fwSha256Init ctx) data)).1

namespace Fips

/-- The rotation of a word to the right. -/
def rotr (n : Nat) (x : UInt32) : UInt32 := ⟨x.toBitVec.rotateRight n⟩

def bigSigma0 (x : UInt32) : UInt32 := rotr 2 x ^^^ rotr 13 x ^^^ rotr 22 x

def bigSigma1 (x : UInt32) : UInt32 := rotr 6 x ^^^ rotr 11 x ^^^ rotr 25 x

def sigma0 (x : UInt32) : UInt32 := rotr 7 x ^^^ rotr 18 x ^^^ x >>> 3

def sigma1 (x : UInt32) : UInt32 := rotr 17 x ^^^ rotr 19 x ^^^ x >>> 10

def ch (x y z : UInt32) : UInt32 := (x &&& y) ^^^ (~~~x &&& z)

def maj (x y z : UInt32) : UInt32 := (x &&& y) ^^^ (x &&& z) ^^^ (y &&& z)

/-- The primes below 312, of which there are 64. -/
def primes : List Nat := (List.range 312).filter Nat.Prime

/-- The first 32 bits of the fractional part of a root. -/
def rootBits (n p : Nat) : UInt32 := UInt32.ofNat (Nat.nthRoot n (p * 2 ^ (32 * n)))

/-- The constants of the rounds, from the cube roots of the first 64 primes. -/
def k : List UInt32 := primes.map (rootBits 3)

/-- The initial hash value, from the square roots of the first eight primes. -/
def initialHash : Vector UInt32 8 := Vector.ofFn fun i => rootBits 2 (primes.getD i 0)

/-- Word `i` of a block, in big-endian order. -/
def word (block : List UInt8) (i : Nat) : UInt32 :=
  UInt32.ofNat ((block.getD (4 * i) 0).toNat * 2 ^ 24 + (block.getD (4 * i + 1) 0).toNat * 2 ^ 16 +
    (block.getD (4 * i + 2) 0).toNat * 2 ^ 8 + (block.getD (4 * i + 3) 0).toNat)

/-- The message schedule of a block. -/
def schedule (block : List UInt8) (t : Nat) : UInt32 :=
  if t < 16 then word block t
  else sigma1 (schedule block (t - 2)) + schedule block (t - 7) + sigma0 (schedule block (t - 15)) +
    schedule block (t - 16)

/-- The working variables after `t` rounds. -/
def working (block : List UInt8) (v : Working) : Nat → Working
  | 0 => v
  | t + 1 =>
      let v := working block v t
      let t1 := v.h + bigSigma1 v.e + ch v.e v.f v.g + k.getD t 0 + schedule block t
      let t2 := bigSigma0 v.a + maj v.a v.b v.c
      ⟨t1 + t2, v.a, v.b, v.c, v.d + t1, v.e, v.f, v.g⟩

/-- The hash value after a block. -/
def compress (state : Vector UInt32 8) (block : List UInt8) : Vector UInt32 8 :=
  let v := working block
    ⟨state[0], state[1], state[2], state[3], state[4], state[5], state[6], state[7]⟩ 64
  Vector.zipWith (· + ·) #v[v.a, v.b, v.c, v.d, v.e, v.f, v.g, v.h] state

/-- The smallest number of zeros that leaves eight bytes of the last block. -/
def zeros (len : Nat) : Nat := (55 + 64 - len % 64) % 64

/-- A 64-bit number in big-endian order. -/
def be64 (n : Nat) : List UInt8 := (List.range 8).map fun i => UInt8.ofNat (n / 256 ^ (7 - i))

/-- A word in big-endian order. -/
def be32 (x : UInt32) : List UInt8 :=
  (List.range 4).map fun i => UInt8.ofNat (x.toNat / 256 ^ (3 - i))

/-- The padded message: the message, the byte 0x80, zeros and the length in bits. -/
def pad (message : List UInt8) : List UInt8 :=
  message ++ 0x80 :: (List.replicate (zeros message.length) 0 ++ be64 (8 * message.length))

/-- The digest of a message. -/
def sha256 (message : List UInt8) : List UInt8 :=
  ((BlockHash.blocks 64 (pad message)).foldl compress initialHash).toList.flatMap be32

end Fips

/-- The sums of the code after its rounds are those of the standard. -/
theorem add_working (state : Vector UInt32 8) (v : Working) :
    #v[state[0] + v.a, state[1] + v.b, state[2] + v.c, state[3] + v.d,
      state[4] + v.e, state[5] + v.f, state[6] + v.g, state[7] + v.h] =
    Vector.zipWith (· + ·) #v[v.a, v.b, v.c, v.d, v.e, v.f, v.g, v.h] state := by
  apply Vector.ext
  intro i hi
  rw [Vector.getElem_zipWith]
  match i, hi with
  | 0, _ | 1, _ | 2, _ | 3, _ | 4, _ | 5, _ | 6, _ | 7, _ => exact UInt32.add_comm _ _

theorem sha256Transform_of_rounds {state : Vector UInt32 8} {data : Vector UInt8 64} {v : Working}
    (hv : (List.range 64).foldl (fun v i => roundStep v (k.getD i 0)
      ((expandLoop 48 (loadWords data)).getD i 0))
      ⟨state[0], state[1], state[2], state[3], state[4], state[5], state[6], state[7]⟩ = v) :
    sha256Transform state data =
      #v[state[0] + v.a, state[1] + v.b, state[2] + v.c, state[3] + v.d,
        state[4] + v.e, state[5] + v.f, state[6] + v.g, state[7] + v.h] := by
  subst hv
  rfl

theorem compress_of_rounds {state : Vector UInt32 8} {block : List UInt8} {v : Working}
    (hv : Fips.working block
      ⟨state[0], state[1], state[2], state[3], state[4], state[5], state[6], state[7]⟩ 64 = v) :
    Fips.compress state block =
      Vector.zipWith (· + ·) #v[v.a, v.b, v.c, v.d, v.e, v.f, v.g, v.h] state := by
  subst hv
  rfl

end ZeroEmbedded.Sha256
