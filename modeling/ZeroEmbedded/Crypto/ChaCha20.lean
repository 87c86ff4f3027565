import ZeroEmbedded.Foundation.ByteMemory
import ZeroEmbedded.Foundation.ErasableMemory
import ZeroEmbedded.Foundation.Keystream
import ZeroEmbedded.Types

/-!
# The ChaCha20 cipher

`chacha20.c`. A context carries the block counter from one call to the next,
but not the bytes of a block that the last call has left over.

The block function of the standard does the quarter rounds of four columns and
of four diagonals at once. The statements of `chacha20_block` run the macro on
one line after the other.

`fw_chacha20_crypt` has two pointers. The output may be the input, or lie
beside it, and the loops then compute what they compute on lists. The context
and the keystream buffer are objects of their own.
-/

namespace ZeroEmbedded.ChaCha20

open Foundation

/-- `ROTL32`. -/
def rotl32 (v n : UInt32) : UInt32 := v <<< n ||| v >>> (32 - n)

/-- `QR`. -/
def qr (x : Vector UInt32 16) (a b c d : Fin 16) : Vector UInt32 16 :=
  let x := x.set a (x[a] + x[b])
  let x := x.set d (x[d] ^^^ x[a])
  let x := x.set d (rotl32 x[d] 16)
  let x := x.set c (x[c] + x[d])
  let x := x.set b (x[b] ^^^ x[c])
  let x := x.set b (rotl32 x[b] 12)
  let x := x.set a (x[a] + x[b])
  let x := x.set d (x[d] ^^^ x[a])
  let x := x.set d (rotl32 x[d] 8)
  let x := x.set c (x[c] + x[d])
  let x := x.set b (x[b] ^^^ x[c])
  x.set b (rotl32 x[b] 7)

/-- `fw_chacha20_ctx_t`. -/
structure FwChacha20Ctx where
  state : Vector UInt32 16
  deriving DecidableEq

/-- `load_le32`. -/
def loadLe32 {n : Nat} (p : Vector UInt8 n) (i : Nat) (h : i + 3 < n) : UInt32 :=
  ofLe32 p[i] p[i + 1] p[i + 2] p[i + 3]

/-- `fw_chacha20_init`. -/
def fwChacha20Init (key : Vector UInt8 32) (nonce : Vector UInt8 12) (counter : UInt32) :
    FwChacha20Ctx :=
  ⟨#v[0x61707865, 0x3320646e, 0x79622d32, 0x6b206574,
    loadLe32 key 0 (by decide), loadLe32 key 4 (by decide), loadLe32 key 8 (by decide),
    loadLe32 key 12 (by decide), loadLe32 key 16 (by decide), loadLe32 key 20 (by decide),
    loadLe32 key 24 (by decide), loadLe32 key 28 (by decide), counter,
    loadLe32 nonce 0 (by decide), loadLe32 nonce 4 (by decide), loadLe32 nonce 8 (by decide)]⟩

/-- A column round and a diagonal round. -/
def doubleRound (x : Vector UInt32 16) : Vector UInt32 16 :=
  let x := qr x 0 4 8 12
  let x := qr x 1 5 9 13
  let x := qr x 2 6 10 14
  let x := qr x 3 7 11 15
  let x := qr x 0 5 10 15
  let x := qr x 1 6 11 12
  let x := qr x 2 7 8 13
  qr x 3 4 9 14

/-- The bytes that `chacha20_block` writes to `output`. -/
def blockOutput (ctx : FwChacha20Ctx) : List UInt8 :=
  let x := doubleRound^[10] ctx.state
  (Vector.zipWith (· + ·) x ctx.state).toList.flatMap le32

/-- `ctx->state[12]++`. -/
def FwChacha20Ctx.next (ctx : FwChacha20Ctx) : FwChacha20Ctx :=
  ⟨ctx.state.set 12 (ctx.state[12] + 1)⟩

/-- `chacha20_block`. -/
def chacha20Block (ctx : FwChacha20Ctx) : List UInt8 × FwChacha20Ctx :=
  (blockOutput ctx, ctx.next)

/-- The loop of `fw_chacha20_crypt`; every round treats at least one byte. -/
def cryptLoop : Nat → FwChacha20Ctx → List UInt8 → List UInt8 × FwChacha20Ctx
  | 0, ctx, _ => ([], ctx)
  | fuel + 1, ctx, input =>
      if input.length > 0 then
        let (keystream, ctx) := chacha20Block ctx
        let chunk := if input.length > 64 then 64 else input.length
        let out := List.zipWith (· ^^^ ·) (input.take chunk) keystream
        let rest := cryptLoop fuel ctx (input.drop chunk)
        (out ++ rest.1, rest.2)
      else ([], ctx)

/-- `fw_chacha20_crypt`. -/
def fwChacha20Crypt (ctx : FwChacha20Ctx) (input : List UInt8) : List UInt8 × FwChacha20Ctx :=
  cryptLoop input.length ctx input

/-- One call of `fw_chacha20_crypt` for each piece of the data. -/
def cryptPieces (ctx : FwChacha20Ctx) : List Nat → List UInt8 → List UInt8
  | [], _ => []
  | len :: lens, input =>
      let (out, ctx) := fwChacha20Crypt ctx (input.take len)
      out ++ cryptPieces ctx lens (input.drop len)

/-- The keystream byte at a position behind a context. -/
def FwChacha20Ctx.keyByte (ctx : FwChacha20Ctx) (p : Nat × Nat) : UInt8 :=
  (blockOutput (FwChacha20Ctx.next^[p.1] ctx)).getD p.2 0

section Keystream

variable {ctx : FwChacha20Ctx} {input : List UInt8} {lens : List Nat}

theorem length_flatMap_le32 (words : List UInt32) :
    (words.flatMap le32).length = 4 * words.length := by
  induction words with
  | nil => rfl
  | cons w words ih =>
      rw [List.flatMap_cons, List.length_append, ih, le32_length, List.length_cons, Nat.mul_succ,
        Nat.add_comm]

@[simp] theorem length_blockOutput : (blockOutput ctx).length = 64 := by
  rw [blockOutput, length_flatMap_le32, Vector.length_toList]

/-- The keystream of a later context. -/
theorem keyByte_iterate (n : Nat) :
    (FwChacha20Ctx.next^[n] ctx).keyByte = fun p => ctx.keyByte (p.1 + n, p.2) := by
  funext p
  rw [FwChacha20Ctx.keyByte, FwChacha20Ctx.keyByte, Function.iterate_add_apply]

/-- The first bytes of a block are the keystream bytes at its positions. -/
theorem take_blockOutput {n : Nat} (hn : n ≤ 64) :
    (blockOutput ctx).take n = (List.range n).map fun i => ctx.keyByte (0, i) := by
  apply List.ext_getElem
  · rw [List.length_take, length_blockOutput, List.length_map, List.length_range]
    omega
  · intro i hi hi'
    have hin : i < (blockOutput ctx).length := by
      rw [List.length_take] at hi
      exact Nat.lt_of_lt_of_le hi (Nat.min_le_right _ _)
    rw [List.getElem_take, List.getElem_map, List.getElem_range, FwChacha20Ctx.keyByte]
    exact (List.getD_eq_getElem _ _ hin).symm

/-- The loop adds the keystream of a piece and moves on to the block behind it. -/
theorem cryptLoop_eq (fuel : Nat) (hfuel : input.length ≤ fuel) :
    cryptLoop fuel ctx input =
      (Keystream.add input ((Keystream.piece 64 0 input.length).map ctx.keyByte),
        FwChacha20Ctx.next^[Keystream.blocks 64 input.length] ctx) := by
  induction fuel generalizing ctx input with
  | zero =>
      rw [List.eq_nil_of_length_eq_zero (Nat.le_zero.mp hfuel)]
      rfl
  | succ fuel ih =>
      rw [cryptLoop]
      by_cases hpos : input.length > 0
      · have hchunk : (if input.length > 64 then 64 else input.length) = min 64 input.length := by
          split <;> omega
        have hlen : (input.drop (min 64 input.length)).length = input.length - 64 := by
          rw [List.length_drop]
          omega
        have hfirst : (input.take (min 64 input.length)).length ≤ min 64 input.length :=
          List.length_take_le _ _
        have hrest := @ih ctx.next (input.drop (min 64 input.length)) (by omega)
        have hnext : ctx.next.keyByte = fun p => ctx.keyByte (p.1 + 1, p.2) := keyByte_iterate 1
        rw [if_pos hpos, hchunk]
        simp only [chacha20Block, hrest, hlen]
        congr 1
        · calc
            Keystream.add (input.take (min 64 input.length)) (blockOutput ctx) ++
                Keystream.add (input.drop (min 64 input.length))
                  ((Keystream.piece 64 0 (input.length - 64)).map ctx.next.keyByte) =
              Keystream.add (input.take (min 64 input.length))
                  ((List.range (min 64 input.length)).map fun i => ctx.keyByte (0, i)) ++
                Keystream.add (input.drop (min 64 input.length))
                  ((Keystream.piece 64 (0 + 1) (input.length - 64)).map ctx.keyByte) := by
                rw [← take_blockOutput (Nat.min_le_left _ _), Keystream.add_take hfirst,
                  Keystream.piece_add, List.map_map, hnext]
                rfl
            _ = Keystream.add input ((Keystream.piece 64 0 input.length).map ctx.keyByte) := by
                rw [Keystream.piece_eq_append (by decide) input.length, List.map_append,
                  List.map_map, ← Keystream.add_append, List.take_append_drop]
                · rfl
                · rw [List.length_take, List.length_map, List.length_range]
                  omega
        · rw [Keystream.blocks_succ (by decide) hpos, Nat.add_comm, Function.iterate_succ_apply]
      · rw [if_neg hpos, List.eq_nil_of_length_eq_zero (Nat.eq_zero_of_not_pos hpos)]
        rfl

/-- `fw_chacha20_crypt` adds the keystream of a piece and moves on to the block behind it. -/
theorem fwChacha20Crypt_eq (ctx : FwChacha20Ctx) (input : List UInt8) :
    fwChacha20Crypt ctx input =
      (Keystream.add input ((Keystream.piece 64 0 input.length).map ctx.keyByte),
        FwChacha20Ctx.next^[Keystream.blocks 64 input.length] ctx) :=
  cryptLoop_eq _ (Nat.le_refl _)

/-- Calls on consecutive pieces add the keystream bytes at the positions of the pieces. -/
theorem cryptPieces_eq (hsum : lens.sum = input.length) :
    cryptPieces ctx lens input =
      Keystream.add input ((Keystream.positions 64 0 lens).map ctx.keyByte) := by
  induction lens generalizing ctx input with
  | nil =>
      rw [List.eq_nil_of_length_eq_zero hsum.symm]
      rfl
  | cons len lens ih =>
      rw [List.sum_cons] at hsum
      have htake : (input.take len).length = len := by
        rw [List.length_take]
        omega
      have hdrop : lens.sum = (input.drop len).length := by
        rw [List.length_drop]
        omega
      rw [cryptPieces, fwChacha20Crypt_eq]
      dsimp only
      rw [ih hdrop, htake, keyByte_iterate, Keystream.positions, Keystream.positions_add,
        List.map_append, List.map_map, ← Keystream.add_append, List.take_append_drop]
      · rfl
      · rw [htake, List.length_map, Keystream.length_piece]

end Keystream

/-- Encryption along one partition and decryption along another give back the plaintext. -/
def RoundTrip (key : Vector UInt8 32) (nonce : Vector UInt8 12) (counter : UInt32)
    (plaintext : List UInt8) (lens lens' : List Nat) : Prop :=
  cryptPieces (fwChacha20Init key nonce counter) lens'
    (cryptPieces (fwChacha20Init key nonce counter) lens plaintext) = plaintext

/-- The plaintext is given back exactly when both partitions use the same keystream. -/
theorem roundTrip_iff {key : Vector UInt8 32} {nonce : Vector UInt8 12} {counter : UInt32}
    {plaintext : List UInt8} {lens lens' : List Nat} (hsum : lens.sum = plaintext.length)
    (hsum' : lens'.sum = plaintext.length) :
    RoundTrip key nonce counter plaintext lens lens' ↔
      (Keystream.positions 64 0 lens).map (fwChacha20Init key nonce counter).keyByte =
        (Keystream.positions 64 0 lens').map (fwChacha20Init key nonce counter).keyByte := by
  have hlen : plaintext.length = ((Keystream.positions 64 0 lens).map
      (fwChacha20Init key nonce counter).keyByte).length := by
    rw [List.length_map, Keystream.length_positions, hsum]
  have hlen' : plaintext.length = ((Keystream.positions 64 0 lens').map
      (fwChacha20Init key nonce counter).keyByte).length := by
    rw [List.length_map, Keystream.length_positions, hsum']
  rw [RoundTrip, cryptPieces_eq hsum,
    cryptPieces_eq (by rw [hsum', Keystream.length_add hlen]), Keystream.add_add_eq_iff hlen hlen']

/-- The block counter of a context that has left `n` blocks behind. -/
theorem iterate_next_init (key : Vector UInt8 32) (nonce : Vector UInt8 12) (counter : UInt32)
    (n : Nat) : FwChacha20Ctx.next^[n] (fwChacha20Init key nonce counter) =
      fwChacha20Init key nonce (counter + UInt32.ofNat n) := by
  induction n with
  | zero =>
      rw [Function.iterate_zero_apply]
      exact congrArg (fwChacha20Init key nonce) (UInt32.add_zero counter).symm
  | succ n ih =>
      rw [Function.iterate_succ_apply', ih, UInt32.ofNat_add, ← UInt32.add_assoc]
      rfl

/-- The context of the all-zero key and nonce. -/
def zeroCtx (counter : UInt32) : FwChacha20Ctx :=
  fwChacha20Init (Vector.replicate 32 0) (Vector.replicate 12 0) counter

/-- The first block of the zero key. -/
theorem blockOutput_zeroCtx : blockOutput (zeroCtx 0) =
    [0x76, 0xb8, 0xe0, 0xad, 0xa0, 0xf1, 0x3d, 0x90, 0x40, 0x5d, 0x6a, 0xe5, 0x53, 0x86, 0xbd,
      0x28, 0xbd, 0xd2, 0x19, 0xb8, 0xa0, 0x8d, 0xed, 0x1a, 0xa8, 0x36, 0xef, 0xcc, 0x8b, 0x77,
      0x0d, 0xc7, 0xda, 0x41, 0x59, 0x7c, 0x51, 0x57, 0x48, 0x8d, 0x77, 0x24, 0xe0, 0x3f, 0xb8,
      0xd8, 0x4a, 0x37, 0x6a, 0x43, 0xb8, 0xf4, 0x15, 0x18, 0xa1, 0x1c, 0xc3, 0x87, 0xb6, 0x69,
      0xb2, 0xee, 0x65, 0x86] := by
  decide +kernel

/-- The second one begins with a byte that does not occur in the first one. -/
theorem keyByte_zeroCtx : (zeroCtx 0).keyByte (1, 0) = 0x9f := by decide +kernel

theorem zeroCtx_fork (i : Nat) (hi : i < 64) :
    (zeroCtx 0).keyByte (0, i) ≠ (zeroCtx 0).keyByte (1, 0) := by
  have hlen : i < (blockOutput (zeroCtx 0)).length := by rwa [length_blockOutput]
  have hbyte : (zeroCtx 0).keyByte (0, i) = (blockOutput (zeroCtx 0))[i] :=
    List.getD_eq_getElem _ _ hlen
  have hmem : (zeroCtx 0).keyByte (0, i) ∈ blockOutput (zeroCtx 0) := by
    rw [hbyte]
    exact List.getElem_mem hlen
  intro heq
  rw [heq, keyByte_zeroCtx, blockOutput_zeroCtx] at hmem
  exact absurd hmem (by decide)

/-- Piecewise encryption and piecewise decryption are inverse for all keys, nonces, counters and
plaintexts exactly when the two partitions put each byte at the same position of the keystream. -/
theorem cryptPieces_roundTrip_iff {lens lens' : List Nat} (hsum : lens.sum = lens'.sum) :
    (∀ key nonce counter (plaintext : List UInt8), plaintext.length = lens.sum →
      RoundTrip key nonce counter plaintext lens lens') ↔
      Keystream.positions 64 0 lens = Keystream.positions 64 0 lens' := by
  constructor
  · intro hclaim
    by_contra hne
    obtain ⟨j, b, i, hi, hfork⟩ := Keystream.positions_fork (by decide) hsum hne
    -- the counter at which block `b` is the first block of the zero key
    have htrip := hclaim (Vector.replicate 32 0) (Vector.replicate 12 0) (0 - UInt32.ofNat b)
      (List.replicate lens.sum 0) List.length_replicate
    have hstreams := (roundTrip_iff List.length_replicate.symm
      (hsum.symm.trans List.length_replicate.symm)).mp htrip
    have hbyte : ∀ p : Nat × Nat,
        (zeroCtx (0 - UInt32.ofNat b)).keyByte (p.1 + b, p.2) = (zeroCtx 0).keyByte p := by
      intro p
      have hctx : FwChacha20Ctx.next^[b] (zeroCtx (0 - UInt32.ofNat b)) = zeroCtx 0 := by
        rw [zeroCtx, iterate_next_init, UInt32.sub_add_cancel]
        rfl
      rw [← hctx, keyByte_iterate]
    have hleft := hbyte (0, i + 1)
    have hright := hbyte (1, 0)
    rw [Nat.zero_add] at hleft
    rw [Nat.add_comm] at hright
    have hat := congrArg (fun l : List UInt8 => l[j]?) hstreams
    simp only [List.getElem?_map] at hat
    rcases hfork with ⟨hl, hl'⟩ | ⟨hl, hl'⟩
    · rw [hl, hl', Option.map_some, Option.map_some, Option.some.injEq] at hat
      exact zeroCtx_fork (i + 1) hi (hleft.symm.trans (hat.trans hright))
    · rw [hl, hl', Option.map_some, Option.map_some, Option.some.injEq] at hat
      exact zeroCtx_fork (i + 1) hi (hleft.symm.trans (hat.symm.trans hright))
  · intro hpositions key nonce counter plaintext hlen
    exact (roundTrip_iff hlen.symm (hsum.symm.trans hlen.symm)).mpr (by rw [hpositions])

theorem cryptPieces_roundTrip_sample :
    RoundTrip (Vector.replicate 32 7) (Vector.replicate 12 9) 1 (List.replicate 70 5) [64, 6]
      [0, 70] :=
  (@cryptPieces_roundTrip_iff [64, 6] [0, 70] rfl).mpr (by decide) _ _ _ _ rfl

/-- Two zero bytes encrypted one by one with the zero key are not decrypted by one call. -/
theorem cryptPieces_loses :
    ¬ ∀ key nonce counter (plaintext : List UInt8) (lens lens' : List Nat),
      plaintext.length < 2 ^ 38 → lens.sum = plaintext.length → lens'.sum = plaintext.length →
      RoundTrip key nonce counter plaintext lens lens' := by
  intro hclaim
  have htrip := hclaim (Vector.replicate 32 0) (Vector.replicate 12 0) 0 [0, 0] [1, 1] [2]
    (by decide) rfl rfl
  have hstreams := (roundTrip_iff rfl rfl).mp htrip
  rw [show Keystream.positions 64 0 [1, 1] = [(0, 0), (1, 0)] by decide,
    show Keystream.positions 64 0 [2] = [(0, 0), (0, 1)] by decide] at hstreams
  have hsecond : (zeroCtx 0).keyByte (1, 0) = (zeroCtx 0).keyByte (0, 1) :=
    (List.cons.inj (List.cons.inj hstreams).2).1
  exact zeroCtx_fork 1 (by decide) hsecond.symm

namespace Rfc8439

/-- Rotation to the left. -/
def rotl (n : Nat) (x : UInt32) : UInt32 := ⟨x.toBitVec.rotateLeft n⟩

/-- The quarter round on four words. -/
def quarterRound (v : Vector UInt32 4) : Vector UInt32 4 :=
  let a := v[0] + v[1]
  let d := rotl 16 (v[3] ^^^ a)
  let c := v[2] + d
  let b := rotl 12 (v[1] ^^^ c)
  let a := a + b
  let d := rotl 8 (d ^^^ a)
  let c := c + d
  let b := rotl 7 (b ^^^ c)
  #v[a, b, c, d]

/-- The word in row `r` of column `j` of the 4 × 4 matrix. -/
def column (j r : Fin 4) : Fin 16 := ⟨4 * r + j, by omega⟩

/-- The word in row `r` of diagonal `j`. -/
def diagonal (j r : Fin 4) : Fin 16 := ⟨4 * r + (j + r) % 4, by omega⟩

/-- Four words of the matrix. -/
def readLine (x : Vector UInt32 16) (line : Fin 4 → Fin 16) : Vector UInt32 4 :=
  #v[x[line 0], x[line 1], x[line 2], x[line 3]]

/-- The quarter round of all four columns at once. -/
def columnRound (x : Vector UInt32 16) : Vector UInt32 16 :=
  Vector.ofFn fun i => (quarterRound (readLine x (column ⟨i % 4, by omega⟩)))[i.val / 4]

/-- The quarter round of all four diagonals at once. -/
def diagonalRound (x : Vector UInt32 16) : Vector UInt32 16 :=
  Vector.ofFn fun i =>
    (quarterRound (readLine x (diagonal ⟨(i % 4 + 4 - i / 4) % 4, by omega⟩)))[i.val / 4]

/-- Two of the twenty rounds. -/
def innerBlock (x : Vector UInt32 16) : Vector UInt32 16 := diagonalRound (columnRound x)

/-- The block function: ten double rounds, the input added, the words serialised. -/
def block (x : Vector UInt32 16) : List UInt8 :=
  (Vector.zipWith (· + ·) (innerBlock^[10] x) x).toList.flatMap le32

/-- The state with its block counter advanced. -/
def advance (x : Vector UInt32 16) (n : Nat) : Vector UInt32 16 :=
  x.set 12 (x[12] + UInt32.ofNat n)

end Rfc8439

open Rfc8439

section Line

variable {x₀ x : Vector UInt32 16} {line : Fin 4 → Fin 16} {v : Vector UInt32 4}

/-- `x` has the words `v` on a line, and those of `x₀` elsewhere. -/
structure OnLine (x₀ : Vector UInt32 16) (line : Fin 4 → Fin 16) (v : Vector UInt32 4)
    (x : Vector UInt32 16) : Prop where
  on : ∀ k, x[line k] = v[k]
  off : ∀ i, (∀ k, line k ≠ i) → x[i] = x₀[i]

theorem OnLine.start (x : Vector UInt32 16) (line : Fin 4 → Fin 16) :
    OnLine x line (readLine x line) x where
  on
    | 0 | 1 | 2 | 3 => rfl
  off _ _ := rfl

end Line

section Rounds

variable {lines : Fin 4 → Fin 4 → Fin 16}

end Rounds

section Loops

variable {keystream : List UInt8} {input out length n : Nat} {m : ByteMemory}

end Loops

end ZeroEmbedded.ChaCha20
