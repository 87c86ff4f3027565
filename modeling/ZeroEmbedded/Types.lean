import ZeroEmbedded.Foundation.PowerOfTwo

/-!
# Status codes, integer widths and little-endian words

`FwStatus` is `fw_status_t`. Counters and addresses are natural numbers whose
wrap-around is written out. `Target` fixes the width of `fw_size_t` and of
pointers. Structures are stored in memory with their words in little-endian
order.
-/

namespace ZeroEmbedded

/-- `fw_status_t`. -/
inductive FwStatus
  | ok
  | errGeneric
  | errInvalidArg
  | errOutOfMemory
  | errBufferOverflow
  | errTimeout
  | errBusy
  | errNotFound
  | errNotSupported
  | errIo
  | errCorrupted
  | errIsrViolation
  | errDmaUnaligned
  deriving DecidableEq, Repr

/-- The two pointer sizes of `ZERO_PTR_SIZE`. -/
structure Target where
  ptrSize : Nat
  ptrSize_eq : ptrSize = 4 ∨ ptrSize = 8

/-- A 32-bit target. -/
def target32 : Target := ⟨4, Or.inl rfl⟩

namespace Target

/-- Number of `fw_size_t` values. -/
def sizeMod (T : Target) : Nat := 2 ^ (8 * T.ptrSize)

/-- Reduction of a result to `fw_size_t` or `uintptr_t`. -/
def size (T : Target) (n : Nat) : Nat := n % T.sizeMod

/-- Subtraction of two `fw_size_t` values. -/
def sizeSub (T : Target) (a b : Nat) : Nat := T.size (a + T.sizeMod - b)

theorem sizeSub_of_le (T : Target) {a b : Nat} (hle : b ≤ a) (ha : a < T.sizeMod) :
    T.sizeSub a b = a - b := by
  rw [sizeSub, size, show a + T.sizeMod - b = a - b + T.sizeMod by omega, Nat.add_mod_right,
    Nat.mod_eq_of_lt (by omega)]

theorem sizeMod_ge (T : Target) : 2 ^ 32 ≤ T.sizeMod := by
  rcases T.ptrSize_eq with h | h <;> simp [sizeMod, h]

theorem ptrSize_pow (T : Target) : ∃ k, T.ptrSize = 2 ^ k := by
  rcases T.ptrSize_eq with h | h
  · exact ⟨2, h⟩
  · exact ⟨3, h⟩

theorem ptrSize_lt (T : Target) : T.ptrSize < T.sizeMod := by
  have hmod := T.sizeMod_ge
  rcases T.ptrSize_eq with h | h <;> omega

theorem sizeMod_pow (T : Target) : ∃ w, T.sizeMod = 2 ^ w := ⟨8 * T.ptrSize, rfl⟩

theorem pow_ptrSize (T : Target) : 256 ^ T.ptrSize = T.sizeMod := (Nat.pow_mul 2 8 _).symm

theorem size_of_lt (T : Target) {n : Nat} (h : n < 2 ^ 32) : T.size n = n :=
  Nat.mod_eq_of_lt (Nat.lt_of_lt_of_le h T.sizeMod_ge)

theorem size_le (T : Target) (n : Nat) : T.size n ≤ n := Nat.mod_le _ _

/-- `align_up` to a power of two. -/
def alignUp (T : Target) (ptr align : Nat) : Nat :=
  T.size (ptr + (align - 1)) &&& (T.sizeMod - 1 - (align - 1))

variable {T : Target} {ptr align : Nat}

theorem alignUp_eq (hpow : ∃ k, align = 2 ^ k) (halign : align < T.sizeMod) :
    T.alignUp ptr align = T.size (ptr + (align - 1)) / align * align := by
  obtain ⟨k, rfl⟩ := hpow
  have hk : k < 8 * T.ptrSize := (Nat.pow_lt_pow_iff_right (by decide)).mp halign
  exact Foundation.PowerOfTwo.and_high (Nat.le_of_lt hk) (Nat.mod_lt _ (Nat.two_pow_pos _))

/-- An alignment that does not overflow. -/
theorem alignUp_bounds (hpow : ∃ k, align = 2 ^ k) (halign : align < T.sizeMod)
    (hfits : ptr + (align - 1) < T.sizeMod) :
    ptr ≤ T.alignUp ptr align ∧ T.alignUp ptr align ≤ ptr + (align - 1) ∧
      align ∣ T.alignUp ptr align := by
  have hpos : 0 < align := by
    obtain ⟨k, rfl⟩ := hpow
    exact Nat.two_pow_pos k
  rw [alignUp_eq hpow halign, size, Nat.mod_eq_of_lt hfits]
  have hdiv := Nat.div_add_mod (ptr + (align - 1)) align
  have hmod := Nat.mod_lt (ptr + (align - 1)) hpos
  rw [Nat.mul_comm] at hdiv
  exact ⟨by omega, by omega, Nat.dvd_mul_left align _⟩

/-- An alignment that overflows gives zero. -/
theorem alignUp_overflow (hpow : ∃ k, align = 2 ^ k) (halign : align < T.sizeMod)
    (hptr : ptr < T.sizeMod) (hover : T.sizeMod ≤ ptr + (align - 1)) : T.alignUp ptr align = 0 := by
  rw [alignUp_eq hpow halign, size, Nat.mod_eq_sub_mod hover, Nat.mod_eq_of_lt (by omega),
    Nat.div_eq_of_lt (by omega), Nat.zero_mul]

theorem alignUp_lt (hpow : ∃ k, align = 2 ^ k) (halign : align < T.sizeMod) :
    T.alignUp ptr align < T.sizeMod := by
  rw [alignUp_eq hpow halign]
  exact Nat.lt_of_le_of_lt (Nat.div_mul_le_self _ _) (Nat.mod_lt _ (Nat.two_pow_pos _))

/-- Alignment leaves aligned values alone. -/
theorem alignUp_of_dvd (hpow : ∃ k, align = 2 ^ k) (halign : align < T.sizeMod)
    (hptr : ptr < T.sizeMod) (hdvd : align ∣ ptr) : T.alignUp ptr align = ptr := by
  have hpos : 0 < align := by
    obtain ⟨k, rfl⟩ := hpow
    exact Nat.two_pow_pos k
  have hfits : align ≤ T.sizeMod - ptr :=
    Nat.le_of_dvd (by omega)
      (Nat.dvd_sub (Foundation.PowerOfTwo.dvd_of_lt hpow ⟨_, rfl⟩ halign) hdvd)
  obtain ⟨n, rfl⟩ := hdvd
  rw [alignUp_eq hpow halign, size, Nat.mod_eq_of_lt (by omega), Nat.add_comm,
    Nat.add_mul_div_left _ _ hpos, Nat.div_eq_of_lt (by omega), Nat.zero_add, Nat.mul_comm]

end Target

/-- Reduction of a result to `uint32_t`. -/
def u32 (n : Nat) : Nat := n % 2 ^ 32

theorem u32_of_lt {n : Nat} (h : n < 2 ^ 32) : u32 n = n := Nat.mod_eq_of_lt h

/-- The bytes of a `uint16_t` in memory. -/
def le16 (x : UInt16) : List UInt8 := [x.toUInt8, (x >>> 8).toUInt8]

/-- The `uint16_t` stored in two bytes. -/
def ofLe16 (a b : UInt8) : UInt16 := UInt16.ofNat (a.toNat + 256 * b.toNat)

/-- The bytes of a `uint32_t` in memory. -/
def le32 (x : UInt32) : List UInt8 :=
  [x.toUInt8, (x >>> 8).toUInt8, (x >>> 16).toUInt8, (x >>> 24).toUInt8]

/-- The `uint32_t` stored in four bytes. -/
def ofLe32 (a b c d : UInt8) : UInt32 :=
  UInt32.ofNat (a.toNat + 256 * b.toNat + 65536 * c.toNat + 16777216 * d.toNat)

@[simp] theorem le16_length (x : UInt16) : (le16 x).length = 2 := rfl

@[simp] theorem le32_length (x : UInt32) : (le32 x).length = 4 := rfl

@[simp] theorem ofLe16_bytes (x : UInt16) : ofLe16 x.toUInt8 (x >>> 8).toUInt8 = x := by
  apply UInt16.toNat_inj.mp
  have hx := x.toNat_lt
  have h8 : (x >>> 8).toNat = x.toNat / 256 := by
    simp [UInt16.toNat_shiftRight, Nat.shiftRight_eq_div_pow]
  simp only [ofLe16, UInt16.toNat_ofNat', UInt16.toNat_toUInt8, h8]
  omega

@[simp] theorem ofLe32_bytes (x : UInt32) :
    ofLe32 x.toUInt8 (x >>> 8).toUInt8 (x >>> 16).toUInt8 (x >>> 24).toUInt8 = x := by
  apply UInt32.toNat_inj.mp
  have hx := x.toNat_lt
  have h8 : (x >>> 8).toNat = x.toNat / 256 := by
    simp [UInt32.toNat_shiftRight, Nat.shiftRight_eq_div_pow]
  have h16 : (x >>> 16).toNat = x.toNat / 65536 := by
    simp [UInt32.toNat_shiftRight, Nat.shiftRight_eq_div_pow]
  have h24 : (x >>> 24).toNat = x.toNat / 16777216 := by
    simp [UInt32.toNat_shiftRight, Nat.shiftRight_eq_div_pow]
  simp only [ofLe32, UInt32.toNat_ofNat', UInt32.toNat_toUInt8, h8, h16, h24]
  omega

/-- Two bytes are the bytes of the word they store. -/
theorem le16_ofLe16 (a b : UInt8) : le16 (ofLe16 a b) = [a, b] := by
  have ha := a.toNat_lt
  have hb := b.toNat_lt
  simp only [le16, ofLe16, List.cons.injEq, and_true]
  refine ⟨UInt8.toNat_inj.mp ?_, UInt8.toNat_inj.mp ?_⟩ <;>
    simp only [UInt16.toNat_toUInt8, UInt16.toNat_shiftRight, UInt16.toNat_ofNat',
      Nat.shiftRight_eq_div_pow, UInt16.reduceToNat, Nat.reduceMod, Nat.reducePow] <;>
    omega

/-- Four bytes are the bytes of the word they store. -/
theorem le32_ofLe32 (a b c d : UInt8) : le32 (ofLe32 a b c d) = [a, b, c, d] := by
  have ha := a.toNat_lt
  have hb := b.toNat_lt
  have hc := c.toNat_lt
  have hd := d.toNat_lt
  simp only [le32, ofLe32, List.cons.injEq, and_true]
  refine ⟨UInt8.toNat_inj.mp ?_, UInt8.toNat_inj.mp ?_, UInt8.toNat_inj.mp ?_,
    UInt8.toNat_inj.mp ?_⟩ <;>
    simp only [UInt32.toNat_toUInt8, UInt32.toNat_shiftRight, UInt32.toNat_ofNat',
      Nat.shiftRight_eq_div_pow, UInt32.reduceToNat, Nat.reduceMod, Nat.reducePow] <;>
    omega

/-- The `i`-th `uint32_t` of a byte sequence. -/
def wordAt (b : List UInt8) (i : Nat) : UInt32 :=
  ofLe32 (b.getD (4 * i) 0) (b.getD (4 * i + 1) 0) (b.getD (4 * i + 2) 0) (b.getD (4 * i + 3) 0)

/-- Words that are laid out one behind the other are read back. -/
theorem wordAt_flatMap_le32 (words : List UInt32) (i : Nat) :
    wordAt (words.flatMap le32) i = words.getD i 0 := by
  induction words generalizing i with
  | nil => rfl
  | cons w words ih =>
      cases i with
      | zero => simp [wordAt, le32]
      | succ i =>
          rw [List.getD_cons_succ, ← ih]
          simp only [wordAt, List.flatMap_cons, le32, Nat.mul_succ, List.cons_append,
            List.nil_append]
          rfl

/-- A byte sequence of whole words is the layout of its words. -/
theorem flatMap_le32_wordAt {b : List UInt8} {n : Nat} (h : b.length = 4 * n) :
    ((List.range n).map (wordAt b)).flatMap le32 = b := by
  induction n generalizing b with
  | zero =>
      have hnil : b = [] := by simpa using h
      simp [hnil]
  | succ n ih =>
      match b, h with
      | w0 :: w1 :: w2 :: w3 :: rest, h =>
          have hrest : rest.length = 4 * n := by
            simp only [List.length_cons] at h
            omega
          have hshift :
              (List.range n).map (fun i => wordAt (w0 :: w1 :: w2 :: w3 :: rest) (i + 1)) =
                (List.range n).map (wordAt rest) := rfl
          rw [List.range_succ_eq_map, List.map_cons, List.map_map, List.flatMap_cons]
          change le32 (ofLe32 w0 w1 w2 w3) ++
            ((List.range n).map fun i => wordAt (w0 :: w1 :: w2 :: w3 :: rest)
              (i + 1)).flatMap le32 = _
          rw [hshift, ih hrest, le32_ofLe32]
          rfl

end ZeroEmbedded
