import Mathlib

/-!
# Byte memory, words and bitmaps

Numbers are stored in little-endian order. A store changes the bytes it covers
and no others, and a load depends on the bytes it covers and on no others. A
load followed by a store copies bytes. A bitmap is an array of 32-bit words.
-/

namespace ZeroEmbedded.Foundation

/-- The bytes of a memory by their addresses. -/
abbrev ByteMemory := Nat → UInt8

namespace ByteMemory

/-- The number in `n` bytes. -/
def load (m : ByteMemory) (a : Nat) : Nat → Nat
  | 0 => 0
  | n + 1 => (m a).toNat + 256 * load m (a + 1) n

/-- Write a number into `n` bytes. -/
def store (m : ByteMemory) (a : Nat) : Nat → Nat → ByteMemory
  | 0, _ => m
  | n + 1, v => store (Function.update m a (UInt8.ofNat v)) (a + 1) n (v / 256)

/-- Set `n` bytes. -/
def fill (m : ByteMemory) (a n : Nat) (byte : UInt8) : ByteMemory :=
  fun x => if a ≤ x ∧ x < a + n then byte else m x

/-- The memories agree on the addresses from `a` to `b`. -/
def AgreeOn (m m' : ByteMemory) (a b : Nat) : Prop := ∀ x, a ≤ x → x < b → m x = m' x

variable {m m' : ByteMemory} {a b k n v : Nat}

theorem AgreeOn.mono {a' b' : Nat} (h : AgreeOn m m' a b) (ha : a ≤ a') (hb : b' ≤ b) :
    AgreeOn m m' a' b' :=
  fun x hx hx' => h x (Nat.le_trans ha hx) (Nat.lt_of_lt_of_le hx' hb)

theorem AgreeOn.symm (h : AgreeOn m m' a b) : AgreeOn m' m a b :=
  fun x hx hx' => (h x hx hx').symm

theorem AgreeOn.load_eq (h : AgreeOn m m' a (a + n)) : load m a n = load m' a n := by
  induction n generalizing a with
  | zero => rfl
  | succ n ih =>
      rw [load, load, h a (Nat.le_refl a) (by omega), ih (h.mono (by omega) (by omega))]

theorem store_outside {x : Nat} (h : x < a ∨ a + n ≤ x) : store m a n v x = m x := by
  induction n generalizing m a v with
  | zero => rfl
  | succ n ih =>
      rw [store, ih (by omega), Function.update_of_ne (by omega)]

theorem store_agreeOn {c d : Nat} (h : d ≤ a ∨ a + n ≤ c) : AgreeOn (store m a n v) m c d :=
  fun _ _ _ => store_outside (by omega)

theorem fill_outside {x : Nat} {byte : UInt8} (h : x < a ∨ a + n ≤ x) :
    fill m a n byte x = m x := if_neg (by omega)

/-- A load of what was stored. -/
theorem load_store (hv : v < 256 ^ n) : load (store m a n v) a n = v := by
  induction n generalizing m a v with
  | zero =>
      rw [Nat.pow_zero, Nat.lt_one_iff] at hv
      rw [load, hv]
  | succ n ih =>
      have hfirst : store m a (n + 1) v a = UInt8.ofNat v := by
        rw [store, store_outside (Or.inl (Nat.lt_succ_self a)), Function.update_self]
      have hrest : load (store m a (n + 1) v) (a + 1) n = v / 256 := by
        rw [store]
        apply ih
        rw [Nat.pow_succ] at hv
        omega
      rw [load, hfirst, hrest, UInt8.toNat_ofNat']
      omega

section Copy

/-- Copy `n` bytes. -/
def copy (m : ByteMemory) (dst src n : Nat) : ByteMemory :=
  fun x => if dst ≤ x ∧ x < dst + n then m (src + (x - dst)) else m x

variable {dst src x : Nat}

theorem copy_outside (h : x < dst ∨ dst + n ≤ x) : copy m dst src n x = m x := if_neg (by omega)

theorem copy_inside (h : x < n) : copy m dst src n (dst + x) = m (src + x) := by
  rw [copy, if_pos (by omega), Nat.add_sub_cancel_left]

/-- Two copies of neighbouring parts, when the second one does not read what the first one
writes. -/
theorem copy_append (h : src + n + k ≤ dst ∨ dst + n ≤ src + n) :
    copy (copy m dst src n) (dst + n) (src + n) k = copy m dst src (n + k) := by
  funext x
  by_cases hfirst : x < dst + n
  · rw [copy_outside (Or.inl hfirst)]
    by_cases hbefore : x < dst
    · rw [copy_outside (Or.inl hbefore), copy_outside (Or.inl hbefore)]
    · obtain ⟨y, rfl⟩ := Nat.exists_eq_add_of_le (Nat.not_lt.mp hbefore)
      rw [copy_inside (by omega), copy_inside (by omega)]
  · obtain ⟨y, rfl⟩ := Nat.exists_eq_add_of_le (Nat.not_lt.mp hfirst)
    by_cases hsecond : y < k
    · rw [copy_inside hsecond, copy_outside (by omega), Nat.add_assoc dst, copy_inside (by omega),
        Nat.add_assoc src]
    · rw [copy_outside (Or.inr (by omega)), copy_outside (Or.inr (by omega)),
        copy_outside (Or.inr (by omega))]

theorem load_lt (m : ByteMemory) (a n : Nat) : load m a n < 256 ^ n := by
  induction n generalizing a with
  | zero => exact Nat.zero_lt_one
  | succ n ih =>
      have hfirst := (m a).toNat_lt
      have hrest := ih (a + 1)
      rw [load, Nat.pow_succ]
      omega

/-- A number that is loaded from one place and stored in another is a copy of its bytes. -/
theorem store_load (m m' : ByteMemory) (a b n x : Nat) :
    store m a n (load m' b n) x = if a ≤ x ∧ x < a + n then m' (b + (x - a)) else m x := by
  induction n generalizing m a b with
  | zero => rw [store, if_neg (by omega)]
  | succ n ih =>
      have hfirst := (m' b).toNat_lt
      have hlow : UInt8.ofNat ((m' b).toNat + 256 * load m' (b + 1) n) = m' b := by
        apply UInt8.toNat_inj.mp
        rw [UInt8.toNat_ofNat']
        omega
      have hhigh : ((m' b).toNat + 256 * load m' (b + 1) n) / 256 = load m' (b + 1) n := by omega
      rw [load, store, hlow, hhigh, ih]
      by_cases hrest : a + 1 ≤ x ∧ x < a + 1 + n
      · rw [if_pos hrest, if_pos (by omega)]
        congr 1
        omega
      · rw [if_neg hrest]
        by_cases heq : x = a
        · subst heq
          rw [Function.update_self, if_pos (by omega), Nat.sub_self, Nat.add_zero]
        · rw [Function.update_of_ne heq, if_neg (by omega)]

end Copy

section Bitmap

/-- The word at an address. -/
def loadWord (m : ByteMemory) (a : Nat) : BitVec 32 := BitVec.ofNat 32 (load m a 4)

/-- Write a word. -/
def storeWord (m : ByteMemory) (a : Nat) (w : BitVec 32) : ByteMemory := store m a 4 w.toNat

/-- The address of the word with bit `i` of a bitmap. -/
def wordOf (bitmap i : Nat) : Nat := bitmap + 4 * (i >>> 5)

/-- Bit `i` of a bitmap. -/
def bitAt (m : ByteMemory) (bitmap i : Nat) : Bool :=
  (loadWord m (wordOf bitmap i)).getLsbD (i &&& 31)

/-- Set bit `i` of a bitmap. -/
def setBit (m : ByteMemory) (bitmap i : Nat) : ByteMemory :=
  storeWord m (wordOf bitmap i) (loadWord m (wordOf bitmap i) ||| 1#32 <<< (i &&& 31))

/-- Clear bit `i` of a bitmap. -/
def clearBit (m : ByteMemory) (bitmap i : Nat) : ByteMemory :=
  storeWord m (wordOf bitmap i) (loadWord m (wordOf bitmap i) &&& ~~~(1#32 <<< (i &&& 31)))

variable {bitmap i j : Nat} {w : BitVec 32}

theorem AgreeOn.loadWord_eq (h : AgreeOn m m' a (a + 4)) : loadWord m a = loadWord m' a := by
  rw [loadWord, loadWord, h.load_eq]

theorem loadWord_storeWord : loadWord (storeWord m a w) a = w := by
  rw [loadWord, storeWord, load_store w.isLt, BitVec.ofNat_toNat, BitVec.setWidth_eq]

/-- A word that is loaded and stored is a copy of its four bytes. -/
theorem storeWord_loadWord (m : ByteMemory) (a b : Nat) :
    storeWord m a (loadWord m b) = copy m a b 4 := by
  have hlt : load m b 4 < 2 ^ 32 := load_lt m b 4
  funext x
  rw [storeWord, loadWord, BitVec.toNat_ofNat, Nat.mod_eq_of_lt hlt, store_load]
  rfl

theorem and_31 (i : Nat) : i &&& 31 = i % 32 := Nat.and_two_pow_sub_one_eq_mod i 5

theorem shift_5 (i : Nat) : i >>> 5 = i / 32 := Nat.shiftRight_eq_div_pow i 5

/-- Two bits lie in different words or at different positions. -/
theorem bit_eq_iff : i = j ↔ i >>> 5 = j >>> 5 ∧ i &&& 31 = j &&& 31 := by
  rw [and_31, and_31, shift_5, shift_5]
  constructor
  · rintro rfl
    exact ⟨rfl, rfl⟩
  · rintro ⟨hword, hpos⟩
    rw [← Nat.div_add_mod i 32, hword, hpos, Nat.div_add_mod]

/-- Replacing the word of bit `i` changes no bit of another word. -/
theorem bitAt_storeWord (m : ByteMemory) (bitmap i j : Nat) (w : BitVec 32) :
    bitAt (storeWord m (wordOf bitmap i) w) bitmap j =
      if i >>> 5 = j >>> 5 then w.getLsbD (j &&& 31) else bitAt m bitmap j := by
  split
  · next hword =>
      have hsame : wordOf bitmap j = wordOf bitmap i := by rw [wordOf, wordOf, hword]
      rw [bitAt, hsame, loadWord_storeWord]
  · next hword =>
      rw [bitAt, bitAt]
      congr 1
      apply AgreeOn.loadWord_eq
      apply store_agreeOn
      rw [wordOf, wordOf]
      omega

theorem getLsbD_one_shiftLeft (h : j < 32) : (1#32 <<< i).getLsbD j = decide (i = j) := by
  rw [BitVec.getLsbD_shiftLeft, BitVec.getLsbD_one]
  by_cases heq : i = j
  · subst heq
    simp [h]
  · simp only [heq, decide_false, h, decide_true, Bool.true_and]
    by_cases hlt : j < i
    · simp [hlt]
    · simp [show j - i ≠ 0 by omega]

/-- Setting a bit changes only its word. -/
theorem setBit_agreeOn {c d : Nat} (h : d ≤ wordOf bitmap i ∨ wordOf bitmap i + 4 ≤ c) :
    AgreeOn (setBit m bitmap i) m c d := store_agreeOn h

/-- Clearing a bit changes only its word. -/
theorem clearBit_agreeOn {c d : Nat} (h : d ≤ wordOf bitmap i ∨ wordOf bitmap i + 4 ≤ c) :
    AgreeOn (clearBit m bitmap i) m c d := store_agreeOn h

theorem bitAt_setBit (m : ByteMemory) (bitmap i j : Nat) :
    bitAt (setBit m bitmap i) bitmap j = (decide (i = j) || bitAt m bitmap j) := by
  rw [setBit, bitAt_storeWord]
  have hpos : j &&& 31 < 32 := by
    rw [and_31]
    exact Nat.mod_lt j (by decide)
  split
  · next hword =>
      rw [BitVec.getLsbD_or, getLsbD_one_shiftLeft hpos, wordOf, hword, ← wordOf, ← bitAt,
        Bool.or_comm]
      simp [bit_eq_iff (i := i), hword]
  · next hword => simp [bit_eq_iff (i := i), hword]

theorem bitAt_clearBit (m : ByteMemory) (bitmap i j : Nat) :
    bitAt (clearBit m bitmap i) bitmap j = (!decide (i = j) && bitAt m bitmap j) := by
  rw [clearBit, bitAt_storeWord]
  have hpos : j &&& 31 < 32 := by
    rw [and_31]
    exact Nat.mod_lt j (by decide)
  split
  · next hword =>
      rw [BitVec.getLsbD_and, BitVec.getLsbD_not, getLsbD_one_shiftLeft hpos, wordOf, hword,
        ← wordOf, ← bitAt, Bool.and_comm]
      simp [bit_eq_iff (i := i), hword, hpos]
  · next hword => simp [bit_eq_iff (i := i), hword]

end Bitmap

end ByteMemory

end ZeroEmbedded.Foundation
