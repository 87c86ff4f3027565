import Mathlib

/-!
# Checksums that detect short bursts

A checksum is a fold over the data. When a step loses nothing of the state, and
`n` steps in a row lose nothing of their symbols, any change within `n`
neighbouring symbols changes the checksum. A step that shifts does lose: what a
change of one word leaves in the sum depends on the number of words behind it.
-/

namespace ZeroEmbedded.Foundation.Checksum

variable {S B : Type*} {step : S → B → S}

/-- Equal data keep different states apart. -/
theorem foldl_injective (hstate : ∀ b, Function.Injective fun s => step s b) (v : List B) :
    Function.Injective fun s => v.foldl step s := by
  induction v with
  | nil => exact Function.injective_id
  | cons b v ih =>
      intro s s' h
      exact hstate b (ih h)

/-- A change within `n` neighbouring symbols is detected. -/
theorem foldl_ne_of_window {n : Nat} (hstate : ∀ b, Function.Injective fun s => step s b)
    (hwindow : ∀ s (x y : List B), x.length = y.length → x.length ≤ n →
      x.foldl step s = y.foldl step s → x = y)
    {v v' : List B} {i : Nat} (hlen : v.length = v'.length)
    (hchange : ∀ j, v[j]? ≠ v'[j]? → i ≤ j ∧ j < i + n) (hne : v ≠ v') (s : S) :
    v.foldl step s ≠ v'.foldl step s := by
  have hbefore : v.take i = v'.take i := by
    refine List.ext_getElem? fun j => ?_
    by_contra hj
    rcases Nat.lt_or_ge j i with hlt | hge
    · rw [List.getElem?_take_of_lt hlt, List.getElem?_take_of_lt hlt] at hj
      have hin := hchange j hj
      omega
    · rw [List.getElem?_take_eq_none hge, List.getElem?_take_eq_none hge] at hj
      exact hj rfl
  have hafter : (v.drop i).drop n = (v'.drop i).drop n := by
    refine List.ext_getElem? fun j => ?_
    by_contra hj
    rw [List.drop_drop, List.drop_drop, List.getElem?_drop, List.getElem?_drop] at hj
    have hin := hchange (i + n + j) hj
    omega
  have hsplit : ∀ u : List B, u = u.take i ++ ((u.drop i).take n ++ (u.drop i).drop n) :=
    fun u => by rw [List.take_append_drop, List.take_append_drop]
  intro heq
  apply hne
  rw [hsplit v, hsplit v', hbefore, hafter] at heq ⊢
  simp only [List.foldl_append] at heq
  have hmid : ((v.drop i).take n).length = ((v'.drop i).take n).length := by
    simp only [List.length_take, List.length_drop, hlen]
  rw [hwindow _ _ _ hmid (List.length_take_le _ _) (foldl_injective hstate _ heq)]

section ShiftXor

variable {w : Nat}

/-- A step that shifts the sum by one bit and adds a word. -/
def shiftXor (sum word : BitVec w) : BitVec w := sum <<< 1 ^^^ word

/-- A difference of the sums is shifted once for every word that follows. -/
theorem foldl_shiftXor_xor (words : List (BitVec w)) (sum d : BitVec w) :
    words.foldl shiftXor (sum ^^^ d) = words.foldl shiftXor sum ^^^ d <<< words.length := by
  induction words generalizing sum d with
  | nil => rw [List.foldl_nil, List.foldl_nil, List.length_nil, BitVec.shiftLeft_zero]
  | cons word words ih =>
      have hstep : shiftXor (sum ^^^ d) word = shiftXor sum word ^^^ d <<< 1 := by
        rw [shiftXor, BitVec.shiftLeft_xor_distrib, BitVec.xor_assoc, BitVec.xor_comm (d <<< 1),
          ← BitVec.xor_assoc]
        rfl
      rw [List.foldl_cons, List.foldl_cons, hstep, ih, ← BitVec.shiftLeft_add, List.length_cons,
        Nat.add_comm]

/-- A change of one word is shifted once for every word behind it. -/
theorem foldl_shiftXor_set (words : List (BitVec w)) (sum d : BitVec w) {i : Nat}
    (hi : i < words.length) :
    (words.set i (words[i] ^^^ d)).foldl shiftXor sum =
      words.foldl shiftXor sum ^^^ d <<< (words.length - 1 - i) := by
  induction words generalizing sum i with
  | nil => exact absurd hi (Nat.not_lt_zero i)
  | cons word words ih =>
      cases i with
      | zero =>
          have hstep : shiftXor sum (word ^^^ d) = shiftXor sum word ^^^ d :=
            (BitVec.xor_assoc _ _ _).symm
          rw [List.set_cons_zero, List.getElem_cons_zero, List.foldl_cons, hstep,
            foldl_shiftXor_xor]
          rfl
      | succ i =>
          have hrest := ih (shiftXor sum word) (Nat.lt_of_succ_lt_succ hi)
          rw [List.set_cons_succ, List.getElem_cons_succ, List.foldl_cons, List.foldl_cons, hrest,
            List.length_cons, Nat.add_sub_cancel, Nat.sub_sub, Nat.add_comm 1 i]

/-- A single bit is lost exactly when it is shifted out. -/
theorem one_shiftLeft_eq_zero_iff {bit n : Nat} :
    (1#w <<< bit) <<< n = 0#w ↔ w ≤ bit + n := by
  rw [← BitVec.shiftLeft_add]
  constructor
  · intro hzero
    by_contra hlt
    have hbit := congrArg (BitVec.getLsbD · (bit + n)) hzero
    have hw : bit + n < w := Nat.lt_of_not_le hlt
    simp [hw] at hbit
  · exact BitVec.shiftLeft_eq_zero

end ShiftXor

end ZeroEmbedded.Foundation.Checksum
