import ZeroEmbedded.Foundation.ByteMemory
import ZeroEmbedded.Foundation.ErasableMemory

/-!
# Slices of lists and of byte memory

A chain of slices is one slice at the sum of the offsets. A write to some bytes
of a region replaces the slice of the region that these bytes are.
-/

namespace ZeroEmbedded.Foundation

namespace Slices

variable {α : Type*} {l l' xs : List α} {offset n : Nat} {chain : List (Nat × Nat)}

/-- The `n` items from `offset` on, of a list that has them. -/
def slice (l : List α) (offset n : Nat) : Option (List α) :=
  if offset + n ≤ l.length then some ((l.drop offset).take n) else none

/-- A slice of a slice of a slice, each given by offset and length. -/
def slices (l : List α) : List (Nat × Nat) → Option (List α)
  | [] => some l
  | (offset, n) :: rest => (slice l offset n).bind (slices · rest)

/-- The items from `offset` on replaced by others. -/
def splice (l : List α) (offset : Nat) (xs : List α) : List α :=
  l.take offset ++ (xs ++ l.drop (offset + xs.length))

/-- The sum of the offsets of a chain. -/
def shift (chain : List (Nat × Nat)) : Nat := (chain.map (·.1)).sum

theorem shift_cons (offset n : Nat) (rest : List (Nat × Nat)) :
    shift ((offset, n) :: rest) = offset + shift rest := by
  rw [shift, List.map_cons, List.sum_cons]
  rfl

theorem slice_length (h : slice l offset n = some l') : l'.length = n ∧ offset + n ≤ l.length := by
  rw [slice] at h
  split at h
  · next hfits =>
      cases h
      rw [List.length_take, List.length_drop]
      exact ⟨by omega, hfits⟩
  · cases h

/-- A chain of slices is one slice, at the sum of the offsets. -/
theorem slices_eq_slice (h : slices l chain = some l') :
    slice l (shift chain) l'.length = some l' := by
  induction chain generalizing l with
  | nil =>
      cases h
      rw [slice, shift, List.map_nil, List.sum_nil, if_pos (by omega), List.drop_zero,
        List.take_length]
  | cons link rest ih =>
      obtain ⟨offset, n⟩ := link
      rw [slices, Option.bind_eq_some_iff] at h
      obtain ⟨part, hpart, hrest⟩ := h
      have hslice := ih hrest
      obtain ⟨hlength, hfits⟩ := slice_length hpart
      obtain ⟨-, hinner⟩ := slice_length hslice
      rw [slice, if_pos hfits] at hpart
      cases hpart
      rw [slice, if_pos hinner, List.drop_take, List.take_take, List.drop_drop,
        Nat.min_eq_left (by omega)] at hslice
      rw [slice, shift_cons, if_pos (by omega)]
      exact hslice

end Slices

namespace ByteMemory

open Slices

variable {m m' : ByteMemory} {a b dst src n len offset : Nat}

/-- A part of the bytes of a region. -/
theorem bytesAt_slice (m : ByteMemory) (a : Nat) (h : offset + n ≤ len) :
    ((Memory.bytesAt m a len).drop offset).take n = Memory.bytesAt m (a + offset) n := by
  rw [Memory.bytesAt_drop, Memory.bytesAt_take, Nat.min_eq_left (by omega)]

theorem slice_bytesAt (m : ByteMemory) (a len offset n : Nat) :
    slice (Memory.bytesAt m a len) offset n =
      if offset + n ≤ len then some (Memory.bytesAt m (a + offset) n) else none := by
  rw [slice, Memory.bytesAt_length]
  split
  · next h => rw [bytesAt_slice m a h]
  · rfl

theorem bytesAt_one (m : ByteMemory) (a : Nat) : Memory.bytesAt m a 1 = [m a] := rfl

theorem bytesAt_copy (m : ByteMemory) (dst src n : Nat) :
    Memory.bytesAt (m.copy dst src n) dst n = Memory.bytesAt m src n := by
  apply List.ext_getElem
  · rw [Memory.bytesAt_length, Memory.bytesAt_length]
  · intro i hi _
    rw [Memory.bytesAt_length] at hi
    rw [Memory.getElem_bytesAt, Memory.getElem_bytesAt, copy_inside hi]

theorem bytesAt_fill (m : ByteMemory) (a n : Nat) (byte : UInt8) :
    Memory.bytesAt (m.fill a n byte) a n = List.replicate n byte := by
  apply List.ext_getElem
  · rw [Memory.bytesAt_length, List.length_replicate]
  · intro i hi _
    rw [Memory.bytesAt_length] at hi
    rw [Memory.getElem_bytesAt, List.getElem_replicate, fill, if_pos (by omega)]

/-- A change of `n` bytes of a region replaces a slice of its bytes. -/
theorem bytesAt_splice (m : ByteMemory) (offset n : Nat) (hfits : offset + n ≤ len)
    (houtside : ∀ x, x < a + offset ∨ a + offset + n ≤ x → m' x = m x) :
    Memory.bytesAt m' a len =
      splice (Memory.bytesAt m a len) offset (Memory.bytesAt m' (a + offset) n) := by
  obtain ⟨rest, rfl⟩ := Nat.exists_eq_add_of_le hfits
  have hbefore : Memory.bytesAt m' a offset = Memory.bytesAt m a offset :=
    Memory.bytesAt_congr fun x _ hx => houtside x (Or.inl hx)
  have hbehind : Memory.bytesAt m' (a + (offset + n)) rest =
      Memory.bytesAt m (a + (offset + n)) rest :=
    Memory.bytesAt_congr fun x hx _ => houtside x (Or.inr (by omega))
  rw [splice, Memory.bytesAt_length, Memory.bytesAt_take, Memory.bytesAt_drop,
    Nat.min_eq_left (by omega), Nat.add_sub_cancel_left, Memory.bytesAt_append,
    Memory.bytesAt_append, hbefore, hbehind, List.append_assoc]

end ByteMemory

end ZeroEmbedded.Foundation
