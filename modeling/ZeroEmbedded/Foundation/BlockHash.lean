import Mathlib

/-!
# Data that is consumed in blocks

A sequence is cut into blocks of one size. What does not fill a block is the
rest, which waits for more data.
-/

namespace ZeroEmbedded.Foundation.BlockHash

variable {α : Type*} (size : Nat)

/-- The blocks that the data fill. -/
def blocks (data : List α) : List (List α) :=
  (List.range (data.length / size)).map fun i => (data.drop (size * i)).take size

/-- The data behind the blocks. -/
def rest (data : List α) : List α := data.drop (size * (data.length / size))

variable {size} {data more : List α}

@[simp] theorem length_rest : (rest size data).length = data.length % size := by
  rw [rest, List.length_drop]
  have hdiv := Nat.div_add_mod data.length size
  omega

@[simp] theorem blocks_nil : blocks size ([] : List α) = [] := by
  rw [blocks, List.length_nil, Nat.zero_div]
  rfl

/-- The blocks of the data are also blocks of longer data. -/
theorem blocks_prefix (more : List α) :
    ((List.range (data.length / size)).map fun i => ((data ++ more).drop (size * i)).take size) =
      blocks size data := by
  rw [blocks]
  apply List.map_congr_left
  intro i hi
  have hlt := List.mem_range.mp hi
  have hle : size * (i + 1) ≤ data.length :=
    Nat.le_trans (Nat.mul_le_mul_left size hlt) (Nat.mul_div_le _ _)
  rw [Nat.mul_succ] at hle
  rw [List.drop_append_of_le_length (by omega), List.take_append_of_le_length]
  rw [List.length_drop]
  omega

/-- Data that do not complete the next block only extend the rest. -/
theorem append_short (hlt : data.length % size + more.length < size) :
    blocks size (data ++ more) = blocks size data ∧
      rest size (data ++ more) = rest size data ++ more := by
  have hdiv := Nat.div_add_mod data.length size
  have hquot : (data ++ more).length / size = data.length / size := by
    rw [List.length_append]
    apply Nat.div_eq_of_lt_le
    · rw [Nat.mul_comm]
      omega
    · rw [Nat.mul_comm, Nat.mul_succ]
      omega
  constructor
  · rw [blocks, hquot]
    exact blocks_prefix more
  · rw [rest, rest, hquot, List.drop_append_of_le_length (Nat.mul_div_le _ _)]

/-- Data that complete the next block. -/
theorem append_full (hsize : 0 < size) (heq : data.length % size + more.length = size) :
    blocks size (data ++ more) = blocks size data ++ [rest size data ++ more] ∧
      rest size (data ++ more) = [] := by
  have hdiv := Nat.div_add_mod data.length size
  have hlen : (data ++ more).length = size * (data.length / size + 1) := by
    rw [List.length_append, Nat.mul_succ]
    omega
  have hquot : (data ++ more).length / size = data.length / size + 1 := by
    rw [hlen, Nat.mul_div_cancel_left _ hsize]
  constructor
  · rw [blocks, hquot, List.range_succ, List.map_append, blocks_prefix, List.map_singleton, rest,
      List.drop_append_of_le_length (Nat.mul_div_le _ _), List.take_of_length_le]
    rw [List.length_append, ← rest, length_rest]
    omega
  · rw [rest, hquot, ← hlen, List.drop_length]

end ZeroEmbedded.Foundation.BlockHash
