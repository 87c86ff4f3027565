import Mathlib

/-!
# Structures with natural alignment

The members of a structure are placed in their order. Each member starts at the
next multiple of the width of its elements.
-/

namespace ZeroEmbedded.Foundation.StructLayout

/-- The width of an element and the number of elements; a scalar has one. -/
structure Member where
  width : Nat
  count : Nat

namespace Member

/-- The offset of the member behind `off` bytes. -/
def start (m : Member) (off : Nat) : Nat := (off + (m.width - 1)) / m.width * m.width

/-- The offset behind the member. -/
def finish (m : Member) (off : Nat) : Nat := m.start off + m.width * m.count

variable {m : Member} {off : Nat}

theorem start_of_dvd (hpos : 0 < m.width) (hdvd : m.width ∣ off) : m.start off = off := by
  obtain ⟨k, rfl⟩ := hdvd
  rw [start, Nat.mul_add_div hpos, Nat.div_eq_of_lt (by omega), Nat.add_zero, Nat.mul_comm]

theorem le_start (hpos : 0 < m.width) : off ≤ m.start off := by
  have hdiv := Nat.div_add_mod (off + (m.width - 1)) m.width
  have hmod := Nat.mod_lt (off + (m.width - 1)) hpos
  rw [Nat.mul_comm] at hdiv
  rw [start]
  omega

/-- A member that is not aligned is moved. -/
theorem lt_start (hpos : 0 < m.width) (hdvd : ¬ m.width ∣ off) : off < m.start off := by
  refine Nat.lt_of_le_of_ne (le_start hpos) fun heq => hdvd ?_
  rw [heq]
  exact Nat.dvd_mul_left _ _

end Member

variable {α : Type} (member : α → Member)

/-- The fields with their offsets, where the first one follows `off` bytes. -/
def place (off : Nat) : List α → List (α × Nat)
  | [] => []
  | x :: xs => (x, (member x).start off) :: place ((member x).finish off) xs

@[simp] theorem place_nil (off : Nat) : place member off [] = [] := rfl

@[simp] theorem place_cons (off : Nat) (x : α) (xs : List α) :
    place member off (x :: xs) =
      (x, (member x).start off) :: place member ((member x).finish off) xs := rfl

end ZeroEmbedded.Foundation.StructLayout
