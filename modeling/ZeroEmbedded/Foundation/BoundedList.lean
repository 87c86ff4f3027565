import Mathlib

/-!
# Lists of bounded length

A list that never gets longer than its capacity. An operation that would exceed
the capacity has no result.
-/

namespace ZeroEmbedded.Foundation

/-- A list of at most `capacity` items. -/
structure BoundedList (α : Type*) (capacity : Nat) where
  items : List α
  fits : items.length ≤ capacity

namespace BoundedList

variable {α : Type*} {capacity : Nat}

/-- The empty list. -/
def empty : BoundedList α capacity := ⟨[], Nat.zero_le _⟩

/-- The number of items that can be appended. -/
def remaining (l : BoundedList α capacity) : Nat := capacity - l.items.length

/-- All items appended, or none. -/
def append (l : BoundedList α capacity) (xs : List α) : Option (BoundedList α capacity) :=
  if h : (l.items ++ xs).length ≤ capacity then some ⟨l.items ++ xs, h⟩ else none

/-- The last item removed. -/
def dropLast (l : BoundedList α capacity) : BoundedList α capacity :=
  ⟨l.items.dropLast, by
    have hfits := l.fits
    rw [List.length_dropLast]
    omega⟩

/-- Other items over the first ones. -/
def overwrite (l : BoundedList α capacity) (xs : List α) : BoundedList α capacity :=
  ⟨xs.take l.items.length ++ l.items.drop xs.length, by
    have hfits := l.fits
    rw [List.length_append, List.length_take, List.length_drop]
    omega⟩

theorem ext {l l' : BoundedList α capacity} (h : l.items = l'.items) : l = l' := by
  cases l
  cases l'
  cases h
  rfl

theorem append_eq_some {l l' : BoundedList α capacity} {xs : List α}
    (h : l.items ++ xs = l'.items) : l.append xs = some l' := by
  have hfits := l'.fits
  rw [append, dif_pos (by rwa [h])]
  exact congrArg some (ext h)

theorem append_eq_none {l : BoundedList α capacity} {xs : List α}
    (h : l.remaining < xs.length) : l.append xs = none := by
  rw [remaining] at h
  rw [append, dif_neg]
  rw [List.length_append]
  omega

end BoundedList

end ZeroEmbedded.Foundation
