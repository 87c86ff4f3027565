import Mathlib

/-!
# First fit

The first element of a list that satisfies a test, together with the elements
before and behind it, so that the element can be replaced.
-/

namespace ZeroEmbedded.Foundation

variable {α : Type*} {p : α → Bool} {l before after : List α} {x : α}

/-- Split a list at its first element that satisfies `p`. -/
def firstFit (p : α → Bool) : List α → Option (List α × α × List α)
  | [] => none
  | x :: l =>
      if p x then some ([], x, l)
      else (firstFit p l).map fun r => (x :: r.1, r.2.1, r.2.2)

theorem firstFit_some (h : firstFit p l = some (before, x, after)) :
    l = before ++ x :: after ∧ p x = true ∧ ∀ y ∈ before, p y = false := by
  induction l generalizing before with
  | nil => cases h
  | cons y l ih =>
      rw [firstFit] at h
      split at h
      · next hy =>
          cases h
          exact ⟨rfl, hy, fun z hz => absurd hz List.not_mem_nil⟩
      · next hy =>
          obtain ⟨⟨before', x', after'⟩, hrest, heq⟩ := Option.map_eq_some_iff.mp h
          cases heq
          obtain ⟨rfl, hx, hbefore⟩ := ih hrest
          refine ⟨rfl, hx, ?_⟩
          intro z hz
          rcases List.mem_cons.mp hz with rfl | hz
          · exact eq_false_of_ne_true hy
          · exact hbefore z hz

theorem firstFit_eq_none : firstFit p l = none ↔ ∀ x ∈ l, p x = false := by
  induction l with
  | nil => exact iff_of_true rfl fun x hx => absurd hx List.not_mem_nil
  | cons x l ih =>
      rw [firstFit, List.forall_mem_cons]
      cases p x with
      | true => simp
      | false => simpa using ih

/-- The first fit over a list of tests: an earlier test is tried on all elements before a later
one. -/
def firstFitOf {κ : Type*} (p : κ → α → Bool) (keys : List κ) (l : List α) :
    Option (List α × α × List α) :=
  keys.findSome? fun k => firstFit (p k) l

theorem firstFitOf_some {κ : Type*} {p : κ → α → Bool} {keys : List κ}
    (h : firstFitOf p keys l = some (before, x, after)) :
    l = before ++ x :: after ∧ ∃ k ∈ keys, p k x = true := by
  obtain ⟨k, hk, hfit⟩ := List.exists_of_findSome?_eq_some h
  obtain ⟨hl, hx, -⟩ := firstFit_some hfit
  exact ⟨hl, k, hk, hx⟩

theorem firstFitOf_eq_none {κ : Type*} {p : κ → α → Bool} {keys : List κ} :
    firstFitOf p keys l = none ↔ ∀ k ∈ keys, ∀ x ∈ l, p k x = false := by
  rw [firstFitOf, List.findSome?_eq_none_iff]
  exact forall₂_congr fun _ _ => firstFit_eq_none

end ZeroEmbedded.Foundation
