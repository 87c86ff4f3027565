import Mathlib

/-!
# Linked lists

A list of addresses linked by a function that gives the next one. The function
is read from a memory, so a list survives every change that keeps the links of
its own nodes.
-/

namespace ZeroEmbedded.Foundation

/-- Following `next` from the first address visits the list and arrives at the last. -/
inductive Linked (next : Nat → Nat) : Nat → List Nat → Nat → Prop
  | nil (a : Nat) : Linked next a [] a
  | cons {a b : Nat} {l : List Nat} (rest : Linked next (next a) l b) : Linked next a (a :: l) b

namespace Linked

variable {next next' : Nat → Nat} {a b c : Nat} {l l' : List Nat}

theorem congr (h : Linked next a l b) (hnext : ∀ x ∈ l, next x = next' x) :
    Linked next' a l b := by
  induction h with
  | nil a => exact nil a
  | cons rest ih =>
      apply cons
      rw [← hnext _ List.mem_cons_self]
      exact ih fun x hx => hnext x (List.mem_cons_of_mem _ hx)

theorem append (h : Linked next a l b) (h' : Linked next b l' c) : Linked next a (l ++ l') c := by
  induction h with
  | nil a => exact h'
  | cons rest ih => exact cons (ih h')

theorem nil_eq (h : Linked next a [] b) : a = b := by
  cases h
  rfl

theorem uncons {x : Nat} (h : Linked next a (x :: l) b) : a = x ∧ Linked next (next x) l b := by
  cases h with
  | cons rest => exact ⟨rfl, rest⟩

/-- The list from an address to the terminator, which is not a node, is unique. -/
theorem unique (h : Linked next a l b) (h' : Linked next a l' b) (hb : b ∉ l) (hb' : b ∉ l') :
    l = l' := by
  induction h generalizing l' with
  | nil a =>
      cases h' with
      | nil => rfl
      | cons => exact absurd List.mem_cons_self hb'
  | cons rest ih =>
      cases h' with
      | nil => exact absurd List.mem_cons_self hb
      | cons rest' =>
          rw [ih rest' (fun h => hb (List.mem_cons_of_mem _ h))
            (fun h => hb' (List.mem_cons_of_mem _ h))]

end Linked

end ZeroEmbedded.Foundation
