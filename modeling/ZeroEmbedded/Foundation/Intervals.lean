import Mathlib

/-!
# Disjoint intervals

Pairwise disjoint intervals of natural numbers inside of another interval are
together at most as long as it.
-/

namespace ZeroEmbedded.Foundation.Intervals

variable {ι : Type*}

/-- Two intervals given by start and length. -/
def Apart (a b : Nat × Nat) : Prop := a.1 + a.2 ≤ b.1 ∨ b.1 + b.2 ≤ a.1

theorem Apart.symm {a b : Nat × Nat} (h : Apart a b) : Apart b a := Or.symm h

/-- Parts of separate intervals are separate. -/
theorem Apart.mono {a b c d : Nat × Nat} (h : Apart a b) (hc : a.1 ≤ c.1)
    (hc' : c.1 + c.2 ≤ a.1 + a.2) (hd : b.1 ≤ d.1) (hd' : d.1 + d.2 ≤ b.1 + b.2) : Apart c d := by
  rcases h with h | h
  · exact Or.inl (by omega)
  · exact Or.inr (by omega)

/-- Separate intervals inside of `[lo, hi)` have a total length of at most `hi - lo`. -/
theorem sum_length_le {lo hi : Nat} {l : List (Nat × Nat)} (hapart : l.Pairwise Apart)
    (hlow : ∀ a ∈ l, lo ≤ a.1) (hhigh : ∀ a ∈ l, a.1 + a.2 ≤ hi) :
    (l.map (·.2)).sum ≤ hi - lo := by
  -- the points of the intervals, whose number is the total length
  have hcard : ∃ S : Finset Nat, S.card = (l.map (·.2)).sum ∧
      ∀ x ∈ S, ∃ a ∈ l, a.1 ≤ x ∧ x < a.1 + a.2 := by
    clear hlow hhigh
    induction l with
    | nil => exact ⟨∅, rfl, fun x hx => absurd hx (Finset.notMem_empty x)⟩
    | cons a l ih =>
        obtain ⟨hhead, htail⟩ := List.pairwise_cons.mp hapart
        obtain ⟨S, hS, hmem⟩ := ih htail
        have hdisjoint : Disjoint (Finset.Ico a.1 (a.1 + a.2)) S := by
          rw [Finset.disjoint_left]
          intro x hx hxS
          obtain ⟨b, hb, hlow, hhigh⟩ := hmem x hxS
          have hab := hhead b hb
          rw [Finset.mem_Ico] at hx
          rcases hab with hab | hab <;> omega
        refine ⟨Finset.disjUnion _ S hdisjoint, ?_, ?_⟩
        · rw [Finset.card_disjUnion, Nat.card_Ico, Nat.add_sub_cancel_left, hS, List.map_cons,
            List.sum_cons]
        · intro x hx
          rcases Finset.mem_disjUnion.mp hx with hx | hx
          · rw [Finset.mem_Ico] at hx
            exact ⟨a, List.mem_cons_self, hx⟩
          · obtain ⟨b, hb, hbx⟩ := hmem x hx
            exact ⟨b, List.mem_cons_of_mem a hb, hbx⟩
  obtain ⟨S, hS, hmem⟩ := hcard
  have hsub : S ⊆ Finset.Ico lo hi := by
    intro x hx
    obtain ⟨a, ha, hax⟩ := hmem x hx
    have hlo := hlow a ha
    have hhi := hhigh a ha
    rw [Finset.mem_Ico]
    omega
  rw [← hS, ← Nat.card_Ico]
  exact Finset.card_le_card hsub

/-- Separate intervals between `lo` and `top`. -/
structure Stacked (lo top : Nat) (l : List (Nat × Nat)) : Prop where
  apart : l.Pairwise Apart
  low : ∀ a ∈ l, lo ≤ a.1
  high : ∀ a ∈ l, a.1 + a.2 ≤ top

namespace Stacked

variable {lo top : Nat} {l : List (Nat × Nat)}

theorem nil (lo top : Nat) : Stacked lo top [] where
  apart := List.Pairwise.nil
  low _ h := absurd h List.not_mem_nil
  high _ h := absurd h List.not_mem_nil

/-- An interval above the others. -/
theorem push (h : Stacked lo top l) (hlo : lo ≤ top) {a : Nat × Nat} (ha : top ≤ a.1) :
    Stacked lo (a.1 + a.2) (a :: l) where
  apart := List.pairwise_cons.mpr ⟨fun b hb => Or.inr (Nat.le_trans (h.high b hb) ha), h.apart⟩
  low b hb := by
    rcases List.mem_cons.mp hb with rfl | hb
    · exact Nat.le_trans hlo ha
    · exact h.low b hb
  high b hb := by
    rcases List.mem_cons.mp hb with rfl | hb
    · exact Nat.le_refl _
    · have hhigh := h.high b hb
      omega

/-- Only the intervals that end below a new top stay. -/
theorem cut (h : Stacked lo top l) (newTop : Nat) :
    Stacked lo newTop (l.filter fun a => a.1 + a.2 ≤ newTop) where
  apart := h.apart.sublist List.filter_sublist
  low a ha := h.low a (List.mem_of_mem_filter ha)
  high _ ha := of_decide_eq_true (List.mem_filter.mp ha).2

/-- A cut at or above the top keeps all intervals. -/
theorem cut_eq_self (h : Stacked lo top l) {newTop : Nat} (htop : top ≤ newTop) :
    (l.filter fun a => a.1 + a.2 ≤ newTop) = l :=
  List.filter_eq_self.mpr fun a ha => decide_eq_true (Nat.le_trans (h.high a ha) htop)

end Stacked

end ZeroEmbedded.Foundation.Intervals
