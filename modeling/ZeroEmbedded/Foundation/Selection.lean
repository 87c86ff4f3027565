import Mathlib

/-!
# Order statistics and comparator networks

The element of a given rank is determined by how many elements are not greater
than a threshold. A comparator network commutes with monotone maps, so that it
selects the element of a rank from every tuple as soon as it does from every
tuple of bits.
-/

namespace ZeroEmbedded.Foundation

open Finset

variable {α β : Type*} [LinearOrder α] [LinearOrder β] {n : ℕ}

section Rank

/-- The element at position `k` of the sorted tuple. -/
def orderStatistic (v : Fin n → α) (k : Fin n) : α := v (Tuple.sort v k)

variable {v v' : Fin n → α} {k : Fin n} {t : α}

/-- A permutation keeps the number of elements with a property. -/
theorem card_filter_comp (σ : Equiv.Perm (Fin n)) (p : Fin n → Prop) [DecidablePred p] :
    #{i | p (σ i)} = #{i | p i} := by
  apply Finset.card_equiv σ
  intro i
  rw [mem_filter_univ, mem_filter_univ]

theorem orderStatistic_le_iff : orderStatistic v k ≤ t ↔ (k : ℕ) < #{i | v i ≤ t} := by
  rw [← card_filter_comp (Tuple.sort v) fun i => v i ≤ t]
  exact (Tuple.lt_card_le_iff_apply_le_of_monotone (Tuple.monotone_sort v)).symm

theorem orderStatistic_lt_iff : orderStatistic v k < t ↔ (k : ℕ) < #{i | v i < t} := by
  rw [← card_filter_comp (Tuple.sort v) fun i => v i < t]
  exact (Tuple.lt_card_lt_iff_apply_lt_of_monotone (Tuple.monotone_sort v)).symm

/-- The counts determine the element. -/
theorem eq_orderStatistic {m : α} (h : ∀ t, m ≤ t ↔ (k : ℕ) < #{i | v i ≤ t}) :
    m = orderStatistic v k := by
  apply eq_of_forall_ge_iff
  intro t
  rw [h, orderStatistic_le_iff]

theorem orderStatistic_perm (σ : Equiv.Perm (Fin n)) :
    orderStatistic (v ∘ σ) k = orderStatistic v k :=
  congrFun Tuple.comp_perm_comp_sort_eq_comp_sort k

/-- When few elements are replaced, an element that stays is not greater. -/
theorem exists_le_orderStatistic {replaced : Finset (Fin n)} (hcard : replaced.card ≤ k)
    (hsame : ∀ i ∉ replaced, v' i = v i) : ∃ i ∉ replaced, v i ≤ orderStatistic v' k := by
  have hcount : replaced.card < #{i | v' i ≤ orderStatistic v' k} :=
    Nat.lt_of_le_of_lt hcard (orderStatistic_le_iff.mp le_rfl)
  obtain ⟨i, hi, hstays⟩ := exists_mem_notMem_of_card_lt_card hcount
  refine ⟨i, hstays, ?_⟩
  rw [← hsame i hstays]
  exact (mem_filter_univ i).mp hi

/-- When few elements are replaced, an element that stays is not smaller. -/
theorem exists_orderStatistic_le {replaced : Finset (Fin n)} (hcard : replaced.card + k < n)
    (hsame : ∀ i ∉ replaced, v' i = v i) : ∃ i ∉ replaced, orderStatistic v' k ≤ v i := by
  have hsmaller : #{i | v' i < orderStatistic v' k} ≤ k :=
    Nat.not_lt.mp fun hlt => lt_irrefl _ (orderStatistic_lt_iff.mpr hlt)
  have htotal := card_filter_add_card_filter_not (s := univ) fun i => v' i < orderStatistic v' k
  rw [card_univ, Fintype.card_fin] at htotal
  have hcount : replaced.card < #{i | ¬ v' i < orderStatistic v' k} := by omega
  obtain ⟨i, hi, hstays⟩ := exists_mem_notMem_of_card_lt_card hcount
  refine ⟨i, hstays, ?_⟩
  rw [← hsame i hstays]
  exact not_lt.mp ((mem_filter_univ i).mp hi)

end Rank

section Networks

/-- A comparator puts the smaller of two elements on the wire `low`. -/
structure Comparator (n : ℕ) where
  low : Fin n
  high : Fin n

def Comparator.exchange (c : Comparator n) (v : Fin n → α) : Fin n → α :=
  Function.update (Function.update v c.low (min (v c.low) (v c.high))) c.high
    (max (v c.low) (v c.high))

/-- The comparators in turn. -/
def runNetwork (net : List (Comparator n)) (v : Fin n → α) : Fin n → α :=
  net.foldl (fun v c => c.exchange v) v

variable {f : α → β}

theorem Comparator.exchange_comp (c : Comparator n) (hf : Monotone f) (v : Fin n → α) :
    c.exchange (f ∘ v) = f ∘ c.exchange v := by
  rw [Comparator.exchange, Comparator.exchange, Function.comp_update, Function.comp_update,
    hf.map_min, hf.map_max]
  rfl

theorem runNetwork_comp (net : List (Comparator n)) (hf : Monotone f) (v : Fin n → α) :
    runNetwork net (f ∘ v) = f ∘ runNetwork net v := by
  induction net generalizing v with
  | nil => rfl
  | cons c net ih =>
      rw [runNetwork, List.foldl_cons, c.exchange_comp hf]
      exact ih (c.exchange v)

/-- A network that selects the bit of a rank selects the element of that rank. -/
theorem runNetwork_selects {net : List (Comparator n)} {wire k : Fin n}
    (hbits : ∀ b : Fin n → Bool, runNetwork net b wire = false ↔ (k : ℕ) < #{i | b i = false})
    (v : Fin n → α) : runNetwork net v wire = orderStatistic v k := by
  apply eq_orderStatistic
  intro t
  let above : α → Bool := fun x => decide (t < x)
  have habove : ∀ x, above x = false ↔ x ≤ t := fun x => decide_eq_false_iff_not.trans not_lt
  have hmono : Monotone above := by
    intro x y hxy
    by_cases hx : t < x
    · have hy : above y = true := decide_eq_true (lt_of_lt_of_le hx hxy)
      rw [hy]
      exact Bool.le_true _
    · have hx' : above x = false := decide_eq_false hx
      rw [hx']
      exact Bool.false_le _
  calc
    runNetwork net v wire ≤ t ↔ above (runNetwork net v wire) = false := (habove _).symm
    _ ↔ runNetwork net (above ∘ v) wire = false := by rw [runNetwork_comp net hmono]; rfl
    _ ↔ (k : ℕ) < #{i | above (v i) = false} := hbits (above ∘ v)
    _ ↔ (k : ℕ) < #{i | v i ≤ t} := by simp only [habove]

end Networks

end ZeroEmbedded.Foundation
