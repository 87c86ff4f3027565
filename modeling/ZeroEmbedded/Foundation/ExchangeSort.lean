import Mathlib

/-!
# Exchange sort

Two nested loops compare every position with the later ones, and exchange the
two elements when the first stands behind the second. For any strict order, a
partial one too, no element is left in front of one that it stands behind.
-/

namespace ZeroEmbedded.Foundation

variable {α : Type*} (behind : α → α → Bool)

/-- Compare the elements at `i` and `j`. -/
def exchange (i : Nat) (a : Array α) (j : Nat) : Array α :=
  match a[i]?, a[j]? with
  | some x, some y => if behind x y then a.swapIfInBounds i j else a
  | _, _ => a

/-- The inner loop: compare the element at `i` with those behind it. -/
def exchangeRow (size i : Nat) (a : Array α) : Array α :=
  (List.range' (i + 1) (size - (i + 1))).foldl (exchange behind i) a

def exchangeSort (a : Array α) : Array α :=
  (List.range a.size).foldl (fun a' i => exchangeRow behind a.size i a') a

variable {behind} {a : Array α} {i j k : Nat}

/-- A comparison changes nothing, or exchanges two elements that are in the wrong order. -/
theorem exchange_cases (behind : α → α → Bool) (i : Nat) (a : Array α) (j : Nat) :
    (exchange behind i a j = a ∧ ∀ x ∈ a[i]?, ∀ y ∈ a[j]?, ¬ behind x y) ∨
      ∃ hi : i < a.size, ∃ hj : j < a.size,
        exchange behind i a j = a.swap i j hi hj ∧ behind a[i] a[j] := by
  rw [exchange]
  cases hx : a[i]? with
  | none => exact Or.inl ⟨rfl, fun _ hnone => nomatch hnone⟩
  | some x =>
      cases hy : a[j]? with
      | none => exact Or.inl ⟨rfl, fun _ _ _ hnone => nomatch hnone⟩
      | some y =>
          obtain ⟨hi, rfl⟩ := Array.getElem?_eq_some_iff.mp hx
          obtain ⟨hj, rfl⟩ := Array.getElem?_eq_some_iff.mp hy
          by_cases hbehind : behind a[i] a[j] = true
          · refine Or.inr ⟨hi, hj, ?_, hbehind⟩
            dsimp only
            rw [if_pos hbehind, Array.swapIfInBounds_def, dif_pos hi, dif_pos hj]
          · refine Or.inl ⟨if_neg hbehind, ?_⟩
            intro x hx y hy
            obtain rfl := Option.some_inj.mp hx
            obtain rfl := Option.some_inj.mp hy
            exact hbehind

theorem exchange_perm (i : Nat) (a : Array α) (j : Nat) : (exchange behind i a j).Perm a := by
  rcases exchange_cases behind i a j with ⟨hsame, -⟩ | ⟨hi, hj, hswap, -⟩
  · rw [hsame]
  · rw [hswap]
    exact Array.swap_perm hi hj

theorem exchangeRow_perm (size i : Nat) (a : Array α) : (exchangeRow behind size i a).Perm a := by
  rw [exchangeRow]
  generalize List.range' (i + 1) (size - (i + 1)) = js
  induction js generalizing a with
  | nil => exact Array.Perm.refl a
  | cons j js ih => exact (ih _).trans (exchange_perm i a j)

/-- The elements stay the same. -/
theorem exchangeSort_perm (a : Array α) : (exchangeSort behind a).Perm a := by
  rw [exchangeSort]
  generalize List.range a.size = is
  generalize a.size = size
  induction is generalizing a with
  | nil => exact Array.Perm.refl a
  | cons i is ih => exact (ih _).trans (exchangeRow_perm size i a)

variable (behind)

/-- The element at `k` is not behind the one at `l`. -/
def InOrder (a : Array α) (k l : Nat) : Prop := ∀ x ∈ a[k]?, ∀ y ∈ a[l]?, ¬ behind x y

/-- The positions before `i` have been compared with all the later ones. -/
def SortedBefore (i : Nat) (a : Array α) : Prop := ∀ k < i, ∀ l, k < l → InOrder behind a k l

/-- The position `i` has also been compared with the later ones before `j`. -/
def RowSortedBefore (i j : Nat) (a : Array α) : Prop :=
  SortedBefore behind i a ∧ ∀ l, i < l → l < j → InOrder behind a i l

variable {behind}

section Order

variable (hirrefl : ∀ x, ¬ behind x x) (htrans : ∀ x y z, behind x y → behind y z → behind x z)

include hirrefl htrans

/-- A comparison extends the order of its row. -/
theorem RowSortedBefore.exchange (h : RowSortedBefore behind i j a) (hij : i < j) :
    RowSortedBefore behind i (j + 1) (exchange behind i a j) := by
  rcases exchange_cases behind i a j with ⟨hsame, horder⟩ | ⟨hi, hj, hswap, hbehind⟩
  · rw [hsame]
    refine ⟨h.1, ?_⟩
    intro l hil hlj
    rcases Nat.lt_succ_iff_lt_or_eq.mp hlj with hlt | rfl
    · exact h.2 l hil hlt
    · exact horder
  · rw [hswap]
    have hget : ∀ k, (a.swap i j hi hj)[k]? =
        if j = k then some a[i] else if i = k then some a[j] else a[k]? := fun k =>
      Array.getElem?_swap hi hj
    have hat : ∀ {k} (hk : k < a.size), a[k] ∈ a[k]? := fun hk => Array.getElem?_eq_getElem hk
    constructor
    · -- an earlier element is in front of the two, wherever they stand
      intro k hk l hkl x hx y hy
      rw [hget, if_neg (by omega), if_neg (by omega)] at hx
      rw [hget] at hy
      split at hy
      · obtain rfl := Option.some_inj.mp hy
        exact h.1 k hk i hk x hx _ (hat hi)
      · split at hy
        · obtain rfl := Option.some_inj.mp hy
          exact h.1 k hk j (Nat.lt_trans hk hij) x hx _ (hat hj)
        · exact h.1 k hk l hkl x hx y hy
    · intro l hil hlj x hx y hy
      rw [hget, if_neg (by omega), if_pos rfl] at hx
      obtain rfl := Option.some_inj.mp hx
      rw [hget] at hy
      split at hy
      · obtain rfl := Option.some_inj.mp hy
        exact fun hback => hirrefl _ (htrans _ _ _ hbehind hback)
      · next hne =>
          rw [if_neg (by omega)] at hy
          exact fun hback =>
            h.2 l hil (by omega) _ (hat hi) y hy (htrans _ _ _ hbehind hback)

/-- A row is in order after its loop. -/
theorem SortedBefore.exchangeRow {size : Nat} (h : SortedBefore behind i a)
    (hsize : a.size = size) : SortedBefore behind (i + 1) (exchangeRow behind size i a) := by
  have hrow : ∀ c j a', i < j → RowSortedBefore behind i j a' →
      RowSortedBefore behind i (j + c)
        ((List.range' j c).foldl (Foundation.exchange behind i) a') := by
    intro c
    induction c with
    | zero => exact fun j a' _ h' => h'
    | succ c ih =>
        intro j a' hij h'
        rw [List.range'_succ, List.foldl_cons, Nat.add_comm c 1, ← Nat.add_assoc]
        exact ih (j + 1) _ (Nat.lt_succ_of_lt hij) (h'.exchange hirrefl htrans hij)
  obtain ⟨hbefore, hlast⟩ := hrow (size - (i + 1)) (i + 1) a (Nat.lt_succ_self i)
    ⟨h, fun l hil hlt => by omega⟩
  intro k hk l hkl
  rcases Nat.lt_succ_iff_lt_or_eq.mp hk with hlt | rfl
  · exact hbefore k hlt l hkl
  · by_cases hl : l < k + 1 + (size - (k + 1))
    · exact hlast l hkl hl
    · intro x _ y hy
      have hlength : (Foundation.exchangeRow behind size k a).size = size :=
        (exchangeRow_perm size k a).size_eq.trans hsize
      obtain ⟨hbound, -⟩ := Array.getElem?_eq_some_iff.mp hy
      change l < (Foundation.exchangeRow behind size k a).size at hbound
      omega

/-- No element is left in front of one that it stands behind. -/
theorem exchangeSort_pairwise (a : Array α) :
    (exchangeSort behind a).toList.Pairwise fun x y => ¬ behind x y := by
  have hsorted : ∀ n, SortedBefore behind n
      ((List.range n).foldl (fun a' i => Foundation.exchangeRow behind a.size i a') a) ∧
      ((List.range n).foldl (fun a' i => Foundation.exchangeRow behind a.size i a') a).size =
        a.size := by
    intro n
    induction n with
    | zero => exact ⟨fun k hk => absurd hk (Nat.not_lt_zero k), rfl⟩
    | succ n ih =>
        rw [List.range_succ, List.foldl_concat]
        exact ⟨ih.1.exchangeRow hirrefl htrans ih.2, (exchangeRow_perm _ _ _).size_eq.trans ih.2⟩
  rw [List.pairwise_iff_getElem]
  intro k l hk hl hkl
  rw [Array.length_toList] at hk hl
  have hsize : (exchangeSort behind a).size = a.size := (hsorted a.size).2
  exact (hsorted a.size).1 k (hsize ▸ hk) l hkl _ (Array.getElem?_eq_getElem hk) _
    (Array.getElem?_eq_getElem hl)

end Order

end ZeroEmbedded.Foundation
