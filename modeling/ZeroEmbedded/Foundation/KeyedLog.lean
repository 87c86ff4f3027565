import Mathlib

/-!
# Logs of keyed records

The last record of a key decides its value. Compaction keeps exactly the
records that are live and are not followed by a record of the same key.
-/

namespace ZeroEmbedded.Foundation.KeyedLog

variable {A K : Type*} [DecidableEq K] (key : A → K)

/-- The last record of key `k`. -/
def latest (k : K) : List A → Option A
  | [] => none
  | r :: rest => (latest k rest).or (if key r = k then some r else none)

@[simp] theorem latest_nil (k : K) : latest key k [] = none := rfl

theorem latest_append (k : K) (xs ys : List A) :
    latest key k (xs ++ ys) = (latest key k ys).or (latest key k xs) := by
  induction xs with
  | nil => simp
  | cons r rest ih => simp only [List.cons_append, latest, ih, Option.or_assoc]

theorem latest_concat (k : K) (log : List A) (r : A) :
    latest key k (log ++ [r]) = if key r = k then some r else latest key k log := by
  rw [latest_append]
  by_cases h : key r = k <;> simp [latest, h]

theorem latest_eq_none_iff (k : K) (log : List A) :
    latest key k log = none ↔ ∀ r ∈ log, key r ≠ k := by
  induction log with
  | nil => simp
  | cons r rest ih =>
      by_cases h : key r = k <;> simp [latest, ih, h]

theorem latest_mem {k : K} {log : List A} {r : A} (h : latest key k log = some r) :
    r ∈ log ∧ key r = k := by
  induction log with
  | nil => simp at h
  | cons x rest ih =>
      rcases Option.or_eq_some_iff.mp h with hr | ⟨_, hx⟩
      · exact ⟨List.mem_cons_of_mem _ (ih hr).1, (ih hr).2⟩
      · by_cases hk : key x = k
        · rw [if_pos hk] at hx
          cases hx
          exact ⟨List.mem_cons_self, hk⟩
        · simp [hk] at hx

variable (live : A → Bool)

/-- The live records without a later record of the same key, in log order. -/
def survivors : List A → List A
  | [] => []
  | r :: rest =>
      if live r = true ∧ ∀ x ∈ rest, key x ≠ key r then r :: survivors rest
      else survivors rest

theorem survivors_sublist (log : List A) : (survivors key live log).Sublist log := by
  induction log with
  | nil => exact List.Sublist.refl _
  | cons r rest ih =>
      simp only [survivors]
      split
      · exact ih.cons_cons r
      · exact ih.cons r

theorem mem_survivors {log : List A} {r : A} (h : r ∈ survivors key live log) :
    r ∈ log ∧ live r = true ∧ latest key (key r) log = some r := by
  induction log with
  | nil => simp [survivors] at h
  | cons x rest ih =>
      simp only [survivors] at h
      by_cases hx : live x = true ∧ ∀ y ∈ rest, key y ≠ key x
      · rw [if_pos hx, List.mem_cons] at h
        rcases h with rfl | h
        · refine ⟨List.mem_cons_self, hx.1, ?_⟩
          simp [latest, (latest_eq_none_iff key (key r) rest).mpr hx.2]
        · obtain ⟨hm, hl, he⟩ := ih h
          exact ⟨List.mem_cons_of_mem _ hm, hl, by simp [latest, he]⟩
      · rw [if_neg hx] at h
        obtain ⟨hm, hl, he⟩ := ih h
        exact ⟨List.mem_cons_of_mem _ hm, hl, by simp [latest, he]⟩

/-- Survivors have distinct keys. -/
theorem survivors_pairwise (log : List A) :
    (survivors key live log).Pairwise fun x y => key x ≠ key y := by
  induction log with
  | nil => exact List.Pairwise.nil
  | cons r rest ih =>
      simp only [survivors]
      split
      next h =>
        refine List.pairwise_cons.mpr ⟨fun y hy => ?_, ih⟩
        exact (h.2 y (mem_survivors key live hy).1).symm
      next => exact ih

/-- Compaction keeps the last record of a key when it is live and drops it otherwise. -/
theorem latest_survivors (k : K) (log : List A) :
    latest key k (survivors key live log) = (latest key k log).filter live := by
  induction log with
  | nil => rfl
  | cons r rest ih =>
      simp only [survivors, latest]
      by_cases hk : key r = k
      · by_cases hnone : ∀ x ∈ rest, key x ≠ key r
        · have hrest : latest key k rest = none :=
            (latest_eq_none_iff key k rest).mpr (hk ▸ hnone)
          rw [hrest] at ih ⊢
          by_cases hl : live r = true
          · rw [if_pos ⟨hl, hnone⟩]
            simp [latest, ih, hk, Option.filter, hl]
          · rw [if_neg fun h => hl h.1, ih]
            simp [hk, Option.filter, hl]
        · have hsome : latest key k rest ≠ none := fun hn =>
            hnone (hk ▸ (latest_eq_none_iff key k rest).mp hn)
          obtain ⟨x, hx⟩ := Option.ne_none_iff_exists'.mp hsome
          rw [if_neg fun h => hnone h.2, ih, hx]
          simp
      · have hor : (latest key k rest).or (if key r = k then some r else none) =
            latest key k rest := by simp [hk]
        rw [hor]
        split
        · simp [latest, hk, ih]
        · exact ih

/-- Compaction looks only at the key and the liveness of the records. -/
theorem survivors_map {B : Type*} (f : B → A) (log : List B) :
    survivors key live (log.map f) =
      (survivors (fun b => key (f b)) (fun b => live (f b)) log).map f := by
  induction log with
  | nil => rfl
  | cons r rest ih =>
      simp only [List.map_cons, survivors, ih, List.forall_mem_map]
      split
      · rw [List.map_cons]
      · rfl

/-- In a list with distinct keys every record is the last one of its key. -/
theorem latest_of_pairwise {log : List A} (hp : log.Pairwise fun x y => key x ≠ key y)
    {r : A} (h : r ∈ log) : latest key (key r) log = some r := by
  induction log with
  | nil => cases h
  | cons x rest ih =>
      obtain ⟨hx, hrest⟩ := List.pairwise_cons.mp hp
      rcases List.mem_cons.mp h with rfl | h
      · have hnone := (latest_eq_none_iff key (key r) rest).mpr fun y hy => (hx y hy).symm
        simp [latest, hnone]
      · simp [latest, ih hrest h]

/-- Some live records of a log, among them every one without a later record of the same key. -/
inductive Keeps : List A → List A → Prop
  | nil : Keeps [] []
  | keep {r : A} {rest kept : List A} (hl : live r = true) (h : Keeps rest kept) :
      Keeps (r :: rest) (r :: kept)
  | drop {r : A} {rest kept : List A} (hr : live r = true → ∃ x ∈ rest, key x = key r)
      (h : Keeps rest kept) : Keeps (r :: rest) kept

/-- A log that still ends in the same live record of every key. -/
def Retains (log kept : List A) : Prop :=
  ∀ k r, latest key k log = some r → live r = true → latest key k kept = some r

theorem Retains.refl (log : List A) : Retains key live log log := fun _ _ h _ => h

omit [DecidableEq K] in
theorem Keeps.sublist {log kept : List A} (h : Keeps key live log kept) : kept.Sublist log := by
  induction h with
  | nil => exact List.Sublist.refl _
  | keep _ _ ih => exact ih.cons_cons _
  | drop _ _ ih => exact ih.cons _

theorem Keeps.retains {log kept : List A} (h : Keeps key live log kept) :
    Retains key live log kept := by
  intro k r hlast hlive
  induction h with
  | nil => exact hlast
  | @keep x rest kept hl h ih =>
      rw [latest] at hlast ⊢
      cases hrest : latest key k rest with
      | some y =>
          rw [hrest] at hlast
          rw [ih (hrest.trans hlast)]
          rfl
      | none =>
          -- no later record has the key, in the log and therefore among the kept ones
          have hnone : latest key k kept = none := by
            rw [latest_eq_none_iff] at hrest ⊢
            exact fun y hy => hrest y (h.sublist.subset hy)
          rw [hrest] at hlast
          rw [hnone]
          exact hlast
  | @drop x rest kept hr h ih =>
      rw [latest] at hlast
      cases hrest : latest key k rest with
      | some y =>
          rw [hrest] at hlast
          exact ih (hrest.trans hlast)
      | none =>
          rw [hrest, Option.none_or] at hlast
          by_cases hk : key x = k
          · rw [if_pos hk] at hlast
            obtain rfl : x = r := Option.some.inj hlast
            obtain ⟨y, hy, hyk⟩ := hr hlive
            exact absurd (hyk.trans hk) ((latest_eq_none_iff key k rest).mp hrest y hy)
          · rw [if_neg hk] at hlast
            cases hlast

end ZeroEmbedded.Foundation.KeyedLog
