import Mathlib

/-!
# Runs of labelled steps

A run carries the events of its steps in order, so that an invariant may speak
of the state and of the history that led to it.
-/

namespace ZeroEmbedded.Foundation

variable {σ ε : Type*} {Step : σ → ε → σ → Prop}

/-- A run from one state to another and its events. -/
inductive Run (Step : σ → ε → σ → Prop) : σ → List ε → σ → Prop
  | nil (s : σ) : Run Step s [] s
  | snoc {s t u : σ} {es : List ε} {e : ε} (run : Run Step s es t) (step : Step t e u) :
      Run Step s (es ++ [e]) u

/-- A position in a history with one more event is the last one or a position of the history. -/
theorem concat_eq_append_cons {es before after : List ε} {e x : ε}
    (h : es ++ [e] = before ++ x :: after) :
    (before = es ∧ x = e ∧ after = []) ∨ ∃ rest, after = rest ++ [e] ∧ es = before ++ x :: rest := by
  rcases List.eq_nil_or_concat' after with rfl | ⟨rest, last, rfl⟩
  · obtain ⟨hes, hlast⟩ := List.append_inj' h rfl
    exact Or.inl ⟨hes.symm, (List.singleton_inj.mp hlast).symm, rfl⟩
  · rw [← List.cons_append, ← List.append_assoc] at h
    obtain ⟨hes, hlast⟩ := List.append_inj' h rfl
    rw [List.singleton_inj.mp hlast]
    exact Or.inr ⟨rest, rfl, hes⟩

namespace Run

/-- What holds at the start and is preserved by every step holds of every run. -/
theorem invariant {s t : σ} {es : List ε} (run : Run Step s es t) (Inv : σ → List ε → Prop)
    (start : Inv s []) (step : ∀ t es e u, Inv t es → Step t e u → Inv u (es ++ [e])) :
    Inv t es := by
  induction run with
  | nil => exact start
  | snoc _ hstep ih => exact step _ _ _ _ ih hstep

/-- Runs are composed. -/
theorem append {s t u : σ} {es fs : List ε} (first : Run Step s es t) (second : Run Step t fs u) :
    Run Step s (es ++ fs) u := by
  induction second with
  | nil => rwa [List.append_nil]
  | snoc _ hstep ih =>
      rw [← List.append_assoc]
      exact ih.snoc hstep

/-- A run of one step. -/
theorem single {s t : σ} {e : ε} (step : Step s e t) : Run Step s [e] t :=
  (Run.nil s).snoc step

/-- A run whose steps map to steps of another system. -/
theorem map {σ' ε' : Type*} {Step' : σ' → ε' → σ' → Prop} (f : σ → σ') (g : ε → ε')
    (step : ∀ s e t, Step s e t → Step' (f s) (g e) (f t)) {s t : σ} {es : List ε}
    (run : Run Step s es t) : Run Step' (f s) (es.map g) (f t) := by
  induction run with
  | nil => exact Run.nil _
  | snoc _ hstep ih =>
      rw [List.map_append]
      exact ih.snoc (step _ _ _ hstep)

/-- The events and the final state of a list of choices; impossible choices are passed over. -/
def play {σ ε χ : Type*} (turn : σ → χ → Option (ε × σ)) : List χ → σ → List ε × σ
  | [], s => ([], s)
  | c :: cs, s =>
      match turn s c with
      | some (e, t) => (e :: (play turn cs t).1, (play turn cs t).2)
      | none => play turn cs s

/-- Choices that are steps give a run. -/
theorem play_run {χ : Type*} {turn : σ → χ → Option (ε × σ)}
    (sound : ∀ s c e t, turn s c = some (e, t) → Step s e t) (cs : List χ) (s : σ) :
    Run Step s (play turn cs s).1 (play turn cs s).2 := by
  induction cs generalizing s with
  | nil => exact Run.nil s
  | cons c cs ih =>
      simp only [play]
      split
      · next e t hturn => exact (Run.single (sound s c e t hturn)).append (ih t)
      · exact ih s

end Run

end ZeroEmbedded.Foundation
