import ZeroEmbedded.Foundation.Runs

/-!
# The last word of a history

Some events of a run decide a value, and the others leave it alone. What an
event decides may depend on the history before it. The value is what the last
deciding event said, or the start when there was none.
-/

namespace ZeroEmbedded.Foundation

variable {σ ε β : Type*} {Step : σ → ε → σ → Prop}

/-- No event of `after` decides, in a history that begins with `before`. -/
def Silent (decides : List ε → ε → Option β) (before after : List ε) : Prop :=
  ∀ mid x rest, after = mid ++ x :: rest → decides (before ++ mid) x = none

/-- The value `v` stood at the start or was said, and nothing was said since. -/
def LastWord (decides : List ε → ε → Option β) (start : β) (es : List ε) (v : β) : Prop :=
  (v = start ∧ Silent decides [] es) ∨
    ∃ before e after, es = before ++ e :: after ∧ decides before e = some v ∧
      Silent decides (before ++ [e]) after

variable {decides : List ε → ε → Option β} {before after es : List ε} {e : ε} {start v w : β}

theorem Silent.nil : Silent decides before [] := fun mid x rest h =>
  absurd (congrArg List.length h) (by simp)

theorem Silent.concat (h : Silent decides before after) (he : decides (before ++ after) e = none) :
    Silent decides before (after ++ [e]) := by
  intro mid x rest hsplit
  rcases concat_eq_append_cons hsplit with ⟨rfl, rfl, -⟩ | ⟨rest', -, hafter⟩
  · exact he
  · exact h mid x rest' hafter

namespace LastWord

theorem said (h : decides es e = some v) : LastWord decides start (es ++ [e]) v :=
  Or.inr ⟨es, e, [], rfl, h, Silent.nil⟩

theorem concat (h : LastWord decides start es v) (he : decides es e = none) :
    LastWord decides start (es ++ [e]) v := by
  rcases h with ⟨hstart, hsilent⟩ | ⟨before, x, after, rfl, hx, hsilent⟩
  · exact Or.inl ⟨hstart, hsilent.concat he⟩
  · refine Or.inr ⟨before, x, after ++ [e], by simp, hx, hsilent.concat ?_⟩
    rwa [List.append_assoc]

/-- What a run shows when every step shows what its event decides, or goes on showing the same. -/
theorem exists_of_run {s t : σ} (Shows : σ → β → Prop) (run : Run Step s es t)
    (hstart : Shows s start)
    (step : ∀ t es e u v, Run Step s es t → Step t e u → Shows t v →
      Shows u ((decides es e).getD v)) : ∃ v, LastWord decides start es v ∧ Shows t v := by
  have hall : Run Step s es t ∧ ∃ v, LastWord decides start es v ∧ Shows t v := by
    refine run.invariant
      (fun t es => Run Step s es t ∧ ∃ v, LastWord decides start es v ∧ Shows t v)
      ⟨Run.nil s, start, Or.inl ⟨rfl, Silent.nil⟩, hstart⟩ ?_
    rintro t es e u ⟨hrun, v, hword, hshows⟩ hstep
    have hnext := step t es e u v hrun hstep hshows
    refine ⟨hrun.snoc hstep, (decides es e).getD v, ?_, hnext⟩
    cases hdecides : decides es e with
    | none => exact hword.concat hdecides
    | some w => exact said hdecides
  exact hall.2

/-- The value that a run shows when every step shows what its event decides, or leaves it alone. -/
theorem of_run {s t : σ} (value : σ → β) (run : Run Step s es t)
    (step : ∀ t es e u, Run Step s es t → Step t e u →
      value u = (decides es e).getD (value t)) : LastWord decides (value s) es (value t) := by
  obtain ⟨v, hword, rfl⟩ := exists_of_run (fun t v => v = value t) run rfl
    fun t es e u v hrun hstep hv => by rw [hv, step t es e u hrun hstep]
  exact hword

end LastWord

end ZeroEmbedded.Foundation
