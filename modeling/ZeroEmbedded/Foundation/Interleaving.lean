import ZeroEmbedded.Foundation.DeviceProgram
import ZeroEmbedded.Foundation.Runs

/-!
# Threads on a shared state

A call is a program over commands on a shared state. Each thread runs its calls
one after the other, and the commands of different threads interleave in any
way; a complete call between two commands of another one is a special case.

A contract says what each thread may rely on and what it guarantees. When every
call conforms to the contract, a run of the interleaved threads is a run of the
guarantees, and no call ever gets stuck.

## Implementation notes

A call is completed by the command after which its program returns. A call
remembers the state at the last command that observes the shared state, so that
its result can be compared with what it saw.
-/

namespace ZeroEmbedded.Foundation

/-- The calls of the threads `ι` over commands on a shared state. -/
structure Threads (ι C : Type) (R : C → Type) (σ Op Res : Type) where
  handler : Handler C R σ
  observes : C → Bool
  owner : Op → ι
  program : Op → Program C R Res

namespace Threads

/-- A completed call: its result and the state it saw last. -/
structure Completed (σ Op Res : Type) where
  op : Op
  result : Res
  seen : σ

/-- A call under way: the commands that remain and the state it saw last. -/
structure Pending (C : Type) (R : C → Type) (σ Op Res : Type) where
  op : Op
  rest : Program C R Res
  seen : σ

/-- The shared state and the call of each thread. -/
structure Config (ι C : Type) (R : C → Type) (σ Op Res : Type) where
  shared : σ
  pending : ι → Option (Pending C R σ Op Res)

variable {ι C : Type} {R : C → Type} {σ Op Res : Type}

/-- A call whose program has returned is completed. -/
def settle (op : Op) (seen : σ) :
    Program C R Res → Option (Pending C R σ Op Res) × Option (Completed σ Op Res)
  | .ret a => (none, some ⟨op, a, seen⟩)
  | .call c k => (some ⟨op, .call c k, seen⟩, none)
  | .stuck => (some ⟨op, .stuck, seen⟩, none)

variable [DecidableEq ι] (S : Threads ι C R σ Op Res)

/-- The state that a call has seen last after the command `c` in state `s`. -/
def see (c : C) (s seen : σ) : σ := if S.observes c then s else seen

/-- A thread starts a call, or executes the next command of its call. -/
inductive Step : Config ι C R σ Op Res → Option (Completed σ Op Res) → Config ι C R σ Op Res → Prop
  | start (cfg : Config ι C R σ Op Res) (op : Op) (idle : cfg.pending (S.owner op) = none) :
      Step cfg (settle op cfg.shared (S.program op)).2
        ⟨cfg.shared, Function.update cfg.pending (S.owner op)
          (settle op cfg.shared (S.program op)).1⟩
  | exec (cfg : Config ι C R σ Op Res) (i : ι) (op : Op) (c : C) (k : R c → Program C R Res)
      (seen : σ) (next : cfg.pending i = some ⟨op, .call c k, seen⟩) :
      Step cfg (settle op (S.see c cfg.shared seen) (k (S.handler c cfg.shared).1)).2
        ⟨(S.handler c cfg.shared).2, Function.update cfg.pending i
          (settle op (S.see c cfg.shared seen) (k (S.handler c cfg.shared).1)).1⟩

/-- No call is under way. -/
def idle (s : σ) : Config ι C R σ Op Res := ⟨s, fun _ => none⟩

/-- A choice of the scheduler. -/
inductive Turn (ι Op : Type)
  | start (op : Op)
  | exec (i : ι)

/-- The step that the scheduler has chosen, if it is possible. -/
def turn (cfg : Config ι C R σ Op Res) :
    Turn ι Op → Option (Option (Completed σ Op Res) × Config ι C R σ Op Res)
  | .start op =>
      match cfg.pending (S.owner op) with
      | none =>
          let next := settle op cfg.shared (S.program op)
          some (next.2, ⟨cfg.shared, Function.update cfg.pending (S.owner op) next.1⟩)
      | some _ => none
  | .exec i =>
      match cfg.pending i with
      | some ⟨op, .call c k, seen⟩ =>
          let reply := S.handler c cfg.shared
          let next := settle op (S.see c cfg.shared seen) (k reply.1)
          some (next.2, ⟨reply.2, Function.update cfg.pending i next.1⟩)
      | _ => none

/-- A choice of the scheduler is a step. -/
theorem turn_step (cfg : Config ι C R σ Op Res) (t : Turn ι Op) (e : Option (Completed σ Op Res))
    (cfg' : Config ι C R σ Op Res) (h : S.turn cfg t = some (e, cfg')) : Step S cfg e cfg' := by
  cases t with
  | start op =>
      simp only [turn] at h
      split at h
      · next hidle =>
          obtain ⟨rfl, rfl⟩ := Prod.mk.inj (Option.some.inj h)
          exact Step.start cfg op hidle
      · cases h
  | exec i =>
      simp only [turn] at h
      split at h
      · next op c k seen hnext =>
          obtain ⟨rfl, rfl⟩ := Prod.mk.inj (Option.some.inj h)
          exact Step.exec cfg i op c k seen hnext
      · cases h

/-- What the threads rely on and guarantee. -/
structure Contract (ι C σ Op Res : Type) where
  /-- Holds of the shared state at all times. -/
  inv : σ → Prop
  /-- What the other threads may do. -/
  rely : ι → σ → σ → Prop
  /-- When a command may be executed. -/
  allowed : C → σ → Prop
  /-- What a command of the thread does, and what it completes. -/
  guarantee : ι → Option (Completed σ Op Res) → σ → σ → Prop
  rely_refl : ∀ i s, rely i s s
  rely_trans : ∀ i s t u, rely i s t → rely i t u → rely i s u
  keeps : ∀ i e s t, inv s → guarantee i e s t → inv t
  supports : ∀ i j e s t, i ≠ j → inv s → guarantee i e s t → rely j s t

namespace Contract

variable (K : Contract ι C σ Op Res)

/-- From the state `s` on, the rest of a call keeps the contract whatever the others do. -/
def Conforms (i : ι) (op : Op) : Program C R Res → σ → σ → Prop
  | .ret _, _, _ => True
  | .stuck, _, _ => False
  | .call c k, s, seen => ∀ t, K.rely i s t → K.inv t → K.allowed c t ∧
      K.guarantee i (settle op (S.see c t seen) (k (S.handler c t).1)).2 t (S.handler c t).2 ∧
      Conforms i op (k (S.handler c t).1) (S.handler c t).2 (S.see c t seen)

/-- The thread has taken `s` to `t`, and `p` is what remains of its call. -/
structure After (i : ι) (op : Op) (p : Program C R Res) (s t seen : σ) : Prop where
  guarantee : K.guarantee i (settle op seen p).2 s t
  conforms : K.Conforms S i op p t seen

/-- The call keeps the contract when it starts in `s`. -/
def Starts (op : Op) (s : σ) : Prop := K.After S (S.owner op) op (S.program op) s s s

/-- A step of the contract itself: one thread does what it guarantees. -/
def Guaranteed (s : σ) (e : Option (Completed σ Op Res)) (t : σ) : Prop :=
  K.inv s ∧ ∃ i, K.guarantee i e s t

/-- The next command of every call is allowed, and no call is stuck. -/
def Safe (cfg : Config ι C R σ Op Res) : Prop :=
  ∀ i op rest seen, cfg.pending i = some ⟨op, rest, seen⟩ →
    ∃ c k, rest = .call c k ∧ K.allowed c cfg.shared

/-- The shared state keeps its invariant and every call under way conforms. -/
structure Sound (cfg : Config ι C R σ Op Res) : Prop where
  inv : K.inv cfg.shared
  conforms : ∀ i b, cfg.pending i = some b → S.owner b.op = i ∧
    (∃ c k, b.rest = .call c k) ∧ K.Conforms S i b.op b.rest cfg.shared b.seen

variable {S K} {i : ι} {op : Op} {p : Program C R Res} {s t seen : σ}
  {cfg cfg' : Config ι C R σ Op Res} {e : Option (Completed σ Op Res)}

omit [DecidableEq ι] in
/-- A call conforms when its next command is allowed and what follows keeps the contract. -/
theorem Conforms.command {c : C} {k : R c → Program C R Res}
    (h : ∀ t, K.rely i s t → K.inv t → K.allowed c t ∧
      K.After S i op (k (S.handler c t).1) t (S.handler c t).2 (S.see c t seen)) :
    K.Conforms S i op (.call c k) s seen := by
  intro t hrely hinv
  obtain ⟨hallowed, hafter⟩ := h t hrely hinv
  exact ⟨hallowed, hafter.guarantee, hafter.conforms⟩

omit [DecidableEq ι] in
/-- Conformance is stable under what the thread relies on. -/
theorem Conforms.stable (h : K.Conforms S i op p s seen) (hrely : K.rely i s t) :
    K.Conforms S i op p t seen := by
  cases p with
  | ret a => trivial
  | stuck => exact h
  | call c k => exact fun u hu hinv => h u (K.rely_trans i s t u hrely hu) hinv

omit [DecidableEq ι] in
/-- What `settle` leaves pending is a call that has not returned. -/
theorem settle_pending {b : Pending C R σ Op Res} (hsome : (settle op seen p).1 = some b) :
    b = ⟨op, p, seen⟩ ∧ ((∃ c k, p = .call c k) ∨ p = .stuck) := by
  cases p with
  | ret a => cases hsome
  | call c k => exact ⟨(Option.some.inj hsome).symm, Or.inl ⟨c, k, rfl⟩⟩
  | stuck => exact ⟨(Option.some.inj hsome).symm, Or.inr rfl⟩

/-- A step of one thread within the contract keeps the calls of all threads conforming. -/
theorem Sound.update (h : K.Sound S cfg) (howner : S.owner op = i)
    (hguar : K.guarantee i e cfg.shared t) (hconf : K.Conforms S i op p t seen) :
    K.Sound S ⟨t, Function.update cfg.pending i (settle op seen p).1⟩ where
  inv := K.keeps i e _ _ h.inv hguar
  conforms := by
    intro j b hb
    dsimp only at hb
    by_cases hj : j = i
    · subst hj
      rw [Function.update_self] at hb
      obtain ⟨rfl, hcall | rfl⟩ := settle_pending hb
      · exact ⟨howner, hcall, hconf⟩
      · exact False.elim hconf
    · rw [Function.update_of_ne hj] at hb
      obtain ⟨hown, hcall, hbconf⟩ := h.conforms j b hb
      exact ⟨hown, hcall, hbconf.stable (K.supports i j e _ _ (Ne.symm hj) h.inv hguar)⟩

/-- Every step of a sound configuration is a step of the contract. -/
theorem Sound.step (starts : ∀ op s, K.inv s → K.Starts S op s) (h : K.Sound S cfg)
    (hstep : Step S cfg e cfg') : K.Guaranteed cfg.shared e cfg'.shared ∧ K.Sound S cfg' := by
  cases hstep with
  | start op hidle =>
      have hstart := starts op cfg.shared h.inv
      exact ⟨⟨h.inv, _, hstart.guarantee⟩, h.update rfl hstart.guarantee hstart.conforms⟩
  | exec i op c k seen hnext =>
      obtain ⟨hown, -, hconf⟩ := h.conforms i _ hnext
      obtain ⟨-, hguar, hrest⟩ := hconf cfg.shared (K.rely_refl i _) h.inv
      exact ⟨⟨h.inv, i, hguar⟩, h.update hown hguar hrest⟩

omit [DecidableEq ι] in
theorem Sound.safe (h : K.Sound S cfg) : K.Safe cfg := by
  intro i op rest seen hb
  obtain ⟨-, ⟨c, k, rfl⟩, hconf⟩ := h.conforms i _ hb
  exact ⟨c, k, rfl, (hconf cfg.shared (K.rely_refl i _) h.inv).1⟩

/-- A run of conforming calls is a run of their guarantees, and all its configurations are
safe. -/
theorem refines (starts : ∀ op s, K.inv s → K.Starts S op s) (hinv : K.inv s)
    {es : List (Option (Completed σ Op Res))} (hrun : Run (Step S) (idle s) es cfg) :
    Run K.Guaranteed s es cfg.shared ∧ K.inv cfg.shared ∧ K.Safe cfg := by
  have hsound : K.Sound S (idle s : Config ι C R σ Op Res) :=
    ⟨hinv, fun i b hb => absurd hb (by simp [idle])⟩
  have hall : Run K.Guaranteed s es cfg.shared ∧ K.Sound S cfg := by
    refine hrun.invariant (fun cfg es => Run K.Guaranteed s es cfg.shared ∧ K.Sound S cfg)
      ⟨Run.nil s, hsound⟩ ?_
    rintro cfg es e cfg' ⟨hrun, hcfg⟩ hstep
    obtain ⟨hguar, hcfg'⟩ := hcfg.step starts hstep
    exact ⟨hrun.snoc hguar, hcfg'⟩
  exact ⟨hall.1, hall.2.inv, hall.2.safe⟩

end Contract

end Threads

end ZeroEmbedded.Foundation
