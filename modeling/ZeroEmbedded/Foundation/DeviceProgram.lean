import Mathlib

/-!
# Programs that talk to a device

A program issues commands one after the other and continues on each reply.
The same program runs under any handler: a healthy device, a failing one, or
one whose power is cut. A run that never returns is the leaf `stuck`.

## Implementation notes

`Yields` records the value, the final device state and the list of commands
that change the device. Replaying a prefix of that list gives the device
state when the power fails between two commands.
-/

namespace ZeroEmbedded.Foundation

/-- A program over commands `C`, where the reply to `c` lies in `R c`. -/
inductive Program (C : Type) (R : C → Type) (α : Type) : Type
  | ret (a : α)
  | call (c : C) (k : R c → Program C R α)
  | stuck

/-- A device answers each command and moves to its next state. -/
abbrev Handler (C : Type) (R : C → Type) (σ : Type) := (c : C) → σ → R c × σ

namespace Program

variable {C : Type} {R : C → Type} {σ α β : Type}

/-- Sequencing grafts the continuation onto every returning leaf. -/
def bind : Program C R α → (α → Program C R β) → Program C R β
  | ret a, f => f a
  | call c k, f => call c fun r => (k r).bind f
  | stuck, _ => stuck

instance : Monad (Program C R) where
  pure := ret
  bind := bind

@[simp] theorem pure_def (a : α) : (pure a : Program C R α) = ret a := rfl

@[simp] theorem ret_bind (a : α) (f : α → Program C R β) : (ret a >>= f) = f a := rfl

@[simp] theorem stuck_bind (f : α → Program C R β) :
    ((stuck : Program C R α) >>= f) = stuck := rfl

@[simp] theorem call_bind (c : C) (k : R c → Program C R α) (f : α → Program C R β) :
    (call c k >>= f) = call c fun r => k r >>= f := rfl

theorem bind_assoc {γ : Type} (p : Program C R α) (f : α → Program C R β)
    (g : β → Program C R γ) : ((p >>= f) >>= g) = (p >>= fun a => f a >>= g) := by
  induction p with
  | ret a => rfl
  | call c k ih => exact congrArg (call c) (funext ih)
  | stuck => rfl

/-- Issue one command and return its reply. -/
def request (c : C) : Program C R (R c) := call c ret

/-- The value and the final device state under a handler. -/
def run (h : Handler C R σ) : Program C R α → σ → Option α × σ
  | ret a, s => (some a, s)
  | call c k, s => run h (k (h c s).1) (h c s).2
  | stuck, s => (none, s)

/-- Every command of a run, in order. -/
def issued (h : Handler C R σ) : Program C R α → σ → List C
  | ret _, _ => []
  | call c k, s => c :: issued h (k (h c s).1) (h c s).2
  | stuck, _ => []

/-- The device state after a list of commands. -/
def replay (h : Handler C R σ) (cs : List C) (s : σ) : σ :=
  cs.foldl (fun s c => (h c s).2) s

@[simp] theorem replay_nil (h : Handler C R σ) (s : σ) : replay h [] s = s := rfl

@[simp] theorem replay_cons (h : Handler C R σ) (c : C) (cs : List C) (s : σ) :
    replay h (c :: cs) s = replay h cs (h c s).2 := rfl

theorem run_bind (h : Handler C R σ) (p : Program C R α) (f : α → Program C R β) (s : σ) :
    run h (p >>= f) s =
      match run h p s with
      | (some a, t) => run h (f a) t
      | (none, t) => (none, t) := by
  induction p generalizing s with
  | ret a => rfl
  | call c k ih => exact ih _ _
  | stuck => rfl

theorem issued_bind (h : Handler C R σ) (p : Program C R α) (f : α → Program C R β) (s : σ) :
    issued h (p >>= f) s =
      issued h p s ++
        match run h p s with
        | (some a, t) => issued h (f a) t
        | (none, _) => [] := by
  induction p generalizing s with
  | ret a => rfl
  | call c k ih => exact congrArg (List.cons c) (ih _ _)
  | stuck => rfl

/-- The final state is the replay of the commands that were issued. -/
theorem replay_issued (h : Handler C R σ) (p : Program C R α) (s : σ) :
    replay h (issued h p s) s = (run h p s).2 := by
  induction p generalizing s with
  | ret a => rfl
  | call c k ih => exact ih _ _
  | stuck => rfl

section Effects

variable (h : Handler C R σ) (effect : C → Bool)

/-- The commands of a run that may change the device. -/
def effects (p : Program C R α) (s : σ) : List C := (issued h p s).filter effect

/-- From `s` the program returns `a` in state `t` and its effects are `cs`. -/
structure Yields (s : σ) (p : Program C R α) (cs : List C) (a : α) (t : σ) : Prop where
  run_eq : run h p s = (some a, t)
  effects_eq : effects h effect p s = cs

variable {h effect}

theorem Yields.ret (s : σ) (a : α) : Yields h effect s (Program.ret a) [] a s :=
  ⟨rfl, rfl⟩

theorem Yields.bind {s t u : σ} {p : Program C R α} {f : α → Program C R β}
    {cs ds : List C} {a : α} {b : β} (hp : Yields h effect s p cs a t)
    (hf : Yields h effect t (f a) ds b u) :
    Yields h effect s (p >>= f) (cs ++ ds) b u := by
  constructor
  · rw [run_bind, hp.run_eq]
    exact hf.run_eq
  · rw [effects, issued_bind, hp.run_eq, List.filter_append]
    exact congrArg₂ (· ++ ·) hp.effects_eq hf.effects_eq

/-- A continuation that only observes adds nothing to the effects. -/
theorem Yields.bind_observing {s t u : σ} {p : Program C R α} {f : α → Program C R β}
    {cs : List C} {a : α} {b : β} (hp : Yields h effect s p cs a t)
    (hf : Yields h effect t (f a) [] b u) : Yields h effect s (p >>= f) cs b u :=
  List.append_nil cs ▸ hp.bind hf

/-- A first part that only observes adds nothing to the effects. -/
theorem Yields.observing_bind {s t u : σ} {p : Program C R α} {f : α → Program C R β}
    {ds : List C} {a : α} {b : β} (hp : Yields h effect s p [] a t)
    (hf : Yields h effect t (f a) ds b u) : Yields h effect s (p >>= f) ds b u :=
  hp.bind hf

/-- A command without effect leaves no trace in the effect list. -/
theorem Yields.observe {s t : σ} {c : C} {k : R c → Program C R α} {ds : List C} {b : α}
    (hc : effect c = false) (hk : Yields h effect (h c s).2 (k (h c s).1) ds b t) :
    Yields h effect s (call c k) ds b t := by
  refine ⟨hk.run_eq, ?_⟩
  rw [← hk.effects_eq]
  simp [effects, issued, hc]

/-- A command with an effect heads the effect list. -/
theorem Yields.act {s t : σ} {c : C} {k : R c → Program C R α} {ds : List C} {b : α}
    (hc : effect c = true) (hk : Yields h effect (h c s).2 (k (h c s).1) ds b t) :
    Yields h effect s (call c k) (c :: ds) b t := by
  refine ⟨hk.run_eq, ?_⟩
  rw [← hk.effects_eq]
  simp [effects, issued, hc]

theorem replay_filter (hpure : ∀ c s, effect c = false → (h c s).2 = s) (cs : List C) (s : σ) :
    replay h (cs.filter effect) s = replay h cs s := by
  induction cs generalizing s with
  | nil => rfl
  | cons c cs ih =>
      cases hc : effect c with
      | true => simp [hc, ih]
      | false => simp [hc, ih, hpure c s hc]

/-- When the other commands only observe, the effects alone rebuild the state. -/
theorem Yields.replay_eq (hpure : ∀ c s, effect c = false → (h c s).2 = s)
    {s t : σ} {p : Program C R α} {cs : List C} {a : α} (hp : Yields h effect s p cs a t) :
    replay h cs s = t := by
  rw [← hp.effects_eq, effects, replay_filter hpure, replay_issued, hp.run_eq]

end Effects

end Program

end ZeroEmbedded.Foundation
