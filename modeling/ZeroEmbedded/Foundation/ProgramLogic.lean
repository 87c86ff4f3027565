import ZeroEmbedded.Foundation.DeviceProgram

/-!
# Postconditions of programs on an unreliable device

A guard says which commands the device may see in which states. `Guarded` says
that a run keeps to the guard. `Ensures` asks that every command is safe and,
as long as the guard allows the commands, that the program returns with a
postcondition. A proof about a program never mentions what the device does when
the guard is broken. `Returns` is about the value alone, whatever the device
replies.
-/

namespace ZeroEmbedded.Foundation.Program

variable {C : Type} {R : C → Type} {σ α β : Type}

section Logic

variable (h : Handler C R σ) (guard : C → σ → Prop) (safe : C → Prop)

/-- Every command of the run is issued in a state that the guard allows. -/
def Guarded : Program C R α → σ → Prop
  | ret _, _ => True
  | call c k, s => guard c s ∧ Guarded (k (h c s).1) (h c s).2
  | stuck, _ => True

/-- As long as the guard allows its commands, the program issues safe commands and goes on to
return with `post`. -/
def Ensures (post : α → σ → Prop) : Program C R α → σ → Prop
  | ret a, s => post a s
  | call c k, s => safe c ∧ (guard c s → Ensures post (k (h c s).1) (h c s).2)
  | stuck, _ => False

/-- Whatever the device replies, a value that the program returns has the property. -/
def Returns (post : α → Prop) : Program C R α → Prop
  | ret a => post a
  | call _ k => ∀ r, Returns post (k r)
  | stuck => True

instance Guarded.decidable [hd : ∀ c s, Decidable (guard c s)] :
    (p : Program C R α) → (s : σ) → Decidable (Guarded h guard p s)
  | ret _, _ => .isTrue trivial
  | call c k, s =>
      @instDecidableAnd _ _ (hd c s) (Guarded.decidable (k (h c s).1) (h c s).2)
  | stuck, _ => .isTrue trivial

end Logic

variable {h : Handler C R σ} {guard : C → σ → Prop} {safe : C → Prop}

/-- A guarded run of a program returns with its postcondition. -/
theorem Ensures.run {post : α → σ → Prop} {p : Program C R α} {s : σ}
    (hp : Ensures h guard safe post p s) (hg : Guarded h guard p s) :
    ∃ a t, run h p s = (some a, t) ∧ post a t := by
  induction p generalizing s with
  | ret a => exact ⟨a, s, rfl, hp⟩
  | call c k ih => exact ih _ (hp.2 hg.1) hg.2
  | stuck => exact hp.elim

/-- Where the guard allows every safe command in the states that the device keeps to, it allows
the whole run. -/
theorem Ensures.guarded_of_invariant {inv : σ → Prop} (hinv : ∀ c s, inv s → inv (h c s).2)
    (hsafe : ∀ c s, safe c → inv s → guard c s) {post : α → σ → Prop} {p : Program C R α} {s : σ}
    (hp : Ensures h guard safe post p s) (hs : inv s) : Guarded h guard p s := by
  induction p generalizing s with
  | ret a => trivial
  | call c k ih =>
      have hguard := hsafe c s hp.1 hs
      exact ⟨hguard, ih _ (hp.2 hguard) (hinv c s hs)⟩
  | stuck => trivial

/-- Where the guard allows every safe command, it allows the whole run. -/
theorem Ensures.guarded {post : α → σ → Prop} {p : Program C R α} {s : σ}
    (hp : Ensures h guard safe post p s) (hsafe : ∀ c s, safe c → guard c s) :
    Guarded h guard p s :=
  hp.guarded_of_invariant (fun _ _ (_ : True) => trivial) (fun c s hc _ => hsafe c s hc) trivial

/-- A guard may use what every command of the device preserves. -/
theorem Guarded.and_invariant {inv : σ → Prop} (hinv : ∀ c s, inv s → inv (h c s).2)
    {p : Program C R α} {s : σ} (hp : Guarded h guard p s) (hs : inv s) :
    Guarded h (fun c s => guard c s ∧ inv s) p s := by
  induction p generalizing s with
  | ret a => trivial
  | call c k ih => exact ⟨⟨hp.1, hs⟩, ih _ hp.2 (hinv c s hs)⟩
  | stuck => trivial

theorem Ensures.ret {post : α → σ → Prop} {a : α} {s : σ} (hpost : post a s) :
    Ensures h guard safe post (Program.ret a) s := hpost

theorem Ensures.mono {post post' : α → σ → Prop} (hpost : ∀ a t, post a t → post' a t)
    {p : Program C R α} {s : σ} (hp : Ensures h guard safe post p s) :
    Ensures h guard safe post' p s := by
  induction p generalizing s with
  | ret a => exact hpost a s hp
  | call c k ih => exact ⟨hp.1, fun hc => ih _ (hp.2 hc)⟩
  | stuck => exact hp.elim

/-- The continuation starts from the postcondition of the first part. -/
theorem Ensures.bind {mid : α → σ → Prop} {post : β → σ → Prop} {p : Program C R α}
    {f : α → Program C R β} {s : σ} (hp : Ensures h guard safe mid p s)
    (hf : ∀ a t, mid a t → Ensures h guard safe post (f a) t) :
    Ensures h guard safe post (p >>= f) s := by
  induction p generalizing s with
  | ret a => exact hf a s hp
  | call c k ih => exact ⟨hp.1, fun hc => ih _ (hp.2 hc)⟩
  | stuck => exact hp.elim

theorem Returns.run {post : α → Prop} {p : Program C R α} (hp : p.Returns post)
    {h : Handler C R σ} {s t : σ} {a : α} (hrun : p.run h s = (some a, t)) : post a := by
  induction p generalizing s with
  | ret b =>
      cases hrun
      exact hp
  | call c k ih => exact ih _ (hp _) hrun
  | stuck => cases hrun

theorem Returns.ret {post : α → Prop} {a : α} (hpost : post a) :
    (Program.ret a : Program C R α).Returns post := hpost

theorem Returns.bind {mid : α → Prop} {post : β → Prop} {p : Program C R α}
    {f : α → Program C R β} (hp : p.Returns mid) (hf : ∀ a, mid a → (f a).Returns post) :
    (p >>= f).Returns post := by
  induction p with
  | ret a => exact hf a hp
  | call c k ih => exact fun r => ih r (hp r)
  | stuck => trivial

theorem returns_true (p : Program C R α) : p.Returns fun _ => True := by
  induction p with
  | ret a => trivial
  | call c k ih => exact ih
  | stuck => trivial

/-- Nothing is used of the first part. -/
theorem Returns.after {post : β → Prop} (p : Program C R α) {f : α → Program C R β}
    (hf : ∀ a, (f a).Returns post) : (p >>= f).Returns post :=
  (returns_true p).bind fun a _ => hf a

/-- The reply to a command may be anything. -/
theorem Returns.request {post : β → Prop} {c : C} {k : R c → Program C R β}
    (hk : ∀ r, (k r).Returns post) : (request c >>= k).Returns post := hk

end ZeroEmbedded.Foundation.Program
