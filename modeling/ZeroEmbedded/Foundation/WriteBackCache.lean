import Mathlib

/-!
# A write-back cache before a memory that devices share

The cache loads and evicts lines at any time, and an eviction writes a dirty line
back. A device reads and writes the memory behind the cache. Cleaning a line
writes it back, and invalidating a line drops it.
-/

namespace ZeroEmbedded.Foundation

/-- The memory, the copies of the cached lines, and which lines are cached and dirty. -/
structure WriteBackCache (A L β : Type*) where
  ram : A → β
  copy : A → β
  present : L → Bool
  dirty : L → Bool

namespace WriteBackCache

variable {A L β : Type*} [DecidableEq A] [DecidableEq L] (lineOf : A → L)

/-- What the processor reads. -/
def view (c : WriteBackCache A L β) (x : A) : β :=
  bif c.present (lineOf x) then c.copy x else c.ram x

/-- Load a line that is not cached. -/
def fill (c : WriteBackCache A L β) (l : L) : WriteBackCache A L β :=
  if c.present l then c
  else
    { c with
      copy := fun x => if lineOf x = l then c.ram x else c.copy x
      present := Function.update c.present l true
      dirty := Function.update c.dirty l false }

/-- Write a dirty line back and keep it. -/
def clean (c : WriteBackCache A L β) (l : L) : WriteBackCache A L β :=
  if c.present l && c.dirty l then
    { c with
      ram := fun x => if lineOf x = l then c.copy x else c.ram x
      dirty := Function.update c.dirty l false }
  else c

omit [DecidableEq A] in
/-- Drop a line. -/
def invalidate (c : WriteBackCache A L β) (l : L) : WriteBackCache A L β :=
  { c with present := Function.update c.present l false }

/-- A write of the processor goes to the cached line, or to memory. -/
def store (c : WriteBackCache A L β) (x : A) (b : β) : WriteBackCache A L β :=
  if c.present (lineOf x) then
    { c with
      copy := Function.update c.copy x b
      dirty := Function.update c.dirty (lineOf x) true }
  else { c with ram := Function.update c.ram x b }

/-- A write of a device. -/
def deviceStore (c : WriteBackCache A L β) (x : A) (b : β) : WriteBackCache A L β :=
  { c with ram := Function.update c.ram x b }

/-- What happens to a cache. -/
inductive Event (A L β : Type*)
  | fill (line : L)
  | evict (line : L)
  | store (x : A) (b : β)
  | deviceStore (x : A) (b : β)
  | clean (line : L)
  | invalidate (line : L)
  | invalidateAll

/-- The cache after an event. -/
def apply (c : WriteBackCache A L β) : Event A L β → WriteBackCache A L β
  | .fill line => c.fill lineOf line
  | .evict line => (c.clean lineOf line).invalidate line
  | .store x b => c.store lineOf x b
  | .deviceStore x b => c.deviceStore x b
  | .clean line => c.clean lineOf line
  | .invalidate line => c.invalidate line
  | .invalidateAll => { c with present := fun _ => false }

/-- The cache after some events. -/
def after (c : WriteBackCache A L β) (es : List (Event A L β)) : WriteBackCache A L β :=
  es.foldl (apply lineOf) c

/-- A cached line that is not dirty has the bytes of memory: no device wrote them. -/
def Current (c : WriteBackCache A L β) (x : A) : Prop :=
  c.present (lineOf x) = true → c.dirty (lineOf x) = false → c.copy x = c.ram x

/-- The processor and a device read the same at an address. -/
def InSync (c : WriteBackCache A L β) (x : A) : Prop :=
  c.present (lineOf x) = true → c.copy x = c.ram x

/-- No byte of the line of an address waits to be written back. -/
def Settled (c : WriteBackCache A L β) (x : A) : Prop :=
  c.present (lineOf x) = true → c.dirty (lineOf x) = false

/-- The event neither writes the byte nor drops its line without writing it back. -/
def Event.Spares (x : A) : Event A L β → Prop
  | .store y _ => y ≠ x
  | .deviceStore y _ => y ≠ x
  | .invalidate line => line ≠ lineOf x
  | .invalidateAll => False
  | _ => True

/-- The processor does not write to the line of the address. -/
def Event.Leaves (x : A) : Event A L β → Prop
  | .store y _ => lineOf y ≠ lineOf x
  | _ => True

/-- What a device has left at an address after the events. -/
def deviceValue (x : A) (b : β) (es : List (Event A L β)) : β :=
  es.foldl (fun b e => match e with
    | .deviceStore y b' => if y = x then b' else b
    | _ => b) b

variable {lineOf} {c : WriteBackCache A L β} {x : A} {l : L} {b : β} {e : Event A L β}
  {es : List (Event A L β)}

omit [DecidableEq A] [DecidableEq L] in
theorem view_eq_ram (h : c.InSync lineOf x) : c.view lineOf x = c.ram x := by
  rw [view]
  cases hpresent : c.present (lineOf x) with
  | true => exact h hpresent
  | false => rfl

omit [DecidableEq A] [DecidableEq L] in
theorem InSync.current (h : c.InSync lineOf x) : c.Current lineOf x :=
  fun hpresent _ => h hpresent

section Lines

omit [DecidableEq A]

theorem fill_view (h : c.Current lineOf x) :
    (c.fill lineOf l).Current lineOf x ∧ (c.fill lineOf l).view lineOf x = c.view lineOf x := by
  rw [fill]
  split
  · exact ⟨h, rfl⟩
  · next habsent =>
      rw [Current, view, view]
      dsimp only
      by_cases hline : lineOf x = l
      · subst hline
        rw [if_pos rfl, Function.update_self, Bool.eq_false_of_not_eq_true habsent]
        exact ⟨fun _ _ => rfl, rfl⟩
      · rw [if_neg hline, Function.update_of_ne hline, Function.update_of_ne hline]
        exact ⟨h, rfl⟩

theorem fill_inSync (h : c.InSync lineOf x) : (c.fill lineOf l).InSync lineOf x := by
  rw [fill]
  split
  · exact h
  · rw [InSync]
    dsimp only
    by_cases hline : lineOf x = l
    · rw [if_pos hline]
      exact fun _ => rfl
    · rw [if_neg hline, Function.update_of_ne hline]
      exact h

theorem clean_view (h : c.Current lineOf x) :
    (c.clean lineOf l).Current lineOf x ∧ (c.clean lineOf l).view lineOf x = c.view lineOf x ∧
      (lineOf x = l → (c.clean lineOf l).InSync lineOf x) := by
  rw [clean]
  split
  · next hdirty =>
    have hpresent := (Bool.and_eq_true_iff.mp hdirty).1
    rw [Current, InSync, view, view]
    dsimp only
    by_cases hline : lineOf x = l
    · subst hline
      rw [if_pos rfl]
      rw [hpresent]
      exact ⟨fun _ _ => rfl, rfl, fun _ _ => rfl⟩
    · rw [if_neg hline, Function.update_of_ne hline]
      exact ⟨h, rfl, fun heq => absurd heq hline⟩
  · next hnot =>
      refine ⟨h, rfl, fun hline hpresent => h hpresent ?_⟩
      rw [← hline, hpresent, Bool.true_and, Bool.not_eq_true] at hnot
      exact hnot

theorem clean_inSync (h : c.InSync lineOf x) : (c.clean lineOf l).InSync lineOf x := by
  rw [clean]
  split
  · rw [InSync]
    dsimp only
    split
    · exact fun _ => rfl
    · exact h
  · exact h

/-- An eviction shows what was in memory or what is written back. -/
theorem evict_view (h : c.Current lineOf x) :
    ((c.clean lineOf l).invalidate l).Current lineOf x ∧
      ((c.clean lineOf l).invalidate l).view lineOf x = c.view lineOf x := by
  obtain ⟨hcurrent, hview, hsync⟩ := clean_view (l := l) h
  by_cases hline : lineOf x = l
  · subst hline
    rw [Current, view, invalidate]
    dsimp only
    rw [Function.update_self, ← hview, view_eq_ram (hsync rfl)]
    exact ⟨fun hfalse => Bool.noConfusion hfalse, rfl⟩
  · rw [Current, ← hview, view, view, invalidate]
    dsimp only
    rw [Function.update_of_ne hline]
    exact ⟨hcurrent, rfl⟩

theorem invalidate_inSync (h : lineOf x ≠ l → c.InSync lineOf x) :
    (c.invalidate l).InSync lineOf x := by
  rw [InSync, invalidate]
  dsimp only
  by_cases hline : lineOf x = l
  · rw [hline, Function.update_self]
    exact fun hfalse => Bool.noConfusion hfalse
  · rw [Function.update_of_ne hline]
    exact h hline

end Lines

/-- An event that spares a byte keeps what the processor reads there. -/
theorem apply_spares (h : c.Current lineOf x) (he : e.Spares lineOf x) :
    (c.apply lineOf e).Current lineOf x ∧ (c.apply lineOf e).view lineOf x = c.view lineOf x ∧
      (c.InSync lineOf x ∨ e = .clean (lineOf x) → (c.apply lineOf e).InSync lineOf x) := by
  cases e with
  | fill line =>
      obtain ⟨hcurrent, hview⟩ := fill_view (l := line) h
      refine ⟨hcurrent, hview, fun hsync => fill_inSync (hsync.resolve_right nofun)⟩
  | evict line =>
      obtain ⟨hcurrent, hview⟩ := evict_view (l := line) h
      exact ⟨hcurrent, hview, fun hsync =>
        invalidate_inSync fun _ => clean_inSync (hsync.resolve_right nofun)⟩
  | clean line =>
      obtain ⟨hcurrent, hview, hsync⟩ := clean_view (l := line) h
      refine ⟨hcurrent, hview, fun hor => ?_⟩
      rcases hor with hin | heq
      · exact clean_inSync hin
      · exact hsync (Event.clean.inj heq).symm
  | store y b =>
      have hne : x ≠ y := Ne.symm he
      rw [apply, store, Current, InSync, InSync, view, view]
      split
      · dsimp only
        rw [Function.update_of_ne hne]
        refine ⟨fun hpresent hclean => h hpresent ?_, rfl, fun hsync => hsync.resolve_right nofun⟩
        by_cases hline : lineOf x = lineOf y
        · rw [hline, Function.update_self] at hclean
          cases hclean
        · rwa [Function.update_of_ne hline] at hclean
      · dsimp only
        rw [Function.update_of_ne hne]
        exact ⟨h, rfl, fun hsync => hsync.resolve_right nofun⟩
  | deviceStore y b =>
      have hne : x ≠ y := Ne.symm he
      rw [apply, deviceStore, Current, InSync, InSync, view, view]
      dsimp only
      rw [Function.update_of_ne hne]
      exact ⟨h, rfl, fun hsync => hsync.resolve_right nofun⟩
  | invalidate line =>
      have hne : lineOf x ≠ line := Ne.symm he
      rw [apply, invalidate, Current, InSync, InSync, view, view]
      dsimp only
      rw [Function.update_of_ne hne]
      exact ⟨h, rfl, fun hsync => hsync.resolve_right nofun⟩
  | invalidateAll => exact False.elim he

/-- After events that spare a byte and clean its line, memory holds what the processor wrote. -/
theorem after_spares (h : c.Current lineOf x) (hes : ∀ e ∈ es, e.Spares lineOf x) :
    (c.after lineOf es).view lineOf x = c.view lineOf x ∧
      (c.InSync lineOf x ∨ .clean (lineOf x) ∈ es → (c.after lineOf es).ram x = c.view lineOf x) := by
  suffices hsuffices : (c.after lineOf es).view lineOf x = c.view lineOf x ∧
      (c.InSync lineOf x ∨ .clean (lineOf x) ∈ es → (c.after lineOf es).InSync lineOf x) by
    refine ⟨hsuffices.1, fun hor => ?_⟩
    rw [← view_eq_ram (hsuffices.2 hor), hsuffices.1]
  induction es generalizing c with
  | nil => exact ⟨rfl, fun hor => hor.resolve_right (List.not_mem_nil)⟩
  | cons e rest ih =>
      obtain ⟨hcurrent, hview, hsync⟩ := apply_spares h (hes e List.mem_cons_self)
      obtain ⟨hrest, hfinal⟩ := ih hcurrent fun e he => hes e (List.mem_cons_of_mem _ he)
      refine ⟨hrest.trans hview, fun hor => hfinal ?_⟩
      rcases hor with hin | hmem
      · exact Or.inl (hsync (Or.inl hin))
      · rcases List.mem_cons.mp hmem with heq | hmem
        · exact Or.inl (hsync (Or.inr heq.symm))
        · exact Or.inr hmem

section Device

/-- Where no byte of a line waits to be written back, only a device changes memory there. -/
theorem apply_leaves (h : c.Settled lineOf x) (he : e.Leaves lineOf x) :
    (c.apply lineOf e).Settled lineOf x ∧
      (c.apply lineOf e).ram x = deviceValue x (c.ram x) [e] := by
  have hclean : ∀ line, (c.clean lineOf line).Settled lineOf x ∧
      (c.clean lineOf line).ram x = c.ram x := by
    intro line
    rw [clean]
    split
    · next hdirty =>
        obtain ⟨hpresent, hdirty⟩ := Bool.and_eq_true_iff.mp hdirty
        have hne : lineOf x ≠ line := by
          rintro rfl
          rw [h hpresent] at hdirty
          cases hdirty
        rw [Settled]
        dsimp only
        rw [Function.update_of_ne hne, if_neg hne]
        exact ⟨h, rfl⟩
    · exact ⟨h, rfl⟩
  have hdrop : ∀ (c' : WriteBackCache A L β) line, c'.Settled lineOf x →
      (c'.invalidate line).Settled lineOf x := by
    intro c' line hsettled
    rw [Settled, invalidate]
    dsimp only
    by_cases hline : lineOf x = line
    · rw [hline, Function.update_self]
      exact fun hfalse => Bool.noConfusion hfalse
    · rwa [Function.update_of_ne hline]
  cases e with
  | fill line =>
      rw [apply, fill]
      split
      · exact ⟨h, rfl⟩
      · rw [Settled]
        dsimp only
        refine ⟨?_, rfl⟩
        by_cases hline : lineOf x = line
        · rw [hline, Function.update_self, Function.update_self]
          exact fun _ => rfl
        · rwa [Function.update_of_ne hline, Function.update_of_ne hline]
  | evict line => exact ⟨hdrop _ line (hclean line).1, (hclean line).2⟩
  | clean line => exact hclean line
  | store y b =>
      have hne : lineOf x ≠ lineOf y := Ne.symm he
      rw [apply, store]
      split
      · rw [Settled]
        dsimp only
        rw [Function.update_of_ne hne]
        exact ⟨h, rfl⟩
      · refine ⟨h, ?_⟩
        dsimp only
        rw [Function.update_of_ne fun heq => hne (congrArg lineOf heq)]
        rfl
  | deviceStore y b =>
      refine ⟨h, ?_⟩
      rw [apply, deviceStore, deviceValue, List.foldl_cons, List.foldl_nil]
      dsimp only
      by_cases heq : y = x
      · rw [heq, Function.update_self, if_pos rfl]
      · rw [Function.update_of_ne (Ne.symm heq), if_neg heq]
  | invalidate line => exact ⟨hdrop c line h, rfl⟩
  | invalidateAll => exact ⟨fun hfalse => Bool.noConfusion hfalse, rfl⟩

/-- The events of a transfer leave in memory what the device has written. -/
theorem after_leaves (h : c.Settled lineOf x) (hes : ∀ e ∈ es, e.Leaves lineOf x) :
    (c.after lineOf es).Settled lineOf x ∧
      (c.after lineOf es).ram x = deviceValue x (c.ram x) es := by
  induction es generalizing c with
  | nil => exact ⟨h, rfl⟩
  | cons e rest ih =>
      obtain ⟨hsettled, hram⟩ := apply_leaves h (hes e List.mem_cons_self)
      obtain ⟨hlast, hvalue⟩ := ih hsettled fun e he => hes e (List.mem_cons_of_mem _ he)
      refine ⟨hlast, hvalue.trans ?_⟩
      rw [hram]
      rfl

/-- Invalidations alone show memory on their lines, also where a line was dirty. -/
theorem after_invalidates (c : WriteBackCache A L β) (x : A) (ls : List L) :
    (c.after lineOf (ls.map .invalidate)).view lineOf x =
      if lineOf x ∈ ls then c.ram x else c.view lineOf x := by
  induction ls generalizing c with
  | nil => rfl
  | cons l ls ih =>
      have hview : (c.invalidate l).view lineOf x =
          if lineOf x = l then c.ram x else c.view lineOf x := by
        rw [view, view, invalidate]
        dsimp only
        by_cases hline : lineOf x = l
        · rw [hline, Function.update_self, if_pos rfl, cond_false]
        · rw [Function.update_of_ne hline, if_neg hline]
      have hrest := ih (c.invalidate l)
      change (c.after lineOf (.invalidate l :: ls.map .invalidate)).view lineOf x = _
      rw [after, List.foldl_cons, ← after]
      refine hrest.trans ?_
      rw [hview]
      by_cases hmem : lineOf x ∈ ls
      · rw [if_pos hmem, if_pos (List.mem_cons_of_mem l hmem)]
        rfl
      · rw [if_neg hmem]
        by_cases hline : lineOf x = l
        · rw [if_pos hline, if_pos (List.mem_cons.mpr (Or.inl hline))]
        · rw [if_neg hline, if_neg fun hor => (List.mem_cons.mp hor).elim hline hmem]

/-- The event drops the line of the address. -/
def Event.Drops (lineOf : A → L) (x : A) : Event A L β → Prop
  | .invalidate line => line = lineOf x
  | .invalidateAll => True
  | _ => False

/-- An event that no device writes keeps the processor and memory in step, and an invalidation
gets them in step. -/
theorem apply_inSync (he : e.Leaves lineOf x) (hdevice : ∀ b, e ≠ .deviceStore x b)
    (h : c.InSync lineOf x ∨ e.Drops lineOf x) : (c.apply lineOf e).InSync lineOf x := by
  cases e with
  | fill line => exact fill_inSync (h.resolve_right id)
  | evict line => exact invalidate_inSync fun _ => clean_inSync (h.resolve_right id)
  | clean line => exact clean_inSync (h.resolve_right id)
  | store y b =>
      have hne : lineOf x ≠ lineOf y := Ne.symm he
      have hxy : x ≠ y := fun heq => hne (congrArg lineOf heq)
      rw [apply, store, InSync]
      split
      · dsimp only
        rw [Function.update_of_ne hxy]
        exact h.resolve_right id
      · dsimp only
        rw [Function.update_of_ne hxy]
        exact h.resolve_right id
  | deviceStore y b =>
      have hxy : x ≠ y := fun heq => hdevice b (by rw [heq])
      rw [apply, deviceStore, InSync]
      dsimp only
      rw [Function.update_of_ne hxy]
      exact h.resolve_right id
  | invalidate line =>
      exact invalidate_inSync fun hne => h.resolve_right fun heq => hne heq.symm
  | invalidateAll => exact fun hfalse => Bool.noConfusion hfalse

/-- After an invalidation of its line the processor reads at an address what was in memory. -/
theorem after_drops (h : c.Settled lineOf x) (hes : ∀ e ∈ es, e.Leaves lineOf x)
    (hdevice : ∀ e ∈ es, ∀ b, e ≠ .deviceStore x b)
    (hdrop : c.InSync lineOf x ∨ ∃ e ∈ es, e.Drops lineOf x) :
    (c.after lineOf es).view lineOf x = c.ram x := by
  induction es generalizing c with
  | nil => exact view_eq_ram (hdrop.resolve_right fun ⟨_, hmem, _⟩ => List.not_mem_nil hmem)
  | cons e rest ih =>
      have hleaves := hes e List.mem_cons_self
      have hquiet := hdevice e List.mem_cons_self
      obtain ⟨hsettled, hram⟩ := apply_leaves h hleaves
      have hsame : deviceValue x (c.ram x) [e] = c.ram x := by
        cases e with
        | deviceStore y b => exact if_neg fun heq => hquiet b (by rw [heq])
        | fill | evict | store | clean | invalidate | invalidateAll => rfl
      rw [← hsame, ← hram]
      refine ih hsettled (fun e he => hes e (List.mem_cons_of_mem _ he))
        (fun e he => hdevice e (List.mem_cons_of_mem _ he)) ?_
      rcases hdrop with hin | ⟨e', hmem, he'⟩
      · exact Or.inl (apply_inSync hleaves hquiet (Or.inl hin))
      · rcases List.mem_cons.mp hmem with rfl | hmem
        · exact Or.inl (apply_inSync hleaves hquiet (Or.inr he'))
        · exact Or.inr ⟨e', hmem, he'⟩

end Device

end WriteBackCache

end ZeroEmbedded.Foundation
