import ZeroEmbedded.Storage.FaultyFlash

/-!
# Programs on NOR flash

The NOR device of the test driver does what the ideal device does as long as
every program finds cells that accept it. So a run on NOR flash is the run on
the ideal device whenever the changes of the latter are taken one after the
other.
-/

namespace ZeroEmbedded

open Foundation

/-- Every program of the list finds cells that accept it when its turn comes. -/
def Takes (sectorSize : Nat) : List FlashCall → Memory → Prop
  | [], _ => True
  | .read _ _ :: cs, m => Takes sectorSize cs m
  | .write a data :: cs, m => m.Accepts a data ∧ Takes sectorSize cs (m.program a data)
  | .eraseSector a :: cs, m => Takes sectorSize cs (m.erase a sectorSize)

section Takes

variable {S : Nat} {m : Memory}

@[simp] theorem takes_nil : Takes S [] m := trivial

theorem takes_append {cs ds : List FlashCall} :
    Takes S (cs ++ ds) m ↔ Takes S cs m ∧ Takes S ds (flashReplay S cs m) := by
  induction cs generalizing m with
  | nil => exact (iff_of_eq (true_and _)).symm
  | cons c cs ih =>
      cases c with
      | read a n => exact ih
      | write a data => exact (and_congr_right fun _ => ih).trans and_assoc.symm
      | eraseSector a => exact ih

/-- Chunks are taken one behind the other when the cells accept them all. -/
theorem takes_writesFrom {a : Nat} {chunks : List (List UInt8)} :
    Takes S (writesFrom a chunks) m ↔ m.Accepts a chunks.flatten := by
  induction chunks generalizing a m with
  | nil => simp
  | cons c cs ih =>
      have hbehind : (m.program a c).Accepts (a + c.length) cs.flatten ↔
          m.Accepts (a + c.length) cs.flatten := by
        have hsame : ∀ x, a + c.length ≤ x → x < a + c.length + cs.flatten.length →
            m.program a c x = m x := fun x hl _ => Memory.program_of_outside (Or.inr hl)
        constructor
        · exact fun h => h.congr fun x hl hr => (hsame x hl hr).symm
        · exact fun h => h.congr hsame
      rw [List.flatten_cons, Memory.accepts_append, ← hbehind, ← ih]
      rfl

/-- A program whose changes are taken runs on NOR flash as on the ideal device. -/
theorem FlashYields.norFlash {α : Type} {p : FlashM α} {cs : List FlashCall} {b : α} {m' : Memory}
    (h : FlashYields S m p cs b m') (htakes : Takes S cs m) :
    p.run (norFlash S) m = (some b, m') := by
  induction p generalizing m cs with
  | ret a => exact h.run_eq
  | call c k ih =>
      cases c with
      | read a n => exact ih _ ⟨h.run_eq, h.effects_eq⟩ htakes
      | write a data =>
          rw [← h.effects_eq] at htakes
          obtain ⟨haccepts, hrest⟩ := htakes
          change (k (ZeroEmbedded.norFlash S (.write a data) m).1).run _
            (ZeroEmbedded.norFlash S (.write a data) m).2 = _
          rw [norFlash_of_accepts S haccepts]
          exact ih _ ⟨h.run_eq, rfl⟩ hrest
      | eraseSector a =>
          rw [← h.effects_eq] at htakes
          exact ih _ ⟨h.run_eq, rfl⟩ htakes
  | stuck => cases h.run_eq

end Takes

/-- A driver without a fault in its schedule is the device. -/
theorem run_faultyFlash_healthy (base : Handler FlashCall FlashCall.Reply Memory) {α : Type}
    (p : FlashM α) (m : Memory) (readFailed : Bool) :
    (p.run (faultyFlash base) ⟨m, [], readFailed⟩).1 = (p.run base m).1 ∧
      (p.run (faultyFlash base) ⟨m, [], readFailed⟩).2.mem = (p.run base m).2 := by
  induction p generalizing m readFailed with
  | ret a => exact ⟨rfl, rfl⟩
  | call c k ih => exact ih _ _ _
  | stuck => exact ⟨rfl, rfl⟩

end ZeroEmbedded
