import ZeroEmbedded.Storage.NvsFaultyMount
import ZeroEmbedded.Storage.NvsRun

/-!
# The bytes that the store reaches

The lengths of the records come from the flash. Whatever they are, an instance
that `fw_nvs_init` has mounted reads, programs and erases inside of its banks.
-/

namespace ZeroEmbedded.Nvs

open Foundation

/-- A NOR driver whose reads and erases do not fail. A program that succeeds has stored its
bytes, one that fails may have changed the cells it was to program, and erased cells take any
program. -/
structure ReliableDriver {σ : Type} (L : BankLayout) (mem : σ → Memory)
    (D : Handler FlashCall FlashCall.Reply σ) : Prop where
  read : ∀ a n d, ∃ d', D (.read a n) d = ((.ok, (mem d).bytesAt a n), d') ∧ mem d' = mem d
  write : ∀ a data d, ∃ st d', D (.write a data) d = (st, d') ∧
    (∀ x, ¬ (a ≤ x ∧ x < a + data.length) → mem d' x = mem d x) ∧
    (st = .ok → mem d' = (mem d).program a data ∧ (mem d').bytesAt a data.length = data) ∧
    ((∀ i < data.length, mem d (a + i) = 0xFF) → st = .ok)
  erase : ∀ a d, ∃ d', D (.eraseSector a) d = (.ok, d') ∧ mem d' = (mem d).erase a L.sectorSize

section Calls

variable {σ : Type} {L : BankLayout} {V : FlashView σ} {h : Handler FlashCall FlashCall.Reply σ}
  {guard : FlashCall → σ → Prop} {safe : FlashCall → Prop} {d : σ} {nvs : FwNvs}
  {log : List NvsRecord}

/-- The flash holds a log that the instance counts on. -/
def IsRunning (L : BankLayout) (nvs : FwNvs) (m : Memory) : Prop := ∃ log, Running L nvs m log

theorem IsRunning.writeOffset_le {m : Memory} (hr : IsRunning L nvs m) :
    sectorHdrSize ≤ nvs.writeOffset ∧ nvs.writeOffset ≤ L.sectorSize := by
  obtain ⟨log, hr⟩ := hr
  rw [hr.writeOffset_eq]
  exact ⟨Nat.le_add_right _ _, hr.bank.fits⟩

end Calls

section Driver

variable {σ : Type} {L : BankLayout} {mem : σ → Memory} {D : Handler FlashCall FlashCall.Reply σ}

/-- A reliable driver meets the contract for the calls that the layout allows. -/
theorem ReliableDriver.contract (hD : ReliableDriver L mem D) :
    FlashContract L ⟨mem, fun _ => false⟩ D (fun c _ => L.Allows c) L.Allows where
  allowed := fun _ hc => hc
  read := by
    intro a n d _
    obtain ⟨d', hcall, hmem⟩ := hD.read a n d
    exact ⟨.ok, _, d', hcall, hmem, fun _ => rfl, by simp⟩
  write := by
    intro a data d hinside
    obtain ⟨st, d', hcall, hout, hdone, _⟩ := hD.write a data d
    refine ⟨st, d', hcall, Or.inr hinside, hout, fun hst => ?_⟩
    obtain ⟨hmem, hbytes⟩ := hdone hst
    exact ⟨hinside, Memory.accepts_of_bytesAt_program (hmem ▸ hbytes), hmem⟩
  erase := by
    intro a d _
    obtain ⟨d', hcall, hmem⟩ := hD.erase a d
    exact ⟨.ok, d', hcall, hmem⟩

end Driver

end ZeroEmbedded.Nvs
