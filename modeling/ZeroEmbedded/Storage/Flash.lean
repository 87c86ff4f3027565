import ZeroEmbedded.Types
import ZeroEmbedded.Foundation.DeviceProgram
import ZeroEmbedded.Foundation.ErasableMemory

/-!
# The flash driver interface

The three callbacks of `fw_flash_driver_t` are commands, so a storage function
is a program over them. `idealFlash` is the NOR device whose calls never fail.
-/

namespace ZeroEmbedded

open Foundation

/-- A call through `fw_flash_driver_t`. -/
inductive FlashCall
  | read (addr len : Nat)
  | write (addr : Nat) (data : List UInt8)
  | eraseSector (sectorAddr : Nat)
  deriving DecidableEq, Repr

/-- What a call gives back: a status, and for a read the buffer it filled. -/
def FlashCall.Reply : FlashCall → Type
  | .read _ _ => FwStatus × List UInt8
  | .write _ _ => FwStatus
  | .eraseSector _ => FwStatus

/-- The calls that may change the flash. -/
def FlashCall.changes : FlashCall → Bool
  | .read _ _ => false
  | .write _ _ => true
  | .eraseSector _ => true

/-- A storage function: a program over flash calls. -/
abbrev FlashM := Program FlashCall FlashCall.Reply

/-- `fw_flash_driver_t` without its callbacks. -/
structure FwFlashDriver where
  sectorSize : Nat

/-- Call the `read` callback. -/
def flashRead (addr len : Nat) : FlashM (FwStatus × List UInt8) :=
  Program.request (FlashCall.read addr len)

/-- Call the `write` callback. -/
def flashWrite (addr : Nat) (data : List UInt8) : FlashM FwStatus :=
  Program.request (FlashCall.write addr data)

/-- Call the `erase_sector` callback. -/
def flashErase (sectorAddr : Nat) : FlashM FwStatus :=
  Program.request (FlashCall.eraseSector sectorAddr)

section Run

variable {σ α : Type} (D : Handler FlashCall FlashCall.Reply σ) (d : σ)

theorem run_flashRead (a n : Nat) (k : FwStatus × List UInt8 → FlashM α) :
    (flashRead a n >>= k).run D d = (k (D (.read a n) d).1).run D (D (.read a n) d).2 := rfl

end Run

/-- The NOR device that never fails: reads return the stored bytes, writes
program them, an erase sets the sector to `0xFF`. -/
def idealFlash (sectorSize : Nat) : Handler FlashCall FlashCall.Reply Memory
  | .read a n, m => ((.ok, m.bytesAt a n), m)
  | .write a data, m => (.ok, m.program a data)
  | .eraseSector a, m => (.ok, m.erase a sectorSize)

theorem idealFlash_run_read {α : Type} (S a n : Nat) (k : FwStatus × List UInt8 → FlashM α)
    (m : Memory) : (flashRead a n >>= k).run (idealFlash S) m =
      (k (.ok, m.bytesAt a n)).run (idealFlash S) m := rfl

/-- On the ideal device the program returns `a` in memory `m'` after the changes `cs`. -/
abbrev FlashYields (sectorSize : Nat) {α : Type} (m : Memory) (p : FlashM α)
    (cs : List FlashCall) (a : α) (m' : Memory) : Prop :=
  Program.Yields (idealFlash sectorSize) FlashCall.changes m p cs a m'

/-- The memory after a list of calls on the ideal device. -/
abbrev flashReplay (sectorSize : Nat) (cs : List FlashCall) (m : Memory) : Memory :=
  Program.replay (idealFlash sectorSize) cs m

/-- Write calls that program chunks one behind the other. -/
def writesFrom (a : Nat) : List (List UInt8) → List FlashCall
  | [] => []
  | c :: cs => .write a c :: writesFrom (a + c.length) cs

@[simp] theorem writesFrom_nil (a : Nat) : writesFrom a [] = [] := rfl

@[simp] theorem writesFrom_cons (a : Nat) (c : List UInt8) (cs : List (List UInt8)) :
    writesFrom a (c :: cs) = .write a c :: writesFrom (a + c.length) cs := rfl

@[simp] theorem writesFrom_length (a : Nat) (cs : List (List UInt8)) :
    (writesFrom a cs).length = cs.length := by
  induction cs generalizing a with
  | nil => rfl
  | cons c cs ih => simp [ih]

theorem writesFrom_append (a : Nat) (cs ds : List (List UInt8)) :
    writesFrom a (cs ++ ds) = writesFrom a cs ++ writesFrom (a + cs.flatten.length) ds := by
  induction cs generalizing a with
  | nil => simp
  | cons c cs ih => simp [ih, Nat.add_assoc]

theorem writesFrom_take (a : Nat) (cs : List (List UInt8)) (k : Nat) :
    (writesFrom a cs).take k = writesFrom a (cs.take k) := by
  induction cs generalizing a k with
  | nil => simp
  | cons c cs ih =>
      cases k with
      | zero => simp
      | succ k => simp [ih]

/-- Replaying the write calls programs the chunks. -/
@[simp] theorem flashReplay_writesFrom (S a : Nat) (cs : List (List UInt8)) (m : Memory) :
    flashReplay S (writesFrom a cs) m = m.programAll a cs := by
  induction cs generalizing m a with
  | nil => rfl
  | cons c cs ih => exact ih _ _

namespace FlashYields

variable {S : Nat} {α : Type} {m m' : Memory} {cs : List FlashCall} {b : α}

theorem read {a n : Nat} {k : FwStatus × List UInt8 → FlashM α}
    (h : FlashYields S m (k (.ok, m.bytesAt a n)) cs b m') :
    FlashYields S m (flashRead a n >>= k) cs b m' :=
  Program.Yields.observe (c := FlashCall.read a n) rfl h

theorem write {a : Nat} {data : List UInt8} {k : FwStatus → FlashM α}
    (h : FlashYields S (m.program a data) (k .ok) cs b m') :
    FlashYields S m (flashWrite a data >>= k) (.write a data :: cs) b m' :=
  Program.Yields.act (c := FlashCall.write a data) rfl h

theorem erase {a : Nat} {k : FwStatus → FlashM α}
    (h : FlashYields S (m.erase a S) (k .ok) cs b m') :
    FlashYields S m (flashErase a >>= k) (.eraseSector a :: cs) b m' :=
  Program.Yields.act (c := FlashCall.eraseSector a) rfl h

/-- A write as the last call. -/
theorem lastWrite (a : Nat) (data : List UInt8) :
    FlashYields S m (flashWrite a data) [.write a data] .ok (m.program a data) :=
  Program.Yields.act (c := FlashCall.write a data) rfl (Program.Yields.ret _ _)

/-- The final memory is the replay of the changes. -/
theorem replay_eq {p : FlashM α} (h : FlashYields S m p cs b m') :
    flashReplay S cs m = m' := by
  refine Program.Yields.replay_eq ?_ h
  intro c s hc
  cases c with
  | read a n => rfl
  | write a data => cases hc
  | eraseSector a => cases hc

end FlashYields

end ZeroEmbedded
