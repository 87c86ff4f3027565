import ZeroEmbedded.Foundation.ProgramLogic
import ZeroEmbedded.Storage.NvsImage

/-!
# A flash driver whose calls may fail

A schedule says for each driver call whether and how it fails. The calls that
do not fail go to an underlying device. `FlashContract` is what the store
relies on when a guard restricts the calls: every functional result about the
store holds for every device that meets the contract.
-/

namespace ZeroEmbedded

open Foundation

/-- How a driver call fails: its status, the buffer of a read, and how many bytes of a
write are programmed all the same. -/
structure DriverFault where
  status : FwStatus
  status_ne : status ≠ .ok
  buf : List UInt8
  programmed : Nat

/-- The flash, the faults of the calls to come and whether the last call was a read
that failed. -/
structure FaultyFlash where
  mem : Memory
  faults : List (Option DriverFault)
  readFailed : Bool

/-- The fault of the next call. -/
def FaultyFlash.next (d : FaultyFlash) : Option DriverFault := d.faults.head?.join

def FlashCall.isRead : FlashCall → Bool
  | .read _ _ => true
  | _ => false

/-- What a failing call returns. -/
def FlashCall.failReply : (c : FlashCall) → DriverFault → c.Reply
  | .read _ _, f => (f.status, f.buf)
  | .write _ _, f => f.status
  | .eraseSector _, f => f.status

/-- What a failing call leaves behind. -/
def FlashCall.failEffect (base : Handler FlashCall FlashCall.Reply Memory) :
    FlashCall → DriverFault → Memory → Memory
  | .write a data, f, m => (base (.write a (data.take f.programmed)) m).2
  | _, _, m => m

/-- The driver that fails as its schedule says and is the given device otherwise. -/
def faultyFlash (base : Handler FlashCall FlashCall.Reply Memory) :
    Handler FlashCall FlashCall.Reply FaultyFlash := fun c d =>
  match d.next with
  | some f => (c.failReply f, ⟨c.failEffect base f d.mem, d.faults.tail, c.isRead⟩)
  | none => ((base c d.mem).1, ⟨(base c d.mem).2, d.faults.tail, false⟩)

/-- The NOR device of the test driver: a byte that would set a cleared bit again ends
the write with an error. -/
def norFlash (sectorSize : Nat) : Handler FlashCall FlashCall.Reply Memory
  | .read a n, m => ((.ok, m.bytesAt a n), m)
  | .write a data, m =>
      (if (m.norProgram a data).1 = true then .ok else .errIo, (m.norProgram a data).2)
  | .eraseSector a, m => (.ok, m.erase a sectorSize)

theorem norFlash_of_accepts (S : Nat) {m : Memory} {a : Nat} {data : List UInt8}
    (h : m.Accepts a data) : norFlash S (.write a data) m = (.ok, m.program a data) := by
  simp only [norFlash, Memory.norProgram_of_accepts h]
  rfl

theorem accepts_of_norFlash {S : Nat} {m : Memory} {a : Nat} {data : List UInt8}
    (h : (norFlash S (.write a data) m).1 = FwStatus.ok) : m.Accepts a data := by
  refine Memory.accepts_of_norProgram ?_
  by_contra hfails
  have herr : (norFlash S (.write a data) m).1 = FwStatus.errIo := if_neg hfails
  rw [herr] at h
  cases h

namespace Nvs

/-- The range lies in the records of a bank or is the header of one. -/
def BankLayout.Inside (L : BankLayout) (a n : Nat) : Prop :=
  ∃ b, (L.addr b + sectorHdrSize ≤ a ∨ a = L.addr b ∧ n = sectorHdrSize) ∧
    a + n ≤ L.addr b + L.sectorSize

instance (L : BankLayout) (a n : Nat) : Decidable (L.Inside a n) :=
  decidable_of_iff
    (((L.addr 0 + sectorHdrSize ≤ a ∨ a = L.addr 0 ∧ n = sectorHdrSize) ∧
        a + n ≤ L.addr 0 + L.sectorSize) ∨
      ((L.addr 1 + sectorHdrSize ≤ a ∨ a = L.addr 1 ∧ n = sectorHdrSize) ∧
        a + n ≤ L.addr 1 + L.sectorSize)) <| by
    rw [BankLayout.Inside, Fin.exists_fin_two]

/-- The call reaches only bytes of the two banks and programs headers as a whole. -/
def BankLayout.Allows (L : BankLayout) : FlashCall → Prop
  | .read a n => ∃ b, L.addr b ≤ a ∧ a + n ≤ L.addr b + L.sectorSize
  | .write a data => L.Inside a data.length
  | .eraseSector a => ∃ b, a = L.addr b

/-- What is seen of the state of a driver: the flash, and whether the last call was a read
that failed. -/
structure FlashView (σ : Type) where
  mem : σ → Memory
  readFailed : σ → Bool

/-- What the store relies on: a call that succeeds does its work, a call that fails
changes at most the cells it was to program. The calls that the layout allows are safe. -/
structure FlashContract {σ : Type} (L : BankLayout) (V : FlashView σ)
    (h : Handler FlashCall FlashCall.Reply σ) (guard : FlashCall → σ → Prop)
    (safe : FlashCall → Prop) : Prop where
  allowed : ∀ c, L.Allows c → safe c
  read : ∀ {a n d}, guard (.read a n) d → ∃ st buf d', h (.read a n) d = ((st, buf), d') ∧
    V.mem d' = V.mem d ∧ (st = .ok → buf = (V.mem d).bytesAt a n) ∧
    (V.readFailed d' = true ↔ st ≠ .ok)
  write : ∀ {a data d}, guard (.write a data) d → ∃ st d', h (.write a data) d = (st, d') ∧
    (V.mem d' = V.mem d ∨ L.Inside a data.length) ∧
    (∀ x, ¬ (a ≤ x ∧ x < a + data.length) → V.mem d' x = V.mem d x) ∧
    (st = .ok → L.Inside a data.length ∧ (V.mem d).Accepts a data ∧
      V.mem d' = (V.mem d).program a data)
  erase : ∀ {a d}, guard (.eraseSector a) d → ∃ (st : FwStatus) (d' : σ),
    h (.eraseSector a) d = (st, d') ∧
    V.mem d' = if st = .ok then (V.mem d).erase a L.sectorSize else V.mem d

section Rules

variable {σ : Type} (h : Handler FlashCall FlashCall.Reply σ) (guard : FlashCall → σ → Prop)

/-- Under the guard no read of `n` bytes fails. -/
def ReadsSucceed (n : Nat) : Prop :=
  ∀ a d st buf d', guard (.read a n) d → h (.read a n) d = ((st, buf), d') → st = .ok

/-- Under the guard no erase fails. -/
def ErasesSucceed : Prop :=
  ∀ a d st d', guard (.eraseSector a) d → h (.eraseSector a) d = (st, d') → st = .ok

/-- Under the guard no program of erased cells fails. -/
def ProgramsSucceed (V : FlashView σ) : Prop :=
  ∀ a data d st d', guard (.write a data) d → (∀ i < data.length, V.mem d (a + i) = 0xFF) →
    h (.write a data) d = (st, d') → st = .ok

/-- Under the guard the bank at `a` is never erased right after a failed read. -/
def ErasesKnowingly (V : FlashView σ) (a : Nat) : Prop :=
  ∀ d d', guard (.eraseSector a) d → h (.eraseSector a) d = (.ok, d') → V.readFailed d = false

variable {h guard} {L : BankLayout} {V : FlashView σ} {safe : FlashCall → Prop} {α : Type}
  {post : α → σ → Prop} {d : σ}

theorem FlashContract.flashRead (hD : FlashContract L V h guard safe) {a n : Nat}
    {k : FwStatus × List UInt8 → FlashM α} (hsafe : safe (.read a n))
    (hfail : ∀ st buf d', st ≠ .ok → V.mem d' = V.mem d → V.readFailed d' = true →
      ¬ ReadsSucceed h guard n → Program.Ensures h guard safe post (k (st, buf)) d')
    (hok : ∀ d', V.mem d' = V.mem d → V.readFailed d' = false →
      Program.Ensures h guard safe post (k (.ok, (V.mem d).bytesAt a n)) d') :
    Program.Ensures h guard safe post (flashRead a n >>= k) d := by
  refine ⟨hsafe, fun hguard => ?_⟩
  obtain ⟨st, buf, d', hcall, hmem, hbuf, hfailed⟩ := hD.read hguard
  change Program.Ensures h guard safe post (k (h (.read a n) d).1) (h (.read a n) d).2
  rw [hcall]
  by_cases hst : st = .ok
  · subst hst
    rw [hbuf rfl]
    refine hok d' hmem ?_
    rw [← Bool.not_eq_true, hfailed]
    exact fun hne => hne rfl
  · exact hfail st buf d' hst hmem (hfailed.mpr hst) fun hread =>
      hst (hread a d st buf d' hguard hcall)

theorem FlashContract.flashWrite (hD : FlashContract L V h guard safe) {a : Nat}
    {data : List UInt8} {k : FwStatus → FlashM α} (hsafe : safe (.write a data))
    (hfail : ∀ st d', st ≠ .ok → (V.mem d' = V.mem d ∨ L.Inside a data.length) →
      (∀ x, ¬ (a ≤ x ∧ x < a + data.length) → V.mem d' x = V.mem d x) →
      (ProgramsSucceed h guard V → ¬ ∀ i < data.length, V.mem d (a + i) = 0xFF) →
      Program.Ensures h guard safe post (k st) d')
    (hok : ∀ d', L.Inside a data.length → (V.mem d).Accepts a data →
      V.mem d' = (V.mem d).program a data → Program.Ensures h guard safe post (k .ok) d') :
    Program.Ensures h guard safe post (flashWrite a data >>= k) d := by
  refine ⟨hsafe, fun hguard => ?_⟩
  obtain ⟨st, d', hcall, hinside, hout, hdone⟩ := hD.write hguard
  change Program.Ensures h guard safe post (k (h (.write a data) d).1) (h (.write a data) d).2
  rw [hcall]
  by_cases hst : st = .ok
  · obtain ⟨hin, haccepts, hmem⟩ := hdone hst
    subst hst
    exact hok d' hin haccepts hmem
  · exact hfail st d' hst hinside hout fun hprogram herased =>
      hst (hprogram a data d st d' hguard herased hcall)

theorem FlashContract.flashErase (hD : FlashContract L V h guard safe) {a : Nat}
    {k : FwStatus → FlashM α} (hsafe : safe (.eraseSector a))
    (hfail : ∀ st d', st ≠ .ok → V.mem d' = V.mem d → ¬ ErasesSucceed h guard →
      Program.Ensures h guard safe post (k st) d')
    (hok : ∀ d', V.mem d' = (V.mem d).erase a L.sectorSize →
      (ErasesKnowingly h guard V a → V.readFailed d = false) →
      Program.Ensures h guard safe post (k .ok) d') :
    Program.Ensures h guard safe post (flashErase a >>= k) d := by
  refine ⟨hsafe, fun hguard => ?_⟩
  obtain ⟨st, d', hcall, hmem⟩ := hD.erase hguard
  change Program.Ensures h guard safe post (k (h (.eraseSector a) d).1) (h (.eraseSector a) d).2
  rw [hcall]
  by_cases hst : st = .ok
  · subst hst
    rw [if_pos rfl] at hmem
    exact hok d' hmem fun hknow => hknow d d' hguard hcall
  · rw [if_neg hst] at hmem
    exact hfail st d' hst hmem fun herase => hst (herase a d st d' hguard hcall)

end Rules

end Nvs

end ZeroEmbedded
