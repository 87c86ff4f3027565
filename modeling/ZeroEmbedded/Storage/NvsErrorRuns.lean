import ZeroEmbedded.Storage.NvsFaultyMount
import ZeroEmbedded.Storage.NvsCapacity

/-!
# Runs of a store whose driver returns errors

A call of a run comes with a schedule of driver calls that fail and leave the
flash as it was. Callers go on after an error. As long as the running instance
and the flash do not come apart, every key keeps its last acknowledged value or
one of a later write that failed.

## Implementation notes

`fw_nvs_init` that fails leaves the caller with the instance it had.
-/

namespace ZeroEmbedded.Nvs

open Foundation

/-- The driver calls of one call of a run that fail. -/
abbrev Schedule := List (Option DriverFault)

/-- A driver call that fails leaves the flash as it was. -/
def Unchanging (faults : Schedule) : Prop := ∀ f, some f ∈ faults → f.programmed = 0

/-- The flash and the schedule as a call meets them. -/
def NvsSystem.driver (s : NvsSystem) (faults : Schedule) : FaultyFlash := ⟨s.flash, faults, false⟩

/-- The instance that the caller goes on with. -/
def NvsSystem.resume (s : NvsSystem) (op : NvsOp) (reply : NvsReply) (nvs : FwNvs) : FwNvs :=
  match op with
  | .remount _ => if reply = .status .ok then nvs else s.nvs
  | _ => nvs

/-- One call on a driver that fails as the schedule says. -/
def NvsSystem.faultyStep (T : Target) (L : BankLayout) (s : NvsSystem) (op : NvsOp)
    (faults : Schedule) : Option (NvsReply × NvsSystem) :=
  match (op.program T L s.nvs).run (faultyFlash (idealFlash L.sectorSize)) (s.driver faults) with
  | (some (reply, nvs), d) => some (reply, ⟨s.resume op reply nvs, d.mem⟩)
  | (none, _) => none

/-- A run with its schedules, one call after the other. -/
def NvsSystem.faultyRun (T : Target) (L : BankLayout) (s : NvsSystem) :
    List (NvsOp × Schedule) → Option (NvsTrace × NvsSystem)
  | [] => some ([], s)
  | (op, faults) :: calls => do
      let (reply, t) ← s.faultyStep T L op faults
      let (trace, u) ← t.faultyRun T L calls
      return ((op, reply) :: trace, u)

/-- How one call changes the values that a read of the key may return; `none` promises
nothing. -/
def acceptableStep (key : UInt16) (values : Option (List (List UInt8))) :
    NvsOp × NvsReply → Option (List (List UInt8))
  | (.write k data, reply) =>
      if k = key then
        if reply = .status .ok then some [data] else values.map fun vs => vs ++ [data]
      else values
  | (.delete k, _) => if k = key then none else values
  | _ => values

/-- The value of the last write of the key that returned `FW_OK` and those of later writes that
returned an error, unless a delete of the key was attempted since. -/
def acceptable (key : UInt16) (trace : NvsTrace) : Option (List (List UInt8)) :=
  trace.foldl (acceptableStep key) none

def NvsOp.isRemount : NvsOp → Bool
  | .remount _ => true
  | _ => false

/-- What the driver calls of one call keep to. A program that is carried out lies in the records
of a bank or is a whole header, and clears bits only; the running bank is not erased right after a
read that failed; and a mount reads every record header. -/
def spares (L : BankLayout) (mounting : Bool) (bank : Nat) : FlashCall → FaultyFlash → Prop
  | .read _ n, d => mounting = true → n = recordHdrSize → d.next.isNone = true
  | .write a data, d => d.next.isNone = true → L.Inside a data.length ∧ d.mem.Accepts a data
  | .eraseSector a, d => d.next.isNone = true → a = bank → d.readFailed = false

instance (L : BankLayout) (mounting : Bool) (bank : Nat) (c : FlashCall) (d : FaultyFlash) :
    Decidable (spares L mounting bank c d) := by
  cases c <;> unfold spares <;> infer_instance

/-- What a call finds: a value has a 16-bit length or is turned down, and at a remount the mount
takes the bank of the running instance and its scan stops where the instance stands. -/
def NvsSystem.Finds (T : Target) (L : BankLayout) (s : NvsSystem) : NvsOp → Prop
  | .write _ data => data.length < 2 ^ 16 ∨ WriteRefused T L data
  | .remount _ => Chosen L s.flash s.nvs.activeBank ∧
      ScanStops s.flash (L.addr s.nvs.activeBank) L.sectorSize s.nvs.writeOffset
  | _ => True

/-- A call does not reach what lets instance and flash come apart. -/
def NvsSystem.Coherent (T : Target) (L : BankLayout) (s : NvsSystem) (op : NvsOp)
    (faults : Schedule) : Prop :=
  s.Finds T L op ∧ Program.Guarded (faultyFlash (idealFlash L.sectorSize))
    (spares L op.isRemount (L.addr s.nvs.activeBank)) (op.program T L s.nvs) (s.driver faults)

/-- Every call of the run is coherent. -/
def NvsSystem.CoherentRun (T : Target) (L : BankLayout) (s : NvsSystem) :
    List (NvsOp × Schedule) → Prop
  | [] => True
  | (op, faults) :: calls => s.Coherent T L op faults ∧
      match s.faultyStep T L op faults with
      | some (_, t) => t.CoherentRun T L calls
      | none => True

section Decide

variable (T : Target) (L : BankLayout)

instance (s : NvsSystem) : (op : NvsOp) → Decidable (s.Finds T L op)
  | .write .. => inferInstanceAs (Decidable (_ ∨ _))
  | .remount .. => inferInstanceAs (Decidable (_ ∧ _))
  | .read .. | .delete .. => inferInstanceAs (Decidable True)

instance (s : NvsSystem) (op : NvsOp) (faults : Schedule) :
    Decidable (s.Coherent T L op faults) :=
  inferInstanceAs (Decidable (_ ∧ _))

instance NvsSystem.decidableCoherentRun (s : NvsSystem) :
    (calls : List (NvsOp × Schedule)) → Decidable (s.CoherentRun T L calls)
  | [] => .isTrue trivial
  | (op, faults) :: calls =>
      @instDecidableAnd _ _ inferInstance <|
        match s.faultyStep T L op faults with
        | some (_, t) => t.decidableCoherentRun calls
        | none => .isTrue trivial

end Decide

section Driver

variable {T : Target} {L : BankLayout}

theorem FaultyFlash.next_unchanging {d : FaultyFlash} (h : Unchanging d.faults) {f : DriverFault}
    (hf : d.next = some f) : f.programmed = 0 := by
  apply h
  rw [FaultyFlash.next] at hf
  cases hfaults : d.faults with
  | nil => rw [hfaults] at hf; cases hf
  | cons x rest =>
      rw [hfaults] at hf
      obtain rfl : x = some f := hf
      exact List.mem_cons_self

theorem faultyFlash_of_none (base : Handler FlashCall FlashCall.Reply Memory) (c : FlashCall)
    {d : FaultyFlash} (hnext : d.next = none) :
    faultyFlash base c d = ((base c d.mem).1, ⟨(base c d.mem).2, d.faults.tail, false⟩) := by
  rw [faultyFlash, hnext]

theorem faultyFlash_of_some (base : Handler FlashCall FlashCall.Reply Memory) (c : FlashCall)
    {d : FaultyFlash} {f : DriverFault} (hnext : d.next = some f) :
    faultyFlash base c d =
      (c.failReply f, ⟨c.failEffect base f d.mem, d.faults.tail, c.isRead⟩) := by
  rw [faultyFlash, hnext]

theorem unchanging_next (base : Handler FlashCall FlashCall.Reply Memory) (c : FlashCall)
    (d : FaultyFlash) (h : Unchanging d.faults) : Unchanging (faultyFlash base c d).2.faults := by
  have htail : (faultyFlash base c d).2.faults = d.faults.tail := by
    cases hnext : d.next with
    | none => rw [faultyFlash_of_none base c hnext]
    | some f => rw [faultyFlash_of_some base c hnext]
  rw [htail]
  exact fun f hf => h f (List.mem_of_mem_tail hf)

/-- What is seen of the driver. -/
def faultyView : FlashView FaultyFlash := ⟨FaultyFlash.mem, FaultyFlash.readFailed⟩

/-- A read of a driver over a device whose reads succeed. -/
theorem faultyFlash_read {base : Handler FlashCall FlashCall.Reply Memory} {a n : Nat}
    {d : FaultyFlash} (hbase : base (.read a n) d.mem = ((.ok, d.mem.bytesAt a n), d.mem)) :
    ∃ st buf d', faultyFlash base (.read a n) d = ((st, buf), d') ∧
      faultyView.mem d' = faultyView.mem d ∧
      (st = .ok → buf = (faultyView.mem d).bytesAt a n) ∧
      (faultyView.readFailed d' = true ↔ st ≠ .ok) := by
  cases hnext : d.next with
  | none =>
      have hcall := faultyFlash_of_none base (.read a n) hnext
      rw [hbase] at hcall
      refine ⟨.ok, d.mem.bytesAt a n, ⟨d.mem, d.faults.tail, false⟩, hcall, rfl, fun _ => rfl, ?_⟩
      exact ⟨nofun, fun hne => absurd rfl hne⟩
  | some f =>
      refine ⟨f.status, f.buf, ⟨d.mem, d.faults.tail, true⟩,
        faultyFlash_of_some _ (.read a n) hnext, rfl, fun hok => absurd hok f.status_ne, ?_⟩
      exact ⟨fun _ => f.status_ne, fun _ => rfl⟩

/-- An erase of a driver over a device whose erases succeed. -/
theorem faultyFlash_erase {base : Handler FlashCall FlashCall.Reply Memory} {a S : Nat}
    {d : FaultyFlash} (hbase : base (.eraseSector a) d.mem = (.ok, d.mem.erase a S)) :
    ∃ (st : FwStatus) (d' : FaultyFlash), faultyFlash base (.eraseSector a) d = (st, d') ∧
      faultyView.mem d' =
        if st = .ok then (faultyView.mem d).erase a S else faultyView.mem d := by
  cases hnext : d.next with
  | none =>
      have hcall := faultyFlash_of_none base (.eraseSector a) hnext
      rw [hbase] at hcall
      exact ⟨.ok, ⟨d.mem.erase a S, d.faults.tail, false⟩, hcall, (if_pos rfl).symm⟩
  | some f =>
      exact ⟨f.status, ⟨d.mem, d.faults.tail, false⟩,
        faultyFlash_of_some _ (.eraseSector a) hnext, (if_neg f.status_ne).symm⟩

/-- A driver whose failing calls change nothing meets the contract of the store. -/
theorem faultyFlash_contract (L : BankLayout) (mounting : Bool) (bank : Nat) :
    FlashContract L faultyView (faultyFlash (idealFlash L.sectorSize))
      (fun c d => spares L mounting bank c d ∧ Unchanging d.faults) fun _ => True where
  allowed _ _ := trivial
  read := fun _ => faultyFlash_read rfl
  write := by
    intro a data d hguard
    cases hnext : d.next with
    | none =>
        obtain ⟨hinside, haccepts⟩ := hguard.1 (by rw [hnext]; rfl)
        refine ⟨.ok, ⟨d.mem.program a data, d.faults.tail, false⟩,
          faultyFlash_of_none _ (.write a data) hnext, Or.inr hinside, fun x hx => ?_,
          fun _ => ⟨hinside, haccepts, rfl⟩⟩
        exact Memory.program_of_outside (by omega)
    | some f =>
        have hnothing := FaultyFlash.next_unchanging hguard.2 hnext
        have hcall := faultyFlash_of_some (idealFlash L.sectorSize) (.write a data) hnext
        have hmem : FlashCall.failEffect (idealFlash L.sectorSize) (.write a data) f d.mem =
            d.mem := by
          change d.mem.program a (data.take f.programmed) = d.mem
          rw [hnothing, List.take_zero]
          exact Memory.program_nil _ _
        rw [hmem] at hcall
        exact ⟨f.status, ⟨d.mem, d.faults.tail, false⟩, hcall, Or.inl rfl, fun _ _ => rfl,
          fun hok => absurd hok f.status_ne⟩
  erase := fun _ => faultyFlash_erase rfl

end Driver

section Values

variable {T : Target} {L : BankLayout} {log base log' : List NvsRecord} {key k : UInt16}
  {vs : List (List UInt8)} {data : List UInt8}

/-- The key reads as one of the values. -/
def ReadsOneOf (log : List NvsRecord) (key : UInt16) (vs : List (List UInt8)) : Prop :=
  ∃ r, KeyedLog.latest NvsRecord.key key log = some r ∧ r.valid = true ∧ r.intact ∧ r.payload ∈ vs

theorem ReadsOneOf.mono {vs' : List (List UInt8)} (h : ReadsOneOf log key vs) (hsub : vs ⊆ vs') :
    ReadsOneOf log key vs' := by
  obtain ⟨r, hlatest, hvalid, hintact, hmem⟩ := h
  exact ⟨r, hlatest, hvalid, hintact, hsub hmem⟩

theorem ReadsOneOf.retained (h : ReadsOneOf log key vs)
    (hretains : KeyedLog.Retains NvsRecord.key NvsRecord.valid log base) :
    ReadsOneOf base key vs := by
  obtain ⟨r, hlatest, hvalid, hintact, hmem⟩ := h
  exact ⟨r, hretains key r hlatest hvalid, hvalid, hintact, hmem⟩

/-- A record of another key does not change what is read. -/
theorem ReadsOneOf.append (h : ReadsOneOf log key vs) {x : NvsRecord} (hx : x.key ≠ key) :
    ReadsOneOf (log ++ [x]) key vs := by
  obtain ⟨r, hlatest, hread⟩ := h
  refine ⟨r, ?_, hread⟩
  rw [KeyedLog.latest_concat, if_neg hx]
  exact hlatest

theorem EndsWithValue.readsOneOf (h : EndsWithValue key data base log) :
    ReadsOneOf log key [data] := by
  obtain ⟨r, hhdr, hpayload, rfl⟩ := h
  have hkey : r.key = key := congrArg RecordHdr.key hhdr
  have hvalid : r.valid = true := by
    rw [NvsRecord.valid, hhdr]
    rfl
  have hintact : r.intact := by
    rw [NvsRecord.intact, hhdr, hpayload]
    rfl
  refine ⟨r, ?_, hvalid, hintact, ?_⟩
  · rw [KeyedLog.latest_concat, if_pos hkey]
  · rw [hpayload]
    exact List.mem_singleton_self data

theorem EndsWithValue.other (h : EndsWithValue key data base log) (hk : key ≠ k)
    (hread : ReadsOneOf base k vs) : ReadsOneOf log k vs := by
  obtain ⟨r, hhdr, -, rfl⟩ := h
  have hkey : r.key = key := congrArg RecordHdr.key hhdr
  exact hread.append (hkey ▸ hk)

theorem EndsWithDeletion.other (h : EndsWithDeletion key base log) (hk : key ≠ k)
    (hread : ReadsOneOf base k vs) : ReadsOneOf log k vs := by
  obtain rfl | ⟨r, hkey, rfl⟩ := h
  · exact hread
  · exact hread.append (hkey ▸ hk)

/-- The records of the running instance account for what the calls acknowledged. -/
def Accounts (log : List NvsRecord) (trace : NvsTrace) : Prop :=
  ∀ key vs, acceptable key trace = some vs → ReadsOneOf log key vs

theorem acceptable_snoc (key : UInt16) (trace : NvsTrace) (call : NvsOp × NvsReply) :
    acceptable key (trace ++ [call]) = acceptableStep key (acceptable key trace) call := by
  rw [acceptable, acceptable, List.foldl_append]
  rfl

/-- A write accounts for its value when it succeeds, and else leaves all records. -/
theorem Accounts.write {trace : NvsTrace} {st : FwStatus} (h : Accounts log trace)
    (hretains : KeyedLog.Retains NvsRecord.key NvsRecord.valid log base)
    (hends : if st = .ok then EndsWithValue key data base log' else log' = base) :
    Accounts log' (trace ++ [(.write key data, .status st)]) := by
  intro k vs hvs
  rw [acceptable_snoc, acceptableStep] at hvs
  have hkept : ∀ ws, acceptable k trace = some ws → ReadsOneOf base k ws :=
    fun ws hws => (h k ws hws).retained hretains
  by_cases hst : st = .ok
  · rw [if_pos hst] at hends
    by_cases hk : key = k
    · rw [if_pos hk, if_pos (congrArg NvsReply.status hst)] at hvs
      cases hvs
      exact hk ▸ hends.readsOneOf
    · rw [if_neg hk] at hvs
      exact hends.other hk (hkept vs hvs)
  · rw [if_neg hst] at hends
    subst hends
    by_cases hk : key = k
    · have hreply : NvsReply.status st ≠ .status .ok := fun heq => hst (NvsReply.status.inj heq)
      rw [if_pos hk, if_neg hreply] at hvs
      obtain ⟨ws, hws, rfl⟩ := Option.map_eq_some_iff.mp hvs
      exact (hkept ws hws).mono (List.subset_append_left ws [data])
    · rw [if_neg hk] at hvs
      exact hkept vs hvs

theorem Accounts.delete {trace : NvsTrace} {reply : NvsReply} (h : Accounts log trace)
    (hretains : KeyedLog.Retains NvsRecord.key NvsRecord.valid log base)
    (hends : EndsWithDeletion key base log') :
    Accounts log' (trace ++ [(.delete key, reply)]) := by
  intro k vs hvs
  rw [acceptable_snoc, acceptableStep] at hvs
  by_cases hk : key = k
  · rw [if_pos hk] at hvs
    cases hvs
  · rw [if_neg hk] at hvs
    exact hends.other hk ((h k vs hvs).retained hretains)

end Values

section Run

variable {T : Target} {L : BankLayout} {s : NvsSystem} {log : List NvsRecord} {trace : NvsTrace}
  {mounting : Bool} {bank : Nat} {d : FaultyFlash}

/-- The guard of a coherent call. -/
abbrev sparing (L : BankLayout) (mounting : Bool) (bank : Nat) (c : FlashCall) (d : FaultyFlash) :
    Prop :=
  spares L mounting bank c d ∧ Unchanging d.faults

theorem erasesKnowingly (L : BankLayout) (mounting : Bool) (bank : Nat) :
    ErasesKnowingly (faultyFlash (idealFlash L.sectorSize)) (sparing L mounting bank) faultyView
      bank := by
  intro d d' hguard hcall
  refine hguard.1 ?_ rfl
  cases hnext : d.next with
  | none => rfl
  | some f =>
      rw [faultyFlash_of_some _ _ hnext] at hcall
      exact absurd (congrArg Prod.fst hcall) f.status_ne

theorem mountReadsSucceed (L : BankLayout) (bank : Nat) :
    ReadsSucceed (faultyFlash (idealFlash L.sectorSize)) (sparing L true bank) recordHdrSize := by
  intro a d st buf d' hguard hcall
  have hnone := Option.isNone_iff_eq_none.mp (hguard.1 rfl rfl)
  rw [faultyFlash_of_none _ _ hnone] at hcall
  exact (congrArg (fun r => r.1.1) hcall).symm

/-- A coherent remount counts on the same records again. -/
theorem Running.remount (hr : Running L s.nvs d.mem log) (fresh : FwNvs)
    (hchosen : Chosen L d.mem s.nvs.activeBank)
    (hstops : ScanStops d.mem (L.addr s.nvs.activeBank) L.sectorSize s.nvs.writeOffset) :
    Program.Ensures (faultyFlash (idealFlash L.sectorSize)) (sparing L true bank) (fun _ => True)
      (fun res d' => Running L (if res.1 = .ok then res.2 else s.nvs) d'.mem log)
      (fwNvsInit T fresh ⟨L.sectorSize⟩ (L.addr 0) (L.addr 1)) d := by
  have hD := faultyFlash_contract L true bank
  refine (fwNvsInit_ensures T hD fresh hchosen).mono fun res d' hd' => ?_
  obtain ⟨hmem, hres⟩ := hd'
  -- the mount touches at most the other bank
  have hsame : ∀ x, ¬ (L.addr (1 - s.nvs.activeBank) ≤ x ∧
      x < L.addr (1 - s.nvs.activeBank) + L.sectorSize) → d'.mem x = d.mem x := by
    intro x hx
    rcases hmem with heq | heq
    · exact congrFun heq x
    · exact (congrFun heq x).trans (Memory.erase_of_outside (by omega))
  have hr' : Running L s.nvs d'.mem log := ⟨hr.nvs_eq, hr.bank.congr_other hsame⟩
  by_cases hst : res.1 = .ok
  · rw [if_pos hst] at hres ⊢
    obtain ⟨log', hnew, hbank, hscan⟩ := hres
    have hlog := hnew.bank
    rw [hbank] at hlog
    have hstops' : ScanStops d'.mem (L.addr s.nvs.activeBank) L.sectorSize s.nvs.writeOffset := by
      rw [ScanStops] at hstops ⊢
      by_cases hroom : L.sectorSize < s.nvs.writeOffset + recordHdrSize
      · exact Or.inl hroom
      · have hd := L.addr_disjoint s.nvs.activeBank
        have hhdr : d'.mem.bytesAt (L.addr s.nvs.activeBank + s.nvs.writeOffset) recordHdrSize =
            d.mem.bytesAt (L.addr s.nvs.activeBank + s.nvs.writeOffset) recordHdrSize :=
          Memory.bytesAt_congr fun x hl hr => hsame x (by omega)
        rw [hhdr]
        exact hstops
    have hsamelog : log' = log := by
      refine log_unique hlog.bytes hr'.bank.bytes hlog.fits hr'.bank.fits ?_ ?_
      · rw [← hnew.writeOffset_eq]
        exact hscan (mountReadsSucceed L bank)
      · rw [← hr.writeOffset_eq]
        exact hstops'
    exact hsamelog ▸ hnew
  · rw [if_neg hst]
    exact hr'

/-- A coherent call leaves an instance whose records account for what was acknowledged. -/
theorem NvsOp.program_accounts (hr : Running L s.nvs s.flash log) (hacc : Accounts log trace)
    (op : NvsOp) (hfinds : s.Finds T L op) (faults : Schedule) :
    Program.Ensures (faultyFlash (idealFlash L.sectorSize))
      (sparing L op.isRemount (L.addr s.nvs.activeBank)) (fun _ => True)
      (fun res d' => ∃ log', Running L (s.resume op res.1 res.2) d'.mem log' ∧
        Accounts log' (trace ++ [(op, res.1)]))
      (op.program T L s.nvs) (s.driver faults) := by
  have hknow := erasesKnowingly L op.isRemount (L.addr s.nvs.activeBank)
  have hD := faultyFlash_contract L op.isRemount (L.addr s.nvs.activeBank)
  cases op with
  | write key data =>
      refine Program.Ensures.bind (fwNvsWrite_ensures T hD hr hfinds) fun res d' hd' => ?_
      obtain ⟨base, log', hsurvives, hr', hends⟩ := hd'
      exact Program.Ensures.ret ⟨log', hr', hacc.write (hsurvives.2 hknow) hends⟩
  | read key outData =>
      refine Program.Ensures.bind (fwNvsRead_ensures hD hr outData) fun res d' hd' => ?_
      refine Program.Ensures.ret ⟨log, ?_, fun k vs hvs => hacc k vs ?_⟩
      · change Running L s.nvs d'.mem log
        rw [show d'.mem = s.flash from hd']
        exact hr
      · rwa [acceptable_snoc] at hvs
  | delete key =>
      refine Program.Ensures.bind
        (fwNvsDelete_ensures hD (fun _ => trivial) hr) fun res d' hd' => ?_
      obtain ⟨base, log', hsurvives, hr', hends⟩ := hd'
      exact Program.Ensures.ret ⟨log', hr', hacc.delete (hsurvives.2 hknow) hends⟩
  | remount fresh =>
      refine Program.Ensures.bind (Running.remount hr fresh hfinds.1 hfinds.2) fun res d' hd' => ?_
      refine Program.Ensures.ret ⟨log, ?_, fun k vs hvs => hacc k vs ?_⟩
      · by_cases hst : res.1 = .ok
        · rw [if_pos hst] at hd'
          simpa only [NvsSystem.resume, hst, if_true] using hd'
        · rw [if_neg hst] at hd'
          simpa only [NvsSystem.resume, NvsReply.status.injEq, hst, if_false] using hd'
      · rwa [acceptable_snoc] at hvs

theorem Running.faultyStep (hr : Running L s.nvs s.flash log) (hacc : Accounts log trace)
    {op : NvsOp} {faults : Schedule} (hquiet : Unchanging faults)
    (hcoherent : s.Coherent T L op faults) :
    ∃ reply t log', s.faultyStep T L op faults = some (reply, t) ∧ Running L t.nvs t.flash log' ∧
      Accounts log' (trace ++ [(op, reply)]) := by
  have hguard := hcoherent.2.and_invariant (unchanging_next _) hquiet
  obtain ⟨⟨reply, nvs⟩, d, hrun, log', hr', hacc'⟩ :=
    (NvsOp.program_accounts hr hacc op hcoherent.1 faults).run hguard
  refine ⟨reply, ⟨s.resume op reply nvs, d.mem⟩, log', ?_, hr', hacc'⟩
  rw [NvsSystem.faultyStep, hrun]

theorem Running.faultyRun (hr : Running L s.nvs s.flash log) (hacc : Accounts log trace)
    {calls : List (NvsOp × Schedule)} (hquiet : ∀ call ∈ calls, Unchanging call.2)
    (hcoherent : s.CoherentRun T L calls) :
    ∃ trace' t log', s.faultyRun T L calls = some (trace', t) ∧ Running L t.nvs t.flash log' ∧
      Accounts log' (trace ++ trace') := by
  induction calls generalizing s log trace with
  | nil => exact ⟨[], s, log, rfl, hr, (List.append_nil trace).symm ▸ hacc⟩
  | cons call calls ih =>
      obtain ⟨op, faults⟩ := call
      obtain ⟨hhead, htail⟩ := hcoherent
      obtain ⟨reply, t, log', hstep, hr', hacc'⟩ :=
        hr.faultyStep hacc (hquiet _ List.mem_cons_self) hhead
      rw [hstep] at htail
      obtain ⟨trace', u, log'', hrun, hr'', hacc''⟩ :=
        ih hr' hacc' (fun c hc => hquiet c (List.mem_cons_of_mem _ hc)) htail
      refine ⟨(op, reply) :: trace', u, log'', ?_, hr'', ?_⟩
      · rw [NvsSystem.faultyRun, hstep]
        simp only [Option.bind_eq_bind, Option.bind_some, hrun]
        rfl
      · rwa [List.append_assoc] at hacc''

/-- On a healthy driver a key that reads as one of the values returns it. -/
theorem Running.read (hr : Running L s.nvs s.flash log) {key : UInt16} {vs : List (List UInt8)}
    (hread : ReadsOneOf log key vs) :
    ∃ v ∈ vs, ∀ outData, s.read L key outData = some (readValue (some v) outData) := by
  obtain ⟨r, hlatest, hvalid, hintact, hmem⟩ := hread
  refine ⟨r.payload, hmem, fun outData => ?_⟩
  have hkey : key ≠ fwNvsKeyEmpty := by
    have hrkey := (KeyedLog.latest_mem NvsRecord.key hlatest).2
    exact hrkey ▸ r.key_ne
  rw [NvsSystem.read, hr.nvs_eq, hr.bank.read_run, if_neg hkey, readLog, hlatest,
    Option.filter_some_pos hvalid]
  exact congrArg some (readRecord_of_intact hintact outData)

end Run

/-- In every run from a fresh store whose calls are coherent, every key reads as the value of its
last write that returned `FW_OK` or of a later one that returned an error, unless a delete of it
was attempted since. -/
theorem fwNvsRead_acknowledged (T : Target) (L : BankLayout) {s : NvsSystem}
    {calls : List (NvsOp × Schedule)} (hfresh : FreshStore T L s)
    (hquiet : ∀ call ∈ calls, Unchanging call.2) (hcoherent : s.CoherentRun T L calls) :
    ∃ trace t, s.faultyRun T L calls = some (trace, t) ∧
      ∀ key vs, acceptable key trace = some vs →
        ∃ v ∈ vs, ∀ outData, t.read L key outData = some (readValue (some v) outData) := by
  have hnothing : Accounts [] [] := fun key vs hvs => nomatch hvs
  obtain ⟨trace, t, log, hrun, hr, hacc⟩ :=
    hfresh.mounted.running.faultyRun hnothing hquiet hcoherent
  exact ⟨trace, t, hrun, fun key vs hvs => hr.read (hacc key vs hvs)⟩

/-- The error that a driver call returns. -/
def ioFault : DriverFault := ⟨.errIo, nofun, [], 0⟩

theorem unchanging_of_ioFault {calls : List (NvsOp × Schedule)}
    (h : ∀ call ∈ calls, ∀ fault ∈ call.2, fault.all fun f => f.programmed == 0) :
    ∀ call ∈ calls, Unchanging call.2 := by
  intro call hcall f hf
  have hall := h call hcall (some f) hf
  rwa [Option.all_some, beq_iff_eq] at hall

/-- A write that fails in its payload is repeated, and the store is mounted again. -/
def retriedWrite : List (NvsOp × Schedule) :=
  [(.write 1 [1], [none, some ioFault]), (.write 1 [1], []), (.remount sampleStore.nvs, [])]

theorem fwNvsRead_acknowledged_sample :
    ∃ trace t, sampleStore.faultyRun target32 sampleLayout retriedWrite = some (trace, t) ∧
      ∀ key vs, acceptable key trace = some vs →
        ∃ v ∈ vs, ∀ outData, t.read sampleLayout key outData =
          some (readValue (some v) outData) :=
  fwNvsRead_acknowledged target32 sampleLayout sampleStore_fresh
    (unchanging_of_ioFault (by decide)) (by decide +kernel)

/-- The erase that ends a compaction fails. The store goes on in the old bank, and the next mount
takes the other one. -/
def failedCompaction : List (NvsOp × Schedule) :=
  [(.write 1 [1], []), (.write 2 (List.replicate 230 0), List.replicate 5 none ++ [some ioFault]),
    (.write 1 [2], []), (.remount sampleStore.nvs, [])]

theorem fwNvsRead_loses_acknowledged :
    FreshStore target32 sampleLayout sampleStore ∧
    (∀ call ∈ failedCompaction, Unchanging call.2) ∧
    (sampleStore.faultyRun target32 sampleLayout failedCompaction).map
      (fun r => (r.1.map Prod.snd, acceptable 1 r.1, r.2.read sampleLayout 1 [0])) =
        some ([.status .ok, .status .errIo, .status .ok, .status .ok], some [[2]],
          some ⟨.ok, [1], some 1⟩) := by
  exact ⟨sampleStore_fresh, unchanging_of_ioFault (by decide), by decide +kernel⟩

end ZeroEmbedded.Nvs
