import ZeroEmbedded.Foundation.Runs
import ZeroEmbedded.Storage.NorFlash
import ZeroEmbedded.Storage.NvsErrorRuns

/-!
# Writes on NOR flash after an interrupted one

A call on NOR flash comes with a schedule of driver calls that fail, and a
program that fails may have programmed any number of its bytes. A write that
loses power is a write that fails, followed by a mount. The cells behind the log
then need not be erased, and a later append may find that they do not accept it.
-/

namespace ZeroEmbedded.Nvs

open Foundation

/-- One call on NOR flash whose driver fails as the schedule says. -/
def NvsSystem.norStep (T : Target) (L : BankLayout) (s : NvsSystem) (op : NvsOp)
    (faults : Schedule) : Option (NvsReply × NvsSystem) :=
  match (op.program T L s.nvs).run (faultyFlash (norFlash L.sectorSize)) (s.driver faults) with
  | (some (reply, nvs), d) => some (reply, ⟨s.resume op reply nvs, d.mem⟩)
  | (none, _) => none

/-- What `fw_nvs_read` returns on the healthy NOR device. -/
def NvsSystem.norRead (L : BankLayout) (s : NvsSystem) (key : UInt16) (outData : List UInt8) :
    Option ReadResult :=
  ((fwNvsRead s.nvs key outData).run (norFlash L.sectorSize) s.flash).1

/-- A program lies in the records of a bank or is a whole header. -/
def KeepsInside (L : BankLayout) : FlashCall → Prop
  | .write a data => L.Inside a data.length
  | _ => True

/-- What the calls of a run keep to: a value has a 16-bit length or is turned down, a tombstone
does not leave the bank, and a mount has a healthy driver. -/
def NvsSystem.Regular (T : Target) (L : BankLayout) (s : NvsSystem) : NvsOp → Schedule → Prop
  | .write _ data, _ => data.length < 2 ^ 16 ∨ WriteRefused T L data
  | .read _ _, _ => True
  | .delete key, faults => Program.Guarded (faultyFlash (norFlash L.sectorSize))
      (fun c _ => KeepsInside L c) (NvsOp.program T L s.nvs (.delete key)) (s.driver faults)
  | .remount _, faults => faults = []

/-- A regular call that returns. -/
structure NorStep (T : Target) (L : BankLayout) (s : NvsSystem) (call : NvsOp × Schedule)
    (t : NvsSystem) : Prop where
  regular : s.Regular T L call.1 call.2
  returns : ∃ reply, s.norStep T L call.1 call.2 = some (reply, t)

/-- A state that a run of regular calls reaches from a fresh store, whatever the driver does to
them. -/
def NorReached (T : Target) (L : BankLayout) (s : NvsSystem) : Prop :=
  ∃ s0 calls, FreshStore T L s0 ∧ Run (NorStep T L) s0 calls s

/-- The record of the value fits in a sector beside the live records. -/
def FitsBesideLive (L : BankLayout) (s : NvsSystem) (data : List UInt8) : Prop :=
  sectorHdrSize + (s.liveRecords.map fun r => r.2.length).sum + (8 + (data.length + 3) / 4 * 4) ≤
    L.sectorSize

instance (L : BankLayout) (s : NvsSystem) (data : List UInt8) :
    Decidable (FitsBesideLive L s data) :=
  inferInstanceAs (Decidable (_ ≤ _))

/-- A write on the healthy driver returns `FW_OK`, and the value is read back. -/
def Recovers (T : Target) (L : BankLayout) (s : NvsSystem) (key : UInt16) (data : List UInt8) :
    Prop :=
  ∃ t, s.norStep T L (.write key data) [] = some (.status .ok, t) ∧
    ∀ outData, t.norRead L key outData = some (readValue (some data) outData)

/-- The record goes to an erased bank, or the cells behind the records accept it. -/
def TailAccepts (L : BankLayout) (s : NvsSystem) (key : UInt16) (data : List UInt8) : Prop :=
  L.sectorSize < s.nvs.writeOffset + writeTotal data ∨
    s.flash.Accepts (L.addr s.nvs.activeBank + s.nvs.writeOffset) (valueChunks key data).flatten

instance (L : BankLayout) (s : NvsSystem) (key : UInt16) (data : List UInt8) :
    Decidable (TailAccepts L s key data) :=
  inferInstanceAs (Decidable (_ ∨ _))

section Driver

/-- A driver over NOR flash meets the contract of the store, whatever its schedule is. -/
theorem norFlash_contract (L : BankLayout) {guard : FlashCall → FaultyFlash → Prop}
    {safe : FlashCall → Prop} (hguard : ∀ c d, guard c d → KeepsInside L c)
    (hsafe : ∀ c, L.Allows c → safe c) :
    FlashContract L faultyView (faultyFlash (norFlash L.sectorSize)) guard safe where
  allowed := hsafe
  read := fun _ => faultyFlash_read rfl
  write := by
    intro a data d hd
    have hinside : L.Inside a data.length := hguard _ _ hd
    cases hnext : d.next with
    | none =>
        refine ⟨_, _, faultyFlash_of_none _ (.write a data) hnext, Or.inr hinside, fun x hx => ?_,
          fun hok => ?_⟩
        · exact Memory.norProgram_of_outside (by omega)
        · have haccepts := accepts_of_norFlash hok
          rw [norFlash_of_accepts _ haccepts]
          exact ⟨hinside, haccepts, rfl⟩
    | some f =>
        refine ⟨_, _, faultyFlash_of_some _ (.write a data) hnext, Or.inr hinside, fun x hx => ?_,
          fun hok => absurd hok f.status_ne⟩
        have hle : (data.take f.programmed).length ≤ data.length := List.length_take_le' _ _
        exact Memory.norProgram_of_outside (by omega)
  erase := fun _ => faultyFlash_erase rfl

/-- The calls that the layout allows keep inside of the banks. -/
theorem BankLayout.Allows.keepsInside {L : BankLayout} {c : FlashCall} (h : L.Allows c) :
    KeepsInside L c := by
  cases c with
  | read a n => trivial
  | write a data => exact h
  | eraseSector a => trivial

theorem healthy_next (base : Handler FlashCall FlashCall.Reply Memory) (c : FlashCall)
    (d : FaultyFlash) (h : d.faults = []) : (faultyFlash base c d).2.faults = [] := by
  have hnext : d.next = none := by
    rw [FaultyFlash.next, h]
    rfl
  rw [faultyFlash_of_none base c hnext]
  exact congrArg List.tail h

end Driver

section Run

variable {T : Target} {L : BankLayout} {s t : NvsSystem} {log : List NvsRecord}

/-- The instance that the caller goes on with is running. -/
abbrev LeavesRunning (L : BankLayout) (s : NvsSystem) (op : NvsOp) (res : NvsReply × FwNvs)
    (d : FaultyFlash) : Prop :=
  ∃ log, Running L (s.resume op res.1 res.2) d.mem log

theorem norStep_of_ensures {op : NvsOp} {faults : Schedule}
    {guard : FlashCall → FaultyFlash → Prop} {safe : FlashCall → Prop}
    (hens : Program.Ensures (faultyFlash (norFlash L.sectorSize)) guard safe
      (LeavesRunning L s op) (op.program T L s.nvs) (s.driver faults))
    (hguarded : Program.Guarded (faultyFlash (norFlash L.sectorSize)) guard
      (op.program T L s.nvs) (s.driver faults)) :
    ∃ reply t log', s.norStep T L op faults = some (reply, t) ∧ Running L t.nvs t.flash log' := by
  obtain ⟨⟨reply, nvs⟩, d, hrun, log', hr⟩ := hens.run hguarded
  refine ⟨reply, ⟨s.resume op reply nvs, d.mem⟩, log', ?_, hr⟩
  rw [NvsSystem.norStep, hrun]

/-- A healthy mount takes one of the banks with a valid header and goes on from what lies there. -/
theorem Running.norRemount (hr : Running L s.nvs s.flash log) (fresh : FwNvs) :
    ∃ reply t log', s.norStep T L (.remount fresh) [] = some (reply, t) ∧
      Running L t.nvs t.flash log' := by
  obtain ⟨b, hchosen⟩ := exists_chosen L s.flash hr.bank.valid
  have hD := norFlash_contract L
    (fun c d (hd : KeepsInside L c ∧ d.faults = []) => hd.1) (fun c (h : L.Allows c) => h)
  -- no read of the mount fails
  have hreads : ∀ n, ReadsSucceed (faultyFlash (norFlash L.sectorSize))
      (fun c d => KeepsInside L c ∧ d.faults = []) n := by
    intro n a d st buf d' hd hcall
    have hnone : d.next = none := by
      rw [FaultyFlash.next, hd.2]
      rfl
    rw [faultyFlash_of_none _ _ hnone] at hcall
    exact (congrArg (fun r => r.1.1) hcall).symm
  have hens : Program.Ensures (faultyFlash (norFlash L.sectorSize))
      (fun c d => KeepsInside L c ∧ d.faults = []) L.Allows (LeavesRunning L s (.remount fresh))
      (NvsOp.program T L s.nvs (.remount fresh)) (s.driver []) := by
    refine Program.Ensures.bind (fwNvsInit_ensures T hD fresh hchosen) fun res d hd => ?_
    obtain ⟨st, nvs⟩ := res
    by_cases hst : st = .ok
    · subst hst
      obtain ⟨log', hr', -⟩ := hd.2
      exact Program.Ensures.ret ⟨log', hr'⟩
    · have hfail := hd.2
      rw [if_neg hst] at hfail
      exact absurd (hreads _) hfail.2
  exact norStep_of_ensures hens (hens.guarded_of_invariant (healthy_next _)
    (fun c d hc hd => ⟨hc.keepsInside, hd⟩) rfl)

/-- A regular call returns and leaves a running instance behind. -/
theorem Running.norStep (hr : Running L s.nvs s.flash log) (op : NvsOp) (faults : Schedule)
    (hregular : s.Regular T L op faults) :
    ∃ reply t log', s.norStep T L op faults = some (reply, t) ∧ Running L t.nvs t.flash log' := by
  have hD := norFlash_contract L (fun c (_ : FaultyFlash) (h : KeepsInside L c) => h)
    (fun c (h : L.Allows c) => h)
  have hallowed : ∀ c (_ : FaultyFlash), L.Allows c → KeepsInside L c := fun c _ hc =>
    hc.keepsInside
  have hr' : Running L s.nvs (faultyView.mem (s.driver faults)) log := hr
  cases op with
  | write key data =>
      have hens : Program.Ensures (faultyFlash (norFlash L.sectorSize))
          (fun c _ => KeepsInside L c) L.Allows (LeavesRunning L s (.write key data))
          (NvsOp.program T L s.nvs (.write key data)) (s.driver faults) := by
        refine Program.Ensures.bind (fwNvsWrite_ensures T hD hr' hregular) fun res d hd => ?_
        obtain ⟨_, log', -, hrunning, -⟩ := hd
        exact Program.Ensures.ret ⟨log', hrunning⟩
      exact norStep_of_ensures hens (hens.guarded hallowed)
  | read key outData =>
      have hens : Program.Ensures (faultyFlash (norFlash L.sectorSize))
          (fun c _ => KeepsInside L c) L.Allows (LeavesRunning L s (.read key outData))
          (NvsOp.program T L s.nvs (.read key outData)) (s.driver faults) := by
        refine Program.Ensures.bind (fwNvsRead_ensures hD hr' outData) fun res d hd => ?_
        refine Program.Ensures.ret ⟨log, ?_⟩
        change Running L s.nvs d.mem log
        rw [show d.mem = s.flash from hd]
        exact hr
      exact norStep_of_ensures hens (hens.guarded hallowed)
  | delete key =>
      have hD' := norFlash_contract L (fun c (_ : FaultyFlash) (h : KeepsInside L c) => h)
        (fun c (_ : L.Allows c) => trivial)
      have hens : Program.Ensures (faultyFlash (norFlash L.sectorSize))
          (fun c _ => KeepsInside L c) (fun _ => True) (LeavesRunning L s (.delete key))
          (NvsOp.program T L s.nvs (.delete key)) (s.driver faults) := by
        refine Program.Ensures.bind (fwNvsDelete_ensures hD' (fun _ => trivial) hr')
          fun res d hd => ?_
        obtain ⟨_, log', -, hrunning, -⟩ := hd
        exact Program.Ensures.ret ⟨log', hrunning⟩
      exact norStep_of_ensures hens hregular
  | remount fresh =>
      obtain rfl : faults = [] := hregular
      exact hr.norRemount fresh

/-- The instance is running in every state of a run of regular calls. -/
theorem NorReached.running (hs : NorReached T L s) : ∃ log, Running L s.nvs s.flash log := by
  obtain ⟨s0, calls, hfresh, hrun⟩ := hs
  refine hrun.invariant (fun t _ => ∃ log, Running L t.nvs t.flash log)
    ⟨[], hfresh.mounted.running⟩ fun t calls call u hinv hstep => ?_
  obtain ⟨log, hr⟩ := hinv
  obtain ⟨reply, hcall⟩ := hstep.returns
  obtain ⟨reply', u', log', hcall', hr'⟩ := hr.norStep call.1 call.2 hstep.regular
  rw [hcall] at hcall'
  obtain ⟨-, rfl⟩ := Prod.mk.inj (Option.some.inj hcall')
  exact ⟨log', hr'⟩

end Run

section Compact

variable {T : Target} {L : BankLayout} {m : Memory} {b : Fin 2} {seq : UInt32}
  {log : List NvsRecord} {key : UInt16} {data : List UInt8}

/-- A compaction programs erased cells only. -/
theorem takes_compactEffects (h : BankLog L m b seq log) :
    Takes L.sectorSize (compactEffects L b seq (live log)) m := by
  have hhdr : (activeHdr (seq + 1)).bytes.length = sectorHdrSize := SectorHdr.bytes_length _
  have hroom : sectorHdrSize ≤ L.sectorSize := Nat.le_trans (by decide) L.sectorSize_ge
  have hlive := live_fits h
  have hempty := Memory.Holds.erase m (L.addr (1 - b)) L.sectorSize
  have hcopy : (copyImage L m b seq []).Holds (L.addr (1 - b)) L.sectorSize
      ((activeHdr (seq + 1)).bytes ++ ([] : List (List UInt8)).flatten) := copyImage_holds m hroom
  rw [List.flatten_nil, List.append_nil] at hcopy
  refine ⟨hempty.accepts (Nat.add_zero _).symm ?_, ?_⟩
  · rw [hhdr, List.length_nil, Nat.zero_add]
    exact hroom
  · refine takes_append.mpr ⟨takes_writesFrom.mpr (hcopy.accepts ?_ ?_), trivial⟩
    · rw [hhdr]
    · rw [hhdr]
      exact hlive

/-- A write whose record finds room and accepting cells succeeds on NOR flash. -/
theorem fwNvsWrite_norFlash (h : BankLog L m b seq log) (hkey : key ≠ fwNvsKeyEmpty)
    (hlen : data.length < 2 ^ 16) (hlive : ¬ WriteOverflows L log data)
    (hrefused : ¬ WriteRefused T L data)
    (htail : L.sectorSize < sectorHdrSize + logSize log + (8 + alignUp4 data.length) ∨
      m.Accepts (L.addr b + (sectorHdrSize + logSize log)) (valueChunks key data).flatten) :
    ∃ nvs' m', (fwNvsWrite T (ram L b seq log) key data).run (norFlash L.sectorSize) m =
      (some (.ok, nvs'), m') := by
  by_cases hroom : L.sectorSize < sectorHdrSize + logSize log + (8 + alignUp4 data.length)
  · have hcomp := compacted_onFlash h
    have hroom' : sectorHdrSize + logSize (live log) + (8 + alignUp4 data.length) ≤
        L.sectorSize := by
      rw [WriteOverflows, writeOffset_eq hlen h.fits,
        writeOffset_eq hlen hcomp.active.bankLog.fits] at hlive
      omega
    have hrun := fwNvsWrite_full T h hkey hrefused (by rwa [writeOffset_eq hlen h.fits])
      (by
        rw [writeOffset_eq hlen hcomp.active.bankLog.fits, if_neg (Nat.not_lt.mpr hroom')]
        exact appendRecord_yields hkey hlen hroom')
    refine ⟨_, _, hrun.norFlash (takes_append.mpr ⟨takes_compactEffects h, ?_⟩)⟩
    -- the new bank is erased behind the live records
    rw [(nvsCompact_ram_yields h).replay_eq, takes_writesFrom]
    have hholds := hcomp.active.holds_of_room (by rw [recordHdrSize]; omega)
    refine hholds.accepts ?_ ?_
    · rw [bankImage_length, sectorHdrSize]
    · rw [bankImage_length, valueChunks_flatten hkey hlen]
      change 16 + logSize (live log) + (valueRecord key data hkey hlen).size ≤ L.sectorSize
      rw [valueRecord_size]
      exact hroom'
  · have hrun : FlashYields L.sectorSize m (fwNvsWrite T (ram L b seq log) key data) _ _ _ :=
      fwNvsWrite_append T hkey hlen (Nat.not_lt.mp hroom)
    exact ⟨_, _, hrun.norFlash (takes_writesFrom.mpr (htail.resolve_left hroom))⟩

end Compact

section Recovery

variable {T : Target} {L : BankLayout} {s t : NvsSystem} {log : List NvsRecord} {key : UInt16}
  {data : List UInt8}

theorem Running.liveRecords_eq (hr : Running L s.nvs s.flash log) :
    s.liveRecords = (live log).map fun r => (r.hdr, r.bytes) := by
  have hlive := hr.bank.liveRecords_eq
  rw [← hr.nvs_eq] at hlive
  exact hlive

/-- A record beside the live records passes the checks of `fw_nvs_write`. -/
theorem Running.fitsBesideLive (hr : Running L s.nvs s.flash log)
    (hfits : FitsBesideLive L s data) :
    ¬ WriteRefused T L data ∧ ¬ WriteOverflows L log data := by
  have hsum : ((live log).map fun r => r.bytes.length).sum = logSize (live log) := rfl
  rw [FitsBesideLive, hr.liveRecords_eq, List.map_map] at hfits
  change sectorHdrSize + ((live log).map fun r => r.bytes.length).sum + _ ≤ _ at hfits
  rw [hsum] at hfits
  have hempty : sectorHdrSize + (8 + (data.length + 3) / 4 * 4) ≤ L.sectorSize := by omega
  refine ⟨not_writeRefused_of_fits T hempty, ?_⟩
  rw [writeOverflows_iff hr.bank hempty]
  exact Nat.not_lt.mpr hfits

theorem Running.norRead_eq (hr : Running L s.nvs s.flash log) (hkey : key ≠ fwNvsKeyEmpty)
    (outData : List UInt8) : s.norRead L key outData = s.read L key outData := by
  have hread := fwNvsRead_yields hr.bank hkey outData
  rw [← hr.nvs_eq] at hread
  rw [NvsSystem.norRead, NvsSystem.read, hread.run_eq, hread.norFlash takes_nil]

/-- A write on a driver without faults is `fw_nvs_write` on the NOR device. -/
theorem norStep_write (T : Target) (L : BankLayout) (s : NvsSystem) (key : UInt16)
    (data : List UInt8) {st : FwStatus} {nvs : FwNvs} {m : Memory} :
    s.norStep T L (.write key data) [] = some (.status st, ⟨nvs, m⟩) ↔
      (fwNvsWrite T s.nvs key data).run (norFlash L.sectorSize) s.flash = (some (st, nvs), m) := by
  obtain ⟨hvalue, hmem⟩ := run_faultyFlash_healthy (norFlash L.sectorSize)
    (NvsOp.program T L s.nvs (.write key data)) s.flash false
  have hbind : (NvsOp.program T L s.nvs (.write key data)).run (norFlash L.sectorSize) s.flash =
      _ := Program.run_bind _ (fwNvsWrite T s.nvs key data) _ s.flash
  rw [hbind] at hvalue hmem
  rw [NvsSystem.norStep, NvsSystem.driver]
  generalize (NvsOp.program T L s.nvs (.write key data)).run
    (faultyFlash (norFlash L.sectorSize)) ⟨s.flash, [], false⟩ = out at hvalue hmem ⊢
  generalize (fwNvsWrite T s.nvs key data).run (norFlash L.sectorSize)
    s.flash = res at hvalue hmem ⊢
  obtain ⟨value, d⟩ := out
  obtain ⟨result, m'⟩ := res
  cases result with
  | none =>
      obtain rfl : value = none := hvalue
      simp
  | some res =>
      obtain rfl : value = some (NvsReply.status res.1, res.2) := hvalue
      obtain rfl : d.mem = m' := hmem
      obtain ⟨st', nvs'⟩ := res
      simp [NvsSystem.resume, and_assoc]

/-- What is known of a program on every driver over NOR flash holds on the device itself. -/
theorem post_of_norFlash {α : Type} {p : FlashM α} {post : α → FaultyFlash → Prop} {m m' : Memory}
    {a : α} (hens : Program.Ensures (faultyFlash (norFlash L.sectorSize))
      (fun c _ => KeepsInside L c) L.Allows post p ⟨m, [], false⟩)
    (hrun : p.run (norFlash L.sectorSize) m = (some a, m')) : ∃ d, d.mem = m' ∧ post a d := by
  obtain ⟨b, d, hrun', hpost⟩ := hens.run (hens.guarded fun c _ hc => hc.keepsInside)
  obtain ⟨hvalue, hmem⟩ := run_faultyFlash_healthy (norFlash L.sectorSize) p m false
  rw [hrun', hrun] at hvalue hmem
  obtain rfl : b = a := Option.some.inj hvalue
  exact ⟨d, hmem, hpost⟩

/-- A write that succeeds on the healthy driver leaves the value, and its record went to cells that
accepted it. -/
theorem Running.norWrite_ok (hr : Running L s.nvs s.flash log) (hkey : key ≠ fwNvsKeyEmpty)
    (hlen : data.length < 2 ^ 16) (hrefused : ¬ WriteRefused T L data)
    (hstep : s.norStep T L (.write key data) [] = some (.status .ok, t)) :
    (∃ log', Running L t.nvs t.flash log' ∧ ReadsOneOf log' key [data]) ∧
      TailAccepts L s key data := by
  have hD := norFlash_contract L (fun c (_ : FaultyFlash) (h : KeepsInside L c) => h)
    (fun c (h : L.Allows c) => h)
  have hrun := (norStep_write T L s key data).mp hstep
  have hr' : Running L s.nvs (faultyView.mem ⟨s.flash, [], false⟩) log := hr
  constructor
  · obtain ⟨d, hmem, base, log', -, hrunning, hends⟩ :=
      post_of_norFlash (fwNvsWrite_ensures T hD hr' (Or.inl hlen)) hrun
    rw [if_pos rfl] at hends
    exact ⟨log', hmem ▸ hrunning, hends.readsOneOf⟩
  · have htotal := writeTotal_eq hlen
    have hfit := hr.bank.fits
    rw [TailAccepts, hr.writeOffset_eq, htotal]
    by_cases hroom : L.sectorSize < sectorHdrSize + logSize log + (8 + alignUp4 data.length)
    · exact Or.inl hroom
    · have hroom' := Nat.not_lt.mp hroom
      rw [hr.nvs_eq, fwNvsWrite_room T hkey hrefused (by rwa [Nvs.writeOffset_eq hlen hfit])]
        at hrun
      obtain ⟨d, -, -, hok⟩ :=
        post_of_norFlash (appendRecord_ensures hD hr'.bank hkey hlen hroom') hrun
      exact Or.inr (hok rfl).1

/-- After a value was written and is read back, its length fits the header of a record. -/
theorem length_lt_of_read (h : ∀ outData, s.norRead L key outData =
    some (readValue (some data) outData)) : data.length < 2 ^ 16 := by
  refine fwNvsRead_outLen _ _ _ _ _ (h data) ?_
  rw [readValue, if_neg (Nat.lt_irrefl _)]

/-- In every state that interrupted calls may leave, a later write recovers exactly when its length
fits the header and its record goes to cells that accept it. -/
theorem fwNvsWrite_recovers_iff (T : Target) (L : BankLayout) {s : NvsSystem}
    (hs : NorReached T L s) {key : UInt16} (hkey : key ≠ fwNvsKeyEmpty) {data : List UInt8}
    (hfits : FitsBesideLive L s data) :
    Recovers T L s key data ↔ data.length < 2 ^ 16 ∧ TailAccepts L s key data := by
  obtain ⟨log, hr⟩ := hs.running
  obtain ⟨hrefused, hover⟩ := hr.fitsBesideLive (T := T) hfits
  constructor
  · rintro ⟨t, hstep, hread⟩
    have hlen := length_lt_of_read hread
    exact ⟨hlen, (hr.norWrite_ok hkey hlen hrefused hstep).2⟩
  · rintro ⟨hlen, htail⟩
    rw [TailAccepts, hr.writeOffset_eq, writeTotal_eq hlen] at htail
    obtain ⟨nvs', m', hrun⟩ := fwNvsWrite_norFlash hr.bank hkey hlen hover hrefused htail
    rw [← hr.nvs_eq] at hrun
    have hstep := (norStep_write T L s key data).mpr hrun
    obtain ⟨⟨log', hr', hvalue⟩, -⟩ := hr.norWrite_ok hkey hlen hrefused hstep
    refine ⟨_, hstep, fun outData => ?_⟩
    obtain ⟨v, hv, hread⟩ := hr'.read (s := ⟨nvs', m'⟩) hvalue
    obtain rfl : v = data := List.mem_singleton.mp hv
    rw [hr'.norRead_eq hkey]
    exact hread outData

/-- A program that ends with an error behind its first byte. -/
def tornFault : DriverFault := ⟨.errIo, ioFault.status_ne, [], 1⟩

theorem sampleStore_torn : (sampleStore.norStep target32 sampleLayout (.write 1 [1])
    [some tornFault]).isSome = true := by decide +kernel

/-- The store after a write that programmed one byte of its record. -/
def tornStore : NvsSystem := (Option.get _ sampleStore_torn).2

theorem tornStore_reached : NorReached target32 sampleLayout tornStore :=
  ⟨sampleStore, [(.write 1 [1], [some tornFault])], sampleStore_fresh,
    Run.single ⟨Or.inl (by decide), _, (Option.some_get sampleStore_torn).symm⟩⟩

theorem tornStore_mounts : (tornStore.norStep target32 sampleLayout (.remount sampleStore.nvs)
    []).isSome = true := by decide +kernel

/-- The same store when the power was lost at that byte, after the next mount. -/
def remountedStore : NvsSystem := (Option.get _ tornStore_mounts).2

theorem remountedStore_reached : NorReached target32 sampleLayout remountedStore := by
  obtain ⟨s0, calls, hfresh, hrun⟩ := tornStore_reached
  have hmount : NorStep target32 sampleLayout tornStore (.remount sampleStore.nvs, [])
      remountedStore := ⟨rfl, _, (Option.some_get tornStore_mounts).symm⟩
  exact ⟨s0, _, hfresh, hrun.snoc hmount⟩

theorem fwNvsWrite_recovers_iff_sample :
    Recovers target32 sampleLayout remountedStore 1 [1] ↔
      [(1 : UInt8)].length < 2 ^ 16 ∧ TailAccepts sampleLayout remountedStore 1 [1] :=
  fwNvsWrite_recovers_iff target32 sampleLayout remountedStore_reached (by decide)
    (by decide +kernel)

/-- One byte of a record of key 1 is enough that no record of key 2 can follow, in the running
instance and after a mount. -/
theorem fwNvsWrite_wedged :
    (NorReached target32 sampleLayout tornStore ∧ FitsBesideLive sampleLayout tornStore [2] ∧
      ¬ Recovers target32 sampleLayout tornStore 2 [2]) ∧
    NorReached target32 sampleLayout remountedStore ∧
      FitsBesideLive sampleLayout remountedStore [2] ∧
      ¬ Recovers target32 sampleLayout remountedStore 2 [2] := by
  have hfails : ∀ {s : NvsSystem}, (s.norStep target32 sampleLayout (.write 2 [2]) []).map
      Prod.fst = some (.status .errIo) → ¬ Recovers target32 sampleLayout s 2 [2] := by
    rintro s hreply ⟨t, hstep, -⟩
    rw [hstep, Option.map_some] at hreply
    cases hreply
  exact ⟨⟨tornStore_reached, by decide +kernel, hfails (by decide +kernel)⟩,
    remountedStore_reached, by decide +kernel, hfails (by decide +kernel)⟩

end Recovery

end ZeroEmbedded.Nvs
