import ZeroEmbedded.Storage.NvsUpdate

/-!
# Runs of a store

A system is an instance together with its flash. An operation calls one public
function on the never-failing device; a remount calls `fw_nvs_init` with a
fresh instance. Every run of a freshly formatted store keeps the instance
mounted, and the log has the values that the successful calls of the run left.
-/

namespace ZeroEmbedded.Nvs

open Foundation

/-- An instance and the flash it works on. -/
structure NvsSystem where
  nvs : FwNvs
  flash : Memory

/-- A call of a public function. -/
inductive NvsOp
  | write (key : UInt16) (data : List UInt8)
  | read (key : UInt16) (outData : List UInt8)
  | delete (key : UInt16)
  | remount (fresh : FwNvs)

/-- What a call returns to its caller. -/
inductive NvsReply
  | status (st : FwStatus)
  | value (result : ReadResult)
  deriving DecidableEq

/-- The program of a call. -/
def NvsOp.program (T : Target) (L : BankLayout) (nvs : FwNvs) : NvsOp → FlashM (NvsReply × FwNvs)
  | .write key data => do
      let (st, nvs) ← fwNvsWrite T nvs key data
      return (.status st, nvs)
  | .read key outData => do
      let result ← fwNvsRead nvs key outData
      return (.value result, nvs)
  | .delete key => do
      let (st, nvs) ← fwNvsDelete nvs key
      return (.status st, nvs)
  | .remount fresh => do
      let (st, nvs) ← fwNvsInit T fresh ⟨L.sectorSize⟩ (L.addr 0) (L.addr 1)
      return (.status st, nvs)

/-- One call on the never-failing device; `none` when the call does not return. -/
def NvsSystem.step (T : Target) (L : BankLayout) (s : NvsSystem) (op : NvsOp) :
    Option (NvsReply × NvsSystem) :=
  match (op.program T L s.nvs).run (idealFlash L.sectorSize) s.flash with
  | (some (reply, nvs), flash) => some (reply, ⟨nvs, flash⟩)
  | (none, _) => none

/-- The calls of a run with their replies, in order. -/
abbrev NvsTrace := List (NvsOp × NvsReply)

/-- A run: one call after the other. -/
def NvsSystem.runOps (T : Target) (L : BankLayout) (s : NvsSystem) :
    List NvsOp → Option (NvsTrace × NvsSystem)
  | [] => some ([], s)
  | op :: ops => do
      let (reply, t) ← s.step T L op
      let (trace, u) ← t.runOps T L ops
      return ((op, reply) :: trace, u)

/-- What `fw_nvs_read` returns in this state. -/
def NvsSystem.read (L : BankLayout) (s : NvsSystem) (key : UInt16) (outData : List UInt8) :
    Option ReadResult :=
  ((fwNvsRead s.nvs key outData).run (idealFlash L.sectorSize) s.flash).1

/-- A store right after `fw_nvs_format`, or after `fw_nvs_init` on erased flash. -/
def FreshStore (T : Target) (L : BankLayout) (s : NvsSystem) : Prop :=
  (∃ nvs m, nvs.flash = ⟨L.sectorSize⟩ ∧ nvs.bankAddr = L.addr ∧
    (fwNvsFormat nvs).run (idealFlash L.sectorSize) m = (some (.ok, s.nvs), s.flash)) ∨
  ∃ fresh m, (∀ b, m.Holds (L.addr b) L.sectorSize []) ∧
    (fwNvsInit T fresh ⟨L.sectorSize⟩ (L.addr 0) (L.addr 1)).run (idealFlash L.sectorSize) m =
      (some (.ok, s.nvs), s.flash)

/-- How one call changes the value of a key. -/
def lastValueStep (key : UInt16) (value : Option (List UInt8)) :
    NvsOp × NvsReply → Option (List UInt8)
  | (.write k data, .status .ok) => if k = key then some data else value
  | (.delete k, .status .ok) => if k = key then none else value
  | _ => value

/-- The value that the last successful write or delete of a key left behind. -/
def lastValue (key : UInt16) (value : Option (List UInt8)) (trace : NvsTrace) :
    Option (List UInt8) :=
  trace.foldl (lastValueStep key) value

/-- The key is in use and the length fits the 16-bit field. -/
def NvsOp.WellFormed : NvsOp → Prop
  | .write key data => key ≠ fwNvsKeyEmpty ∧ data.length < 2 ^ 16
  | .read key _ => key ≠ fwNvsKeyEmpty
  | .delete key => key ≠ fwNvsKeyEmpty
  | .remount _ => True

instance (op : NvsOp) : Decidable op.WellFormed := by
  cases op <;> unfold NvsOp.WellFormed <;> infer_instance

def NvsOp.isDelete : NvsOp → Bool
  | .delete _ => true
  | _ => false

section LiveRecords

/-- The records from an offset up to `stop`: each header with all bytes of its record. -/
def recordsFrom (m : Memory) (base stop : Nat) : Nat → Nat → List (RecordHdr × List UInt8)
  | 0, _ => []
  | fuel + 1, off =>
      if off < stop then
        let hdr := RecordHdr.ofBytes (m.bytesAt (base + off) recordHdrSize)
        (hdr, m.bytesAt (base + off) (recTotal hdr)) ::
          recordsFrom m base stop fuel (off + recTotal hdr)
      else []

/-- The live records of the active bank. -/
def NvsSystem.liveRecords (s : NvsSystem) : List (RecordHdr × List UInt8) :=
  KeyedLog.survivors (fun r => r.1.key) (fun r => r.1.status == fwNvsStatusValid)
    (recordsFrom s.flash (s.nvs.bankAddr s.nvs.activeBank) s.nvs.writeOffset s.nvs.writeOffset
      sectorHdrSize)

/-- A delete of the key has nothing to do, or finds room for its tombstone behind
the records, or behind the live records. -/
def deleteFits (L : BankLayout) (s : NvsSystem) (key : UInt16) : Bool :=
  s.liveRecords.all (fun r => r.1.key != key) ||
    s.nvs.writeOffset + recordHdrSize ≤ L.sectorSize ||
    sectorHdrSize + (s.liveRecords.map fun r => r.2.length).sum + recordHdrSize ≤ L.sectorSize

/-- Every delete of the run fits. -/
def deletesFit (T : Target) (L : BankLayout) (s : NvsSystem) : List NvsOp → Bool
  | [] => true
  | op :: ops =>
      (match op with
        | .delete key => deleteFits L s key
        | _ => true) &&
      match s.step T L op with
      | some (_, t) => deletesFit T L t ops
      | none => true

end LiveRecords

section LiveRecords

variable {L : BankLayout} {nvs : FwNvs} {m : Memory} {log : List NvsRecord}

theorem recordsFrom_eq {base size off stop fuel : Nat} {slack : List UInt8}
    (h : LogAt m base size off log slack) (hstop : stop = off + logSize log)
    (hfuel : log.length < fuel) :
    recordsFrom m base stop fuel off = log.map fun r => (r.hdr, r.bytes) := by
  induction log generalizing fuel off with
  | nil =>
      obtain ⟨fuel, rfl⟩ : ∃ k, fuel = k + 1 := ⟨fuel - 1, by omega⟩
      have hend : ¬ off < stop := by rw [hstop, logSize_nil]; omega
      rw [recordsFrom, if_neg hend, List.map_nil]
  | cons r rest ih =>
      obtain ⟨fuel, rfl⟩ : ∃ k, fuel = k + 1 := ⟨fuel - 1, by omega⟩
      have hge := r.size_ge
      rw [logSize_cons] at hstop
      have hin : off < stop := by omega
      have hrest := ih h.tail (by omega) (by simpa using hfuel)
      rw [recordsFrom, if_pos hin, h.head_hdr]
      simp only [r.recTotal_hdr, h.head_bytes, hrest, List.map_cons]

theorem BankLog.liveRecords_eq {b : Fin 2} {seq : UInt32} (h : BankLog L m b seq log) :
    NvsSystem.liveRecords ⟨ram L b seq log, m⟩ = (live log).map fun r => (r.hdr, r.bytes) := by
  obtain ⟨slack, hlog⟩ := h.logAt
  have hlen := length_le_logSize log
  have hrecords : recordsFrom m (L.addr b) (sectorHdrSize + logSize log)
      (sectorHdrSize + logSize log) sectorHdrSize = log.map fun r => (r.hdr, r.bytes) :=
    recordsFrom_eq hlog rfl (by rw [sectorHdrSize]; omega)
  rw [NvsSystem.liveRecords, ram_bankAddr, ram_activeBank, ram_writeOffset, hrecords,
    KeyedLog.survivors_map]
  rfl

theorem Mounted.liveRecords_eq (h : Mounted L nvs m log) :
    NvsSystem.liveRecords ⟨nvs, m⟩ = (live log).map fun r => (r.hdr, r.bytes) := by
  rw [h.nvs_eq]
  exact h.flash.active.bankLog.liveRecords_eq

/-- A key has a value exactly when a live record has the key. -/
theorem valueOf_eq_none_iff (log : List NvsRecord) (key : UInt16) :
    valueOf log key = none ↔ ∀ r ∈ live log, r.key ≠ key := by
  rw [valueOf, Option.map_eq_none_iff, ← KeyedLog.latest_survivors, KeyedLog.latest_eq_none_iff]

/-- In a mounted state `deleteFits` says that a tombstone is not needed or fits. -/
theorem Mounted.deleteFits_iff (h : Mounted L nvs m log) (key : UInt16) :
    deleteFits L ⟨nvs, m⟩ key = true ↔ valueOf log key = none ∨ TombstoneFits L log := by
  have hwo : nvs.writeOffset = sectorHdrSize + logSize log := by rw [h.nvs_eq, ram_writeOffset]
  have hsum : (((live log).map fun r => (r.hdr, r.bytes)).map fun r => r.2.length).sum =
      logSize (live log) := by
    rw [List.map_map, logSize]
    rfl
  have hall : (((live log).map fun r => (r.hdr, r.bytes)).all fun r => r.1.key != key) = true ↔
      valueOf log key = none := by
    rw [valueOf_eq_none_iff]
    simp [NvsRecord.key]
  rw [deleteFits, h.liveRecords_eq, hsum, hwo, Bool.or_assoc, Bool.or_eq_true, hall,
    TombstoneFits]
  simp only [Bool.or_eq_true, decide_eq_true_eq]

end LiveRecords

section Runs

variable {T : Target} {L : BankLayout} {s : NvsSystem} {log : List NvsRecord}

/-- A fresh store is mounted and empty. -/
theorem FreshStore.mounted (h : FreshStore T L s) : Mounted L s.nvs s.flash [] := by
  have hsound : Sound [] := fun r hr => absurd hr List.not_mem_nil
  have hempty : ∀ m, Mounted L (ram L 0 1 []) (formatImage L m) [] := fun m =>
    (formatImage_onFlash L m).mounted hsound
  rcases h with ⟨nvs, m, hf, ha, hrun⟩ | ⟨fresh, m, herased, hrun⟩
  · rw [(fwNvsFormat_yields m hf ha).run_eq] at hrun
    obtain ⟨hnvs, hflash⟩ : ram L 0 1 [] = s.nvs ∧ formatImage L m = s.flash := by simpa using hrun
    rw [← hnvs, ← hflash]
    exact hempty m
  · have hinvalid : ∀ b, (hdrAt m (L.addr b)).valid = false := by
      intro b
      have hS : 0 + sectorHdrSize ≤ L.sectorSize := by
        have := L.sectorSize_ge
        rw [sectorHdrSize]
        omega
      rw [hdrAt, (herased b).bytesAt_erased (Nat.add_zero _).symm (Nat.le_refl _) hS]
      exact SectorHdr.ofBytes_erased_valid
    rw [(fwNvsInit_formats T fresh (hinvalid 0) (hinvalid 1)).run_eq] at hrun
    obtain ⟨hnvs, hflash⟩ : ram L 0 1 [] = s.nvs ∧ formatImage L m = s.flash := by simpa using hrun
    rw [← hnvs, ← hflash]
    exact hempty m

theorem Mounted.read_eq (h : Mounted L s.nvs s.flash log) {key : UInt16}
    (hkey : key ≠ fwNvsKeyEmpty) (outData : List UInt8) :
    s.read L key outData = some (readValue (valueOf log key) outData) := by
  rw [NvsSystem.read, (h.read hkey outData).run_eq]

theorem step_of_yields {op : NvsOp} {reply : NvsReply} {nvs : FwNvs} {m : Memory}
    (h : ∃ cs, FlashYields L.sectorSize s.flash (op.program T L s.nvs) cs (reply, nvs) m) :
    s.step T L op = some (reply, ⟨nvs, m⟩) := by
  obtain ⟨cs, h⟩ := h
  rw [NvsSystem.step, h.run_eq]

/-- A well-formed call of a mounted instance returns, leaves it mounted and changes
the values as its reply says. -/
theorem Mounted.step (h : Mounted L s.nvs s.flash log) {op : NvsOp} (hop : op.WellFormed)
    (hfit : ∀ key, op = .delete key → deleteFits L s key = true) :
    ∃ reply t log', s.step T L op = some (reply, t) ∧ Mounted L t.nvs t.flash log' ∧
      ∀ key, valueOf log' key = lastValueStep key (valueOf log key) (op, reply) := by
  cases op with
  | write key data =>
      obtain ⟨cs, st, nvs', m', log', hrun, hmounted, hvalue⟩ := h.write T hop.1 hop.2
      refine ⟨.status st, ⟨nvs', m'⟩, log', step_of_yields ?_, hmounted, fun k => ?_⟩
      · exact ⟨_, hrun.bind_observing (Program.Yields.ret _ _)⟩
      · rw [hvalue]
        by_cases hst : st = .ok
        · subst hst
          simp [lastValueStep, Function.update_apply, eq_comm]
        · rw [if_neg hst]
          cases st <;> first | rfl | exact absurd rfl hst
  | read key outData =>
      refine ⟨.value (readValue (valueOf log key) outData), s, log, step_of_yields ?_, h,
        fun k => rfl⟩
      exact ⟨_, (h.read hop outData).bind_observing (Program.Yields.ret _ _)⟩
  | delete key =>
      by_cases hval : valueOf log key = none
      · have hmiss := fwNvsDelete_missing h.flash.active h.sound hop hval
        rw [← h.nvs_eq] at hmiss
        refine ⟨.status .errNotFound, s, log, step_of_yields ?_, h, fun k => rfl⟩
        exact ⟨_, hmiss.bind_observing (Program.Yields.ret _ _)⟩
      · have hroom := ((h.deleteFits_iff key).mp (hfit key rfl)).resolve_left hval
        obtain ⟨cs, nvs', m', log', hrun, hmounted, hvalue, _⟩ := h.delete hop hval hroom
        refine ⟨.status .ok, ⟨nvs', m'⟩, log', step_of_yields ?_, hmounted, fun k => ?_⟩
        · exact ⟨_, hrun.bind_observing (Program.Yields.ret _ _)⟩
        · rw [hvalue]
          simp [lastValueStep, Function.update_apply, eq_comm]
  | remount fresh =>
      refine ⟨.status .ok, s, log, step_of_yields ?_, h, fun k => rfl⟩
      exact ⟨_, (h.remount T fresh).bind_observing (Program.Yields.ret _ _)⟩

/-- Every run of well-formed calls whose deletes fit returns and ends mounted, with the
values that the run left behind. -/
theorem Mounted.runOps (h : Mounted L s.nvs s.flash log) {ops : List NvsOp}
    (hops : ∀ op ∈ ops, op.WellFormed) (hfit : deletesFit T L s ops = true) :
    ∃ trace t log', s.runOps T L ops = some (trace, t) ∧ Mounted L t.nvs t.flash log' ∧
      ∀ key, valueOf log' key = lastValue key (valueOf log key) trace := by
  induction ops generalizing s log with
  | nil => exact ⟨[], s, log, rfl, h, fun _ => rfl⟩
  | cons op ops ih =>
      simp only [deletesFit, Bool.and_eq_true] at hfit
      obtain ⟨hhead, htail⟩ := hfit
      obtain ⟨reply, t, log', hstep, hmounted, hvalue⟩ :=
        h.step (T := T) (hops op List.mem_cons_self) fun key hkey => by simpa [hkey] using hhead
      rw [hstep] at htail
      obtain ⟨trace, u, log'', hrun, hmounted', hvalue'⟩ :=
        ih hmounted (fun o ho => hops o (List.mem_cons_of_mem _ ho)) htail
      refine ⟨(op, reply) :: trace, u, log'', ?_, hmounted', fun key => ?_⟩
      · rw [NvsSystem.runOps, hstep]
        simp [hrun]
      · rw [hvalue', hvalue]
        rfl

end Runs

section Store

variable {T : Target} {L : BankLayout} {s : NvsSystem}

theorem deletesFit_of_noDelete {ops : List NvsOp} (h : ∀ op ∈ ops, op.isDelete = false) :
    deletesFit T L s ops = true := by
  induction ops generalizing s with
  | nil => rfl
  | cons op ops ih =>
      have hop := h op List.mem_cons_self
      have hrest : ∀ t, deletesFit T L t ops = true := fun t =>
        ih fun o ho => h o (List.mem_cons_of_mem _ ho)
      simp only [deletesFit, Bool.and_eq_true]
      constructor
      · cases op <;> first | rfl | exact absurd hop.symm Bool.false_ne_true
      · split
        · exact hrest _
        · rfl

/-- A store of two adjacent banks of 256 bytes. -/
def sampleLayout : BankLayout where
  sectorSize := 256
  addr := ![0, 256]
  sectorSize_ge := by decide
  addr_le := by decide
  disjoint := by decide

/-- The store that `fw_nvs_format` makes of erased flash. -/
def sampleStore : NvsSystem := ⟨ram sampleLayout 0 1 [], formatImage sampleLayout fun _ => 0xFF⟩

theorem sampleStore_fresh : FreshStore target32 sampleLayout sampleStore :=
  Or.inl ⟨ram sampleLayout 0 1 [], fun _ => 0xFF, rfl, rfl,
    (fwNvsFormat_yields _ rfl rfl).run_eq⟩

/-- After any run of writes, reads and remounts, every key reads as its last
successful write, and a remount rebuilds the running instance. -/
theorem fwNvsRead_last_write (T : Target) (L : BankLayout) {s : NvsSystem} {ops : List NvsOp}
    (hfresh : FreshStore T L s) (hops : ∀ op ∈ ops, op.WellFormed ∧ op.isDelete = false) :
    ∃ trace t, s.runOps T L ops = some (trace, t) ∧
      (∀ key, key ≠ fwNvsKeyEmpty → ∀ outData,
        t.read L key outData = some (readValue (lastValue key none trace) outData)) ∧
      ∀ fresh, (fwNvsInit T fresh ⟨L.sectorSize⟩ (L.addr 0) (L.addr 1)).run
        (idealFlash L.sectorSize) t.flash = (some (.ok, t.nvs), t.flash) := by
  obtain ⟨trace, t, log, hrun, hmounted, hvalue⟩ := hfresh.mounted.runOps
    (fun op ho => (hops op ho).1) (deletesFit_of_noDelete fun op ho => (hops op ho).2)
  refine ⟨trace, t, hrun, fun key hkey outData => ?_,
    fun fresh => (hmounted.remount T fresh).run_eq⟩
  rw [hmounted.read_eq hkey, hvalue]
  rfl

theorem fwNvsRead_last_write_sample :
    ∃ trace t, sampleStore.runOps target32 sampleLayout
        [.write 1 [0xAB], .remount sampleStore.nvs, .write 1 [], .read 1 [0]] = some (trace, t) ∧
      (∀ key, key ≠ fwNvsKeyEmpty → ∀ outData,
        t.read sampleLayout key outData = some (readValue (lastValue key none trace) outData)) ∧
      ∀ fresh, (fwNvsInit target32 fresh ⟨256⟩ 0 256).run (idealFlash 256) t.flash =
        (some (.ok, t.nvs), t.flash) :=
  fwNvsRead_last_write target32 sampleLayout sampleStore_fresh (by decide)

end Store

section Delete

variable {T : Target} {L : BankLayout} {s t : NvsSystem}

theorem deletesFit_of_append {xs ys : List NvsOp} (h : deletesFit T L s (xs ++ ys) = true) :
    deletesFit T L s xs = true := by
  induction xs generalizing s with
  | nil => rfl
  | cons op xs ih =>
      simp only [List.cons_append, deletesFit, Bool.and_eq_true] at h ⊢
      refine ⟨h.1, ?_⟩
      cases hstep : s.step T L op with
      | none => rfl
      | some p =>
          rw [hstep] at h
          exact ih h.2

/-- The rest of a run fits from the state that its first part reaches. -/
theorem deletesFit_rest {xs ys : List NvsOp} {trace : NvsTrace}
    (hrun : s.runOps T L xs = some (trace, t)) (h : deletesFit T L s (xs ++ ys) = true) :
    deletesFit T L t ys = true := by
  induction xs generalizing s trace with
  | nil =>
      obtain ⟨_, rfl⟩ : [] = trace ∧ s = t := by simpa [NvsSystem.runOps] using hrun
      exact h
  | cons op xs ih =>
      simp only [List.cons_append, deletesFit, Bool.and_eq_true] at h
      rw [NvsSystem.runOps] at hrun
      cases hstep : s.step T L op with
      | none => simp [hstep] at hrun
      | some p =>
          obtain ⟨reply, u⟩ := p
          rw [hstep] at h hrun
          cases hrest : u.runOps T L xs with
          | none => simp [hrest] at hrun
          | some q =>
              obtain ⟨trace', v⟩ := q
              obtain ⟨_, rfl⟩ : (op, reply) :: trace' = trace ∧ v = t := by simpa [hrest] using hrun
              exact ih hrest h.2

theorem lastValue_append (key : UInt16) (value : Option (List UInt8)) (xs ys : NvsTrace) :
    lastValue key value (xs ++ ys) = lastValue key (lastValue key value xs) ys := List.foldl_append

/-- A deleted key stays without a value until it is written. -/
theorem lastValue_none {key : UInt16} {trace : NvsTrace}
    (h : ∀ data, (NvsOp.write key data, NvsReply.status .ok) ∉ trace) :
    lastValue key none trace = none := by
  induction trace with
  | nil => rfl
  | cons e trace ih =>
      have hstep : lastValueStep key none e = none := by
        unfold lastValueStep
        split
        · next k data =>
            have hk : k ≠ key := fun hk => h data (by simp [hk])
            rw [if_neg hk]
        · exact ite_self none
        · rfl
      rw [lastValue, List.foldl_cons, hstep]
      exact ih fun data hmem => h data (List.mem_cons_of_mem _ hmem)

/-- A delete that fits and succeeds ends with the tombstone. -/
theorem Mounted.delete_ends {log : List NvsRecord} (h : Mounted L s.nvs s.flash log)
    {key : UInt16} (hkey : key ≠ fwNvsKeyEmpty) (hfit : deleteFits L s key = true)
    (hstep : s.step T L (.delete key) = some (.status .ok, t)) :
    EndsWithTombstone L key (Program.effects (idealFlash L.sectorSize) FlashCall.changes
      (fwNvsDelete s.nvs key) s.flash) t.nvs := by
  by_cases hval : valueOf log key = none
  · have hmiss := fwNvsDelete_missing h.flash.active h.sound hkey hval
    rw [← h.nvs_eq] at hmiss
    have hreply : s.step T L (.delete key) = some (.status .errNotFound, s) :=
      step_of_yields ⟨_, hmiss.bind_observing (Program.Yields.ret _ _)⟩
    rw [hreply] at hstep
    simp at hstep
  · have hroom := ((h.deleteFits_iff key).mp hfit).resolve_left hval
    obtain ⟨cs, nvs', m', _, hrun, _, _, hends⟩ := h.delete hkey hval hroom
    have hreply : s.step T L (.delete key) = some (.status .ok, ⟨nvs', m'⟩) :=
      step_of_yields ⟨_, hrun.bind_observing (Program.Yields.ret _ _)⟩
    obtain rfl : (⟨nvs', m'⟩ : NvsSystem) = t := by
      rw [hreply] at hstep
      simpa using hstep
    rw [hrun.effects_eq]
    exact hends

/-- A delete that does not fit succeeds all the same and leaves the sector. -/
theorem Mounted.delete_overflows {log : List NvsRecord} (h : Mounted L s.nvs s.flash log)
    {key : UInt16} (hkey : key ≠ fwNvsKeyEmpty) (hfit : deleteFits L s key = false) :
    ∃ u, s.step T L (.delete key) = some (.status .ok, u) ∧ L.sectorSize < u.nvs.writeOffset := by
  have hno : ¬ (valueOf log key = none ∨ TombstoneFits L log) := fun hor => by
    rw [(h.deleteFits_iff key).mpr hor] at hfit
    exact Bool.noConfusion hfit
  obtain ⟨hval, hroom⟩ := not_or.mp hno
  obtain ⟨hroom1, hroom2⟩ := not_or.mp hroom
  have hrun := fwNvsDelete_compacts h.flash.active h.sound hkey hval (Nat.not_le.mp hroom1)
  rw [← h.nvs_eq] at hrun
  exact ⟨_, step_of_yields ⟨_, hrun.bind_observing (Program.Yields.ret _ _)⟩,
    Nat.not_le.mp hroom2⟩

/-- In every run whose deletes fit, a successful delete programs its tombstone inside the
active bank, the key stays deleted until it is written, and other keys keep their values. -/
theorem fwNvsDelete_durable (T : Target) (L : BankLayout) {s : NvsSystem} {pre post : List NvsOp}
    {key : UInt16} (hfresh : FreshStore T L s) (hpre : ∀ op ∈ pre, op.WellFormed)
    (hkey : key ≠ fwNvsKeyEmpty) (hpost : ∀ op ∈ post, op.WellFormed)
    (hfit : deletesFit T L s (pre ++ .delete key :: post) = true) :
    ∃ trace t reply u trace' v,
      s.runOps T L pre = some (trace, t) ∧ t.step T L (.delete key) = some (reply, u) ∧
      u.runOps T L post = some (trace', v) ∧
      (reply = .status .ok →
        EndsWithTombstone L key (Program.effects (idealFlash L.sectorSize) FlashCall.changes
          (fwNvsDelete t.nvs key) t.flash) u.nvs ∧
        u.nvs.writeOffset ≤ L.sectorSize ∧ v.nvs.writeOffset ≤ L.sectorSize ∧
        ((∀ data, (NvsOp.write key data, NvsReply.status .ok) ∉ trace') →
          ∀ outData, v.read L key outData = some ⟨.errNotFound, outData, none⟩) ∧
        (∀ other, other ≠ key → other ≠ fwNvsKeyEmpty →
          ∀ outData, u.read L other outData = t.read L other outData) ∧
        ∀ other, other ≠ fwNvsKeyEmpty → ∀ outData, v.read L other outData =
          some (readValue
            (lastValue other none (trace ++ (.delete key, reply) :: trace')) outData)) := by
  obtain ⟨trace, t, log, hrun, ht, hvalue⟩ := hfresh.mounted.runOps hpre (deletesFit_of_append hfit)
  have hrest := deletesFit_rest hrun hfit
  simp only [deletesFit, Bool.and_eq_true] at hrest
  have hdel : ∀ k, NvsOp.delete key = .delete k → deleteFits L t k = true := fun k hk => by
    cases hk
    exact hrest.1
  have hop : (NvsOp.delete key).WellFormed := hkey
  obtain ⟨reply, u, log', hstep, hu, hvalue'⟩ := ht.step (T := T) hop hdel
  rw [hstep] at hrest
  obtain ⟨trace', v, log'', hrun', hv, hvalue''⟩ := hu.runOps hpost hrest.2
  refine ⟨trace, t, reply, u, trace', v, hrun, hstep, hrun', ?_⟩
  rintro rfl
  refine ⟨?_, hu.writeOffset_le, hv.writeOffset_le, fun hno outData => ?_,
    fun other hne hother outData => ?_, fun other hother outData => ?_⟩
  · exact ht.delete_ends hkey hrest.1 hstep
  · have hnone : valueOf log' key = none := by rw [hvalue', lastValueStep, if_pos rfl]
    rw [hv.read_eq hkey, hvalue'', hnone, lastValue_none hno]
    rfl
  · rw [hu.read_eq hother, ht.read_eq hother, hvalue', lastValueStep, if_neg (Ne.symm hne)]
  · rw [hv.read_eq hother, hvalue'', hvalue', hvalue, lastValue_append]
    rfl

theorem fwNvsDelete_durable_sample :
    ∃ trace t reply u trace' v,
      sampleStore.runOps target32 sampleLayout [.write 1 [0xAB]] = some (trace, t) ∧
      t.step target32 sampleLayout (.delete 1) = some (reply, u) ∧
      u.runOps target32 sampleLayout [.remount sampleStore.nvs] = some (trace', v) ∧
      (reply = .status .ok →
        EndsWithTombstone sampleLayout 1 (Program.effects (idealFlash 256) FlashCall.changes
          (fwNvsDelete t.nvs 1) t.flash) u.nvs ∧
        u.nvs.writeOffset ≤ 256 ∧ v.nvs.writeOffset ≤ 256 ∧
        ((∀ data, (NvsOp.write 1 data, NvsReply.status .ok) ∉ trace') →
          ∀ outData, v.read sampleLayout 1 outData = some ⟨.errNotFound, outData, none⟩) ∧
        (∀ other, other ≠ 1 → other ≠ fwNvsKeyEmpty →
          ∀ outData, u.read sampleLayout other outData = t.read sampleLayout other outData) ∧
        ∀ other, other ≠ fwNvsKeyEmpty → ∀ outData, v.read sampleLayout other outData =
          some (readValue
            (lastValue other none (trace ++ (.delete 1, reply) :: trace')) outData)) :=
  fwNvsDelete_durable target32 sampleLayout sampleStore_fresh (by decide) (by decide) (by decide)
    (by decide +kernel)

/-- A tombstone that finds no room behind the live records lies outside the sector, and
the next mount brings the deleted key back. -/
theorem fwNvsDelete_overflows :
    FreshStore target32 sampleLayout sampleStore ∧
    (sampleStore.runOps target32 sampleLayout
        [.write 2 (List.replicate 220 0), .write 1 [7], .delete 1]).map
      (fun r => (r.1.map Prod.snd, r.2.nvs.writeOffset)) =
        some ([.status .ok, .status .ok, .status .ok], 264) ∧
    (sampleStore.runOps target32 sampleLayout
        [.write 2 (List.replicate 220 0), .write 1 [7], .delete 1,
          .remount sampleStore.nvs]).bind (fun r => r.2.read sampleLayout 1 [0]) =
        some ⟨.ok, [7], some 1⟩ :=
  ⟨sampleStore_fresh, by decide +kernel, by decide +kernel⟩

end Delete

end ZeroEmbedded.Nvs
