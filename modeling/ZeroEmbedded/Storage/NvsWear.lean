import ZeroEmbedded.Storage.NvsInterrupted

/-!
# Wear of the two banks

Every compaction erases both banks once, and nothing else erases them. A
compaction comes when the records fill the bank, so the erases are paid for by
the bytes that the calls have offered. Between two erases no cell is programmed
twice.
-/

namespace ZeroEmbedded.Nvs

open Foundation

/-- `fw_nvs_get_stats`, with `*out_used_bytes` and `*out_free_bytes`. -/
def fwNvsGetStats (nvs : FwNvs) : FwStatus × Nat × Nat :=
  (.ok, nvs.writeOffset,
    if nvs.flash.sectorSize > nvs.writeOffset then nvs.flash.sectorSize - nvs.writeOffset else 0)

/-- The erases of a sector. -/
def eraseCount (a : Nat) (cs : List FlashCall) : Nat :=
  cs.countP fun c => match c with
    | .eraseSector x => x == a
    | _ => false

/-- The changes that a call makes to the flash. -/
def NvsOp.changes (T : Target) (L : BankLayout) (s : NvsSystem) (op : NvsOp) : List FlashCall :=
  (op.program T L s.nvs).effects (idealFlash L.sectorSize) FlashCall.changes s.flash

/-- The changes that a run makes to the flash. -/
def NvsSystem.changes (T : Target) (L : BankLayout) (s : NvsSystem) : List NvsOp → List FlashCall
  | [] => []
  | op :: ops =>
      op.changes T L s ++
        match s.step T L op with
        | some (_, t) => t.changes T L ops
        | none => []

/-- A run on NOR flash, whose programs cannot set bits. -/
def NvsSystem.norRunOps (T : Target) (L : BankLayout) (s : NvsSystem) :
    List NvsOp → Option (NvsTrace × NvsSystem)
  | [] => some ([], s)
  | op :: ops =>
      match (op.program T L s.nvs).run (norFlash L.sectorSize) s.flash with
      | (some (reply, nvs), flash) => do
          let (trace, u) ← NvsSystem.norRunOps T L ⟨nvs, flash⟩ ops
          return ((op, reply) :: trace, u)
      | (none, _) => none

/-- The bytes of the live records. -/
def NvsSystem.liveSize (s : NvsSystem) : Nat := (s.liveRecords.map fun r => r.2.length).sum

/-- The live records stay below a limit. -/
def liveBelow (T : Target) (L : BankLayout) (limit : Nat) (s : NvsSystem) : List NvsOp → Bool
  | [] => true
  | op :: ops =>
      decide (s.liveSize ≤ limit) &&
        match s.step T L op with
        | some (_, t) => liveBelow T L limit t ops
        | none => true

/-- The size of the record that a call asks for. -/
def NvsOp.offered : NvsOp → Nat
  | .write _ data => 8 + alignUp4 data.length
  | .read _ _ => 0
  | .delete _ => 8
  | .remount _ => 0

/-- Every program of the list finds erased cells when its turn comes. -/
def ProgramsErased (sectorSize : Nat) : List FlashCall → Memory → Prop
  | [], _ => True
  | .read _ _ :: cs, m => ProgramsErased sectorSize cs m
  | .write a data :: cs, m =>
      (∀ i < data.length, m (a + i) = 0xFF) ∧ ProgramsErased sectorSize cs (m.program a data)
  | .eraseSector a :: cs, m => ProgramsErased sectorSize cs (m.erase a sectorSize)

/-- The calls erase every bank `k` times and nothing else, and program erased cells only. -/
structure Wears (L : BankLayout) (m : Memory) (cs : List FlashCall) (k : Nat) : Prop where
  even : ∀ b, eraseCount (L.addr b) cs = k
  only : ∀ a, FlashCall.eraseSector a ∈ cs → ∃ b, a = L.addr b
  erased : ProgramsErased L.sectorSize cs m

section Erased

variable {S a : Nat} {m : Memory} {cs ds : List FlashCall}

theorem programsErased_append : ProgramsErased S (cs ++ ds) m ↔
    ProgramsErased S cs m ∧ ProgramsErased S ds (flashReplay S cs m) := by
  induction cs generalizing m with
  | nil => exact (iff_of_eq (true_and _)).symm
  | cons c cs ih =>
      cases c with
      | read a n => exact ih
      | write a data => exact (and_congr_right fun _ => ih).trans and_assoc.symm
      | eraseSector a => exact ih

/-- Chunks find erased cells one behind the other when all the cells are erased. -/
theorem programsErased_writesFrom {chunks : List (List UInt8)}
    (h : ∀ i < chunks.flatten.length, m (a + i) = 0xFF) :
    ProgramsErased S (writesFrom a chunks) m := by
  induction chunks generalizing a m with
  | nil => trivial
  | cons c cs ih =>
      rw [List.flatten_cons, List.length_append] at h
      refine ⟨fun i hi => h i (by omega), ih fun i hi => ?_⟩
      rw [Memory.program_of_outside (Or.inr (by omega)), Nat.add_assoc]
      exact h _ (by omega)

/-- The cells behind the content of a region are erased. -/
theorem erased_behind {base size n : Nat} {content : List UInt8} (h : m.Holds base size content)
    (hfit : content.length + n ≤ size) : ∀ i < n, m (base + content.length + i) = 0xFF := by
  intro i hi
  have hbehind : content.length ≤ content.length + i := Nat.le_add_right _ _
  rw [Nat.add_assoc, h.cell _ (by omega), List.getD_eq_getElem?_getD,
    List.getElem?_eq_none hbehind]
  rfl

/-- Programs of erased cells are taken by NOR flash. -/
theorem ProgramsErased.takes (h : ProgramsErased S cs m) : Takes S cs m := by
  induction cs generalizing m with
  | nil => trivial
  | cons c cs ih =>
      cases c with
      | read a n => exact ih h
      | write a data => exact ⟨Memory.accepts_erased h.1, ih h.2⟩
      | eraseSector a => exact ih h

end Erased

section Counts

variable {L : BankLayout} {m : Memory} {a : Nat} {cs ds : List FlashCall}

theorem eraseCount_append (a : Nat) (cs ds : List FlashCall) :
    eraseCount a (cs ++ ds) = eraseCount a cs + eraseCount a ds := List.countP_append

theorem eraseCount_writesFrom (a x : Nat) (chunks : List (List UInt8)) :
    eraseCount a (writesFrom x chunks) = 0 := by
  induction chunks generalizing x with
  | nil => rfl
  | cons c cs ih =>
      rw [writesFrom_cons, eraseCount, List.countP_cons, ← eraseCount, ih]
      rfl

theorem eraseSector_not_mem_writesFrom (a x : Nat) (chunks : List (List UInt8)) :
    FlashCall.eraseSector a ∉ writesFrom x chunks := by
  induction chunks generalizing x with
  | nil => exact List.not_mem_nil
  | cons c cs ih =>
      intro hmem
      rcases List.mem_cons.mp hmem with heq | hmem
      · cases heq
      · exact ih _ hmem

theorem Wears.nil : Wears L m [] 0 :=
  ⟨fun _ => rfl, fun _ hmem => absurd hmem List.not_mem_nil, trivial⟩

theorem Wears.append {k l : Nat} (h : Wears L m cs k)
    (h' : Wears L (flashReplay L.sectorSize cs m) ds l) : Wears L m (cs ++ ds) (k + l) where
  even b := by rw [eraseCount_append, h.even b, h'.even b]
  only a hmem := (List.mem_append.mp hmem).elim (h.only a) (h'.only a)
  erased := programsErased_append.mpr ⟨h.erased, h'.erased⟩

/-- Chunks behind the log erase nothing and find erased cells. -/
theorem OnFlash.wears {b : Fin 2} {seq : UInt32} {log : List NvsRecord}
    {chunks : List (List UInt8)} (h : OnFlash L m b seq log)
    (hroom : sectorHdrSize + logSize log + recordHdrSize ≤ L.sectorSize)
    (hfit : sectorHdrSize + logSize log + chunks.flatten.length ≤ L.sectorSize) :
    Wears L m (writesFrom (L.addr b + (sectorHdrSize + logSize log)) chunks) 0 where
  even _ := eraseCount_writesFrom _ _ _
  only _ hmem := absurd hmem (eraseSector_not_mem_writesFrom _ _ _)
  erased := by
    have hlength := bankImage_length seq log
    have hbehind := erased_behind (h.active.holds_of_room hroom) (n := chunks.flatten.length)
      (by rw [hlength]; exact hfit)
    rw [hlength] at hbehind
    exact programsErased_writesFrom hbehind

/-- A compaction erases both banks once. -/
theorem compactEffects_wears {b : Fin 2} {seq : UInt32} {log : List NvsRecord}
    (h : BankLog L m b seq log) : Wears L m (compactEffects L b seq (live log)) 1 where
  even c := by
    have hdisjoint := L.addr_disjoint b
    have hsize := L.sectorSize_ge
    have hne : L.addr b ≠ L.addr (1 - b) := by omega
    have hcount : ∀ a, eraseCount a (compactEffects L b seq (live log)) =
        (if L.addr (1 - b) = a then 1 else 0) + if L.addr b = a then 1 else 0 := by
      intro a
      have hwrites := eraseCount_writesFrom a (L.addr (1 - b) + sectorHdrSize)
        (logChunks (live log))
      rw [eraseCount] at hwrites
      rw [eraseCount, compactEffects, List.countP_cons, List.countP_cons, List.countP_append,
        hwrites, List.countP_cons, List.countP_nil]
      simp only [beq_iff_eq, Bool.false_eq_true, if_false]
      omega
    rw [hcount]
    rcases BankLayout.bank_cases b with rfl | rfl <;> rcases BankLayout.bank_cases c with rfl | rfl
    · exact congrArg₂ (· + ·) (if_neg hne.symm) (if_pos rfl)
    · exact congrArg₂ (· + ·) (if_pos rfl) (if_neg hne)
    · exact congrArg₂ (· + ·) (if_pos rfl) (if_neg hne)
    · exact congrArg₂ (· + ·) (if_neg hne.symm) (if_pos rfl)
  only a hmem := by
    rw [compactEffects] at hmem
    rcases List.mem_cons.mp hmem with heq | hmem
    · exact ⟨_, FlashCall.eraseSector.inj heq⟩
    rcases List.mem_cons.mp hmem with heq | hmem
    · cases heq
    rcases List.mem_append.mp hmem with hmem | hmem
    · exact absurd hmem (eraseSector_not_mem_writesFrom _ _ _)
    · exact ⟨b, FlashCall.eraseSector.inj (List.mem_singleton.mp hmem)⟩
  erased := by
    have hhdr : (activeHdr (seq + 1)).bytes.length = sectorHdrSize := SectorHdr.bytes_length _
    have hroom : sectorHdrSize ≤ L.sectorSize := Nat.le_trans (by decide) L.sectorSize_ge
    have hempty := Memory.Holds.erase m (L.addr (1 - b)) L.sectorSize
    have hcopy : (copyImage L m b seq []).Holds (L.addr (1 - b)) L.sectorSize
        ((activeHdr (seq + 1)).bytes ++ ([] : List (List UInt8)).flatten) := copyImage_holds m hroom
    rw [List.flatten_nil, List.append_nil] at hcopy
    refine ⟨erased_behind hempty ?_, programsErased_append.mpr
      ⟨programsErased_writesFrom ?_, trivial⟩⟩
    · rw [hhdr, List.length_nil, Nat.zero_add]
      exact hroom
    · have hbehind := erased_behind hcopy (n := (logChunks (live log)).flatten.length)
        (by rw [hhdr]; exact live_fits h)
      rw [hhdr] at hbehind
      exact hbehind

end Counts

section Steps

variable {T : Target} {L : BankLayout} {m : Memory} {b : Fin 2} {seq : UInt32}
  {log : List NvsRecord} {key : UInt16} {data : List UInt8} {limit : Nat}

/-- What a call of a mounted instance does: it leaves the instance mounted, wears the banks evenly,
and pays for the erases by the growth of the log. -/
structure CallWears (L : BankLayout) (limit : Nat) {α : Type} (p : FlashM α) (offered : Nat)
    (m : Memory) (log : List NvsRecord) (a : α) (nvs' : FwNvs) (m' : Memory)
    (log' : List NvsRecord) : Prop where
  worn : ∃ cs k, FlashYields L.sectorSize m p cs a m' ∧ Wears L m cs k ∧
    k * (L.sectorSize - sectorHdrSize - limit) + logSize log' ≤ logSize log + 2 * offered
  mounted : Mounted L nvs' m' log'

/-- The size of the live records is at most that of the bank behind its header. -/
theorem logSize_live_le (h : BankLog L m b seq log) :
    sectorHdrSize + logSize (live log) ≤ L.sectorSize := by
  have hfits := live_fits h
  rwa [logChunks_flatten, logBytes_length] at hfits

theorem Mounted.write_wears (T : Target) {nvs : FwNvs} (h : Mounted L nvs m log)
    (hkey : key ≠ fwNvsKeyEmpty) (hlen : data.length < 2 ^ 16)
    (hlive : logSize (live log) ≤ limit) :
    ∃ st nvs' m' log', CallWears L limit (fwNvsWrite T nvs key data) (8 + alignUp4 data.length)
      m log (st, nvs') nvs' m' log' := by
  obtain ⟨hnvs, hflash, hsound⟩ := h
  generalize nvs.activeBank = b at hnvs hflash
  generalize nvs.sequence = seq at hnvs hflash
  subst hnvs
  have hsoundLive : Sound (live log) := hsound.sublist (KeyedLog.survivors_sublist _ _ log)
  have hdone := fun _ : (valueRecord key data hkey hlen).valid = true =>
    valueRecord_complete hkey hlen
  have hchunks := valueChunks_flatten hkey hlen
  have hsize := valueRecord_size hkey hlen
  have hlength : (valueChunks key data).flatten.length = 8 + alignUp4 data.length := by
    rw [hchunks, ← hsize]
    rfl
  have hhdr : recordHdrSize = 8 := rfl
  have hfit := logSize_live_le hflash.active.bankLog
  have hgrow : ∀ log, logSize (log ++ [valueRecord key data hkey hlen]) =
      logSize log + (8 + alignUp4 data.length) := by
    intro log
    rw [logSize_append, logSize_cons, logSize_nil, hsize, Nat.add_zero]
  by_cases hfits : sectorHdrSize + (8 + alignUp4 data.length) ≤ L.sectorSize
  · by_cases hroom : sectorHdrSize + logSize log + (8 + alignUp4 data.length) ≤ L.sectorSize
    · refine ⟨_, _, _, _, ⟨_, 0, fwNvsWrite_append T hkey hlen hroom,
        hflash.wears (by omega) (by omega), ?_⟩,
        (hflash.append hchunks (by omega)).mounted (hsound.append hdone)⟩
      rw [hgrow]
      omega
    · have hcomp := compacted_onFlash hflash.active.bankLog
      have hworn := compactEffects_wears hflash.active.bankLog
      have hreplay := (nvsCompact_ram_yields hflash.active.bankLog).replay_eq
      by_cases hroom' : sectorHdrSize + logSize (live log) + (8 + alignUp4 data.length) ≤
          L.sectorSize
      · have hrun := fwNvsWrite_compacts T hflash.active.bankLog hkey hlen hfits (by omega)
          (by rw [if_neg (Nat.not_lt.mpr hroom')]; exact appendRecord_yields hkey hlen hroom')
        refine ⟨_, _, _, _, ⟨_, 1, hrun, hworn.append (l := 0) ?_, ?_⟩,
          (hcomp.append hchunks (by omega)).mounted (hsoundLive.append hdone)⟩
        · rw [hreplay]
          exact hcomp.wears (by omega) (by omega)
        · rw [hgrow]
          omega
      · have hrun := fwNvsWrite_compacts T hflash.active.bankLog hkey hlen hfits (by omega)
          (by rw [if_pos (by omega)]; exact Program.Yields.ret _ _)
        refine ⟨_, _, _, _, ⟨_, 1, hrun, hworn.append (l := 0) Wears.nil, ?_⟩,
          hcomp.mounted hsoundLive⟩
        omega
  · refine ⟨_, _, _, _, ⟨[], 0,
      fwNvsWrite_refused T rfl m hkey ((writeRefused_iff T hlen).mpr (by omega)), Wears.nil, ?_⟩,
      hflash.mounted hsound⟩
    omega

theorem Mounted.delete_wears {nvs : FwNvs} (h : Mounted L nvs m log)
    (hkey : key ≠ fwNvsKeyEmpty) (hfits : valueOf log key = none ∨ TombstoneFits L log)
    (hlive : logSize (live log) ≤ limit) :
    ∃ st nvs' m' log', CallWears L limit (fwNvsDelete nvs key) 8 m log (st, nvs') nvs' m' log' := by
  obtain ⟨hnvs, hflash, hsound⟩ := h
  generalize nvs.activeBank = b at hnvs hflash
  generalize nvs.sequence = seq at hnvs hflash
  subst hnvs
  have hsoundLive : Sound (live log) := hsound.sublist (KeyedLog.survivors_sublist _ _ log)
  have hdead : ∀ hv : (tombstone key hkey).valid = true, (tombstone key hkey).Complete := by
    intro hv
    simp [tombstone, NvsRecord.valid, tombstoneHdr, fwNvsStatusDead, fwNvsStatusValid] at hv
  have hchunks : [(tombstoneHdr key).bytes].flatten = (tombstone key hkey).bytes := rfl
  have hsize := tombstone_size hkey
  have hlength : [(tombstoneHdr key).bytes].flatten.length = 8 := rfl
  have hhdr : recordHdrSize = 8 := rfl
  have hfit := logSize_live_le hflash.active.bankLog
  have hgrow : ∀ log, logSize (log ++ [tombstone key hkey]) = logSize log + 8 := by
    intro log
    rw [logSize_append, logSize_cons, logSize_nil, hsize, Nat.add_zero]
  by_cases hval : valueOf log key = none
  · refine ⟨_, _, _, _, ⟨[], 0, fwNvsDelete_missing hflash.active hsound hkey hval, Wears.nil, ?_⟩,
      hflash.mounted hsound⟩
    omega
  by_cases hroom : sectorHdrSize + logSize log + recordHdrSize ≤ L.sectorSize
  · refine ⟨_, _, _, _, ⟨_, 0, fwNvsDelete_append hflash.active hsound hkey hval hroom,
      @OnFlash.wears L m b seq log [(tombstoneHdr key).bytes] hflash hroom
        (by rw [hlength]; omega), ?_⟩,
      (hflash.append hchunks (by omega)).mounted (hsound.append hdead)⟩
    rw [hgrow]
    omega
  · have hroom' : sectorHdrSize + logSize (live log) + recordHdrSize ≤ L.sectorSize :=
      (hfits.resolve_left hval).resolve_left hroom
    have hcomp := compacted_onFlash hflash.active.bankLog
    have hreplay := (nvsCompact_ram_yields hflash.active.bankLog).replay_eq
    have hS := L.addr_le (1 - b)
    have haddr : u32 (L.addr (1 - b) + (sectorHdrSize + logSize (live log))) =
        L.addr (1 - b) + (sectorHdrSize + logSize (live log)) := u32_of_lt (by omega)
    have hrun := fwNvsDelete_compacts hflash.active hsound hkey hval (Nat.not_le.mp hroom)
    have hram : { ram L (1 - b) (seq + 1) (live log) with
        writeOffset := sectorHdrSize + logSize (live log) + recordHdrSize } =
        ram L (1 - b) (seq + 1) (live log ++ [tombstone key hkey]) := by
      simp [ram, hsize, hhdr, Nat.add_assoc]
    rw [haddr, hram] at hrun
    refine ⟨_, _, _, _, ⟨_, 1, hrun,
      (compactEffects_wears hflash.active.bankLog).append (l := 0) ?_, ?_⟩,
      (hcomp.append hchunks (by omega)).mounted (hsoundLive.append hdead)⟩
    · rw [hreplay]
      exact @OnFlash.wears L _ (1 - b) (seq + 1) (live log) [(tombstoneHdr key).bytes] hcomp
        hroom' (by rw [hlength]; omega)
    · rw [hgrow]
      omega

variable {s : NvsSystem}

theorem Mounted.liveSize_eq (h : Mounted L s.nvs s.flash log) :
    s.liveSize = logSize (live log) := by
  rw [NvsSystem.liveSize, h.liveRecords_eq, List.map_map]
  rfl

/-- What is known of a call that a program of the store makes. -/
theorem call_of_program {op : NvsOp} {α : Type} {p : FlashM α} {a : α} {nvs' : FwNvs}
    {m' : Memory} {log' : List NvsRecord} {reply : NvsReply}
    {k : α → FlashM (NvsReply × FwNvs)} (hprogram : op.program T L s.nvs = p >>= k)
    (hk : k a = .ret (reply, nvs'))
    (h : CallWears L limit p op.offered s.flash log a nvs' m' log') :
    s.step T L op = some (reply, ⟨nvs', m'⟩) ∧ Mounted L nvs' m' log' ∧
      (op.program T L s.nvs).run (norFlash L.sectorSize) s.flash = (some (reply, nvs'), m') ∧
      flashReplay L.sectorSize (op.changes T L s) s.flash = m' ∧
      ∃ k, Wears L s.flash (op.changes T L s) k ∧
        k * (L.sectorSize - sectorHdrSize - limit) + logSize log' ≤
          logSize log + 2 * op.offered := by
  obtain ⟨cs, n, hyields, hworn, hpaid⟩ := h.worn
  have hrun : FlashYields L.sectorSize s.flash (op.program T L s.nvs) cs (reply, nvs') m' := by
    rw [hprogram]
    refine hyields.bind_observing ?_
    rw [hk]
    exact Program.Yields.ret _ _
  have hchanges : op.changes T L s = cs := hrun.effects_eq
  rw [hchanges]
  exact ⟨step_of_yields ⟨cs, hrun⟩, h.mounted, hrun.norFlash hworn.erased.takes, hrun.replay_eq, n,
    hworn, hpaid⟩

/-- A call of a mounted instance wears the banks evenly and pays for its erases. -/
theorem Mounted.call_wears (T : Target) (h : Mounted L s.nvs s.flash log) {op : NvsOp}
    (hop : op.WellFormed) (hfit : ∀ key, op = .delete key → deleteFits L s key = true)
    (hlive : s.liveSize ≤ limit) :
    ∃ reply t log', s.step T L op = some (reply, t) ∧ Mounted L t.nvs t.flash log' ∧
      (op.program T L s.nvs).run (norFlash L.sectorSize) s.flash =
        (some (reply, t.nvs), t.flash) ∧
      flashReplay L.sectorSize (op.changes T L s) s.flash = t.flash ∧
      ∃ k, Wears L s.flash (op.changes T L s) k ∧
        k * (L.sectorSize - sectorHdrSize - limit) + logSize log' ≤
          logSize log + 2 * op.offered := by
  rw [h.liveSize_eq] at hlive
  have hquiet : logSize log ≤ logSize log + 2 * 0 := Nat.le_refl _
  cases op with
  | write key data =>
      obtain ⟨st, nvs', m', log', hcall⟩ := h.write_wears T hop.1 hop.2 hlive
      exact ⟨.status st, ⟨nvs', m'⟩, log', call_of_program rfl rfl hcall⟩
  | read key outData =>
      have hcall : CallWears L limit (fwNvsRead s.nvs key outData) 0 s.flash log
          (readValue (valueOf log key) outData) s.nvs s.flash log :=
        ⟨⟨[], 0, h.read hop outData, Wears.nil, by omega⟩, h⟩
      exact ⟨_, s, log, call_of_program rfl rfl hcall⟩
  | delete key =>
      have hroom := (h.deleteFits_iff key).mp (hfit key rfl)
      obtain ⟨st, nvs', m', log', hcall⟩ := h.delete_wears hop hroom hlive
      exact ⟨.status st, ⟨nvs', m'⟩, log', call_of_program rfl rfl hcall⟩
  | remount fresh =>
      have hcall : CallWears L limit
          (fwNvsInit T fresh ⟨L.sectorSize⟩ (L.addr 0) (L.addr 1)) 0 s.flash log (.ok, s.nvs)
          s.nvs s.flash log :=
        ⟨⟨[], 0, h.remount T fresh, Wears.nil, by omega⟩, h⟩
      exact ⟨_, s, log, call_of_program rfl rfl hcall⟩

/-- Along a run the erases are paid for by what the calls have offered. -/
theorem Mounted.run_wears (T : Target) (h : Mounted L s.nvs s.flash log) {ops : List NvsOp}
    (hops : ∀ op ∈ ops, op.WellFormed) (hfit : deletesFit T L s ops = true)
    (hlive : liveBelow T L limit s ops = true) :
    ∃ trace t log', s.runOps T L ops = some (trace, t) ∧ Mounted L t.nvs t.flash log' ∧
      s.norRunOps T L ops = some (trace, t) ∧ ∃ k, Wears L s.flash (s.changes T L ops) k ∧
        k * (L.sectorSize - sectorHdrSize - limit) + logSize log' ≤
          logSize log + 2 * (ops.map NvsOp.offered).sum := by
  induction ops generalizing s log with
  | nil => exact ⟨[], s, log, rfl, h, rfl, 0, Wears.nil, by simp⟩
  | cons op ops ih =>
      simp only [deletesFit, Bool.and_eq_true] at hfit
      obtain ⟨hhead, htail⟩ := hfit
      rw [liveBelow, Bool.and_eq_true] at hlive
      obtain ⟨hnow, hlater⟩ := hlive
      obtain ⟨reply, t, log', hstep, hmounted, hnor, hreplay, k, hworn, hpaid⟩ :=
        h.call_wears T (hops op List.mem_cons_self) (fun key hkey => by simpa [hkey] using hhead)
          (of_decide_eq_true hnow)
      rw [hstep] at htail hlater
      obtain ⟨trace, u, log'', hrun, hmounted', hnorRun, l, hworn', hpaid'⟩ :=
        ih hmounted (fun o ho => hops o (List.mem_cons_of_mem _ ho)) htail hlater
      refine ⟨(op, reply) :: trace, u, log'', ?_, hmounted', ?_, k + l, ?_, ?_⟩
      · rw [NvsSystem.runOps, hstep]
        simp [hrun]
      · rw [NvsSystem.norRunOps, hnor]
        simp [hnorRun]
      · rw [NvsSystem.changes, hstep]
        refine hworn.append ?_
        rw [hreplay]
        exact hworn'
      · rw [Nat.add_mul, List.map_cons, List.sum_cons]
        omega

/-- A record that fits into the free space is written without an erase. -/
theorem Mounted.free_wears (T : Target) (h : Mounted L s.nvs s.flash log)
    (hkey : key ≠ fwNvsKeyEmpty) (hlen : data.length < 2 ^ 16)
    (hfree : (NvsOp.write key data).offered ≤ (fwNvsGetStats s.nvs).2.2) (a : Nat) :
    .eraseSector a ∉ (NvsOp.write key data).changes T L s := by
  have hfits := h.flash.active.fits
  have hoffset : s.nvs.writeOffset = sectorHdrSize + logSize log := by rw [h.nvs_eq, ram_writeOffset]
  have hsector : s.nvs.flash.sectorSize = L.sectorSize := by rw [h.nvs_eq, ram_sectorSize]
  rw [fwNvsGetStats, hoffset, hsector, NvsOp.offered] at hfree
  have hroom : sectorHdrSize + logSize log + (8 + alignUp4 data.length) ≤ L.sectorSize := by
    dsimp only at hfree
    split at hfree <;> omega
  have hrun : FlashYields L.sectorSize s.flash
      (fwNvsWrite T (ram L s.nvs.activeBank s.nvs.sequence log) key data) _ _ _ :=
    fwNvsWrite_append T hkey hlen hroom
  rw [← h.nvs_eq] at hrun
  have hprogram : FlashYields L.sectorSize s.flash
      ((NvsOp.write key data).program T L s.nvs) _ _ _ :=
    hrun.bind_observing (Program.Yields.ret _ _)
  have hchanges : (NvsOp.write key data).changes T L s = _ := hprogram.effects_eq
  rw [hchanges]
  exact eraseSector_not_mem_writesFrom _ _ _

/-- In every run of well-formed operations from a fresh store both banks are erased equally often,
no other sector is, and every program finds erased cells, so that NOR flash does what the ideal
device does. Each erase of a bank is paid for by half as many bytes of records as the live records
leave free. The reported sizes add up to the sector, and a record that fits into the free space is
written without an erase. -/
theorem fwNvs_wearsEvenly (T : Target) (L : BankLayout) {s : NvsSystem} {ops : List NvsOp}
    {limit : Nat} (hfresh : FreshStore T L s) (hops : ∀ op ∈ ops, op.WellFormed)
    (hfit : deletesFit T L s ops = true) (hlive : liveBelow T L limit s ops = true) :
    ∃ trace t k, s.runOps T L ops = some (trace, t) ∧ s.norRunOps T L ops = some (trace, t) ∧
      Wears L s.flash (s.changes T L ops) k ∧
      k * (L.sectorSize - sectorHdrSize - limit) ≤ 2 * (ops.map NvsOp.offered).sum ∧
      (fwNvsGetStats t.nvs).2.1 + (fwNvsGetStats t.nvs).2.2 = L.sectorSize ∧
      ∀ key data, (NvsOp.write key data).WellFormed →
        (NvsOp.write key data).offered ≤ (fwNvsGetStats t.nvs).2.2 →
        ∀ a, .eraseSector a ∉ (NvsOp.write key data).changes T L t := by
  obtain ⟨trace, t, log, hrun, hmounted, hnor, k, hworn, hpaid⟩ :=
    hfresh.mounted.run_wears T hops hfit hlive
  rw [logSize_nil] at hpaid
  refine ⟨trace, t, k, hrun, hnor, hworn, by omega, ?_, fun key data hop hfree a =>
    hmounted.free_wears T hop.1 hop.2 hfree a⟩
  have hle := hmounted.writeOffset_le
  have hsector : t.nvs.flash.sectorSize = L.sectorSize := by rw [hmounted.nvs_eq, ram_sectorSize]
  rw [fwNvsGetStats, hsector]
  dsimp only
  split <;> omega

/-- Three writes of a value that fits twice behind the header. -/
def rewrites : List NvsOp := List.replicate 3 (.write 1 (List.replicate 100 7))

theorem fwNvs_wearsEvenly_sample :
    eraseCount 0 (sampleStore.changes target32 sampleLayout rewrites) = 1 ∧
    ∃ trace t k, sampleStore.runOps target32 sampleLayout rewrites = some (trace, t) ∧
      sampleStore.norRunOps target32 sampleLayout rewrites = some (trace, t) ∧
      Wears sampleLayout sampleStore.flash (sampleStore.changes target32 sampleLayout rewrites) k ∧
      k * (sampleLayout.sectorSize - sectorHdrSize - 108) ≤
        2 * (rewrites.map NvsOp.offered).sum ∧
      (fwNvsGetStats t.nvs).2.1 + (fwNvsGetStats t.nvs).2.2 = sampleLayout.sectorSize ∧
      ∀ key data, (NvsOp.write key data).WellFormed →
        (NvsOp.write key data).offered ≤ (fwNvsGetStats t.nvs).2.2 →
        ∀ a, .eraseSector a ∉ (NvsOp.write key data).changes target32 sampleLayout t :=
  ⟨by decide +kernel, fwNvs_wearsEvenly target32 sampleLayout sampleStore_fresh (by decide)
    (by decide +kernel) (by decide +kernel)⟩

end Steps

end ZeroEmbedded.Nvs
