import ZeroEmbedded.Foundation.ProgramLogic
import ZeroEmbedded.Storage.NvsRun

/-!
# What a sector has room for

A compaction keeps the live records and nothing else, and their sizes decide
whether another value fits. `fw_nvs_write` narrows the length of a payload to
32 bits for its checks and to 16 bits in the header of the record.
-/

namespace ZeroEmbedded.Nvs

open Foundation

section Append

variable {S : Nat} {m : Memory}

/-- On the ideal device the payload writes succeed. -/
theorem writePayload_ok (a : Nat) (data : List UInt8) (payloadLen alignedPayload : Nat) :
    ∃ cs m', FlashYields S m (writePayload a data payloadLen alignedPayload) cs .ok m' := by
  rw [writePayload]
  split
  · split
    · exact ⟨_, _, FlashYields.write (FlashYields.lastWrite _ _)⟩
    · exact ⟨_, _, FlashYields.write (Program.Yields.ret _ _)⟩
  · exact ⟨_, _, Program.Yields.ret _ _⟩

/-- On the ideal device an append succeeds, whatever the length of the payload. -/
theorem appendRecord_ok (nvs : FwNvs) (key : UInt16) (data : List UInt8) :
    ∃ cs nvs' m', FlashYields S m (appendRecord nvs key data) cs (.ok, nvs') m' := by
  obtain ⟨cs, m', hrun⟩ := writePayload_ok (S := S)
    (m := m.program (u32 (nvs.bankAddr nvs.activeBank + nvs.writeOffset))
      (RecordHdr.bytes ⟨key, UInt16.ofNat (u32 data.length),
        calcRecordCrc key (UInt16.ofNat (u32 data.length)) data, fwNvsStatusValid⟩))
    (u32 (nvs.bankAddr nvs.activeBank + nvs.writeOffset)) data (u32 data.length)
    (alignUp4 (u32 data.length))
  exact ⟨_, _, m', FlashYields.write (hrun.bind (Program.Yields.ret _ _))⟩

end Append

section Checks

variable {L : BankLayout} {m : Memory} {b : Fin 2} {seq : UInt32} {log : List NvsRecord}
  {key : UInt16} {data : List UInt8}

/-- The record fits neither behind the log nor behind the live records, as `fw_nvs_write`
computes it. -/
def WriteOverflows (L : BankLayout) (log : List NvsRecord) (data : List UInt8) : Prop :=
  L.sectorSize < u32 (sectorHdrSize + logSize log + writeTotal data) ∧
    L.sectorSize < u32 (sectorHdrSize + logSize (live log) + writeTotal data)

/-- A write that overflows compacts the bank and gives up. -/
theorem fwNvsWrite_overflows (T : Target) (h : BankLog L m b seq log) (hkey : key ≠ fwNvsKeyEmpty)
    (hfits : ¬ WriteRefused T L data) (hover : WriteOverflows L log data) :
    FlashYields L.sectorSize m (fwNvsWrite T (ram L b seq log) key data)
      (compactEffects L b seq (live log)) (.errOutOfMemory, ram L (1 - b) (seq + 1) (live log))
      (compacted L m b seq log) := by
  have hrun := fwNvsWrite_full T h hkey hfits hover.1
    (by rw [if_pos hover.2]; exact Program.Yields.ret _ _)
  rwa [List.append_nil] at hrun

/-- A write that passes the checks succeeds on the ideal device. -/
theorem fwNvsWrite_ok (T : Target) (h : BankLog L m b seq log) (hkey : key ≠ fwNvsKeyEmpty)
    (hfits : ¬ WriteRefused T L data) (hover : ¬ WriteOverflows L log data) :
    ∃ cs nvs' m', FlashYields L.sectorSize m (fwNvsWrite T (ram L b seq log) key data) cs
      (.ok, nvs') m' := by
  by_cases hroom : L.sectorSize < u32 (sectorHdrSize + logSize log + writeTotal data)
  · have hroom' := fun hlt => hover ⟨hroom, hlt⟩
    obtain ⟨cs, nvs', m', hrun⟩ := appendRecord_ok (S := L.sectorSize)
      (m := compacted L m b seq log) (ram L (1 - b) (seq + 1) (live log)) key data
    exact ⟨_, nvs', m', fwNvsWrite_full T h hkey hfits hroom (by rw [if_neg hroom']; exact hrun)⟩
  · rw [fwNvsWrite_room T hkey hfits (Nat.not_lt.mp hroom)]
    exact appendRecord_ok _ _ _

/-- A write reports that it is out of memory in these two cases only. -/
theorem fwNvsWrite_status (T : Target) (h : BankLog L m b seq log) (hkey : key ≠ fwNvsKeyEmpty)
    (data : List UInt8) :
    ∃ st nvs' m', (fwNvsWrite T (ram L b seq log) key data).run (idealFlash L.sectorSize) m =
        (some (st, nvs'), m') ∧
      (st = .ok ↔ ¬ (WriteRefused T L data ∨ WriteOverflows L log data)) ∧
      (st ≠ .ok → st = .errOutOfMemory ∧ ∃ b' seq' log', nvs' = ram L b' seq' log' ∧
        BankLog L m' b' seq' log' ∧ (log' = log ∨ log' = live log)) := by
  by_cases hrefused : WriteRefused T L data
  · refine ⟨_, _, _, (fwNvsWrite_refused T rfl m hkey hrefused).run_eq, by simp [hrefused],
      fun _ => ⟨rfl, b, seq, log, rfl, h, Or.inl rfl⟩⟩
  · by_cases hover : WriteOverflows L log data
    · exact ⟨_, _, _, (fwNvsWrite_overflows T h hkey hrefused hover).run_eq, by simp [hover],
        fun _ => ⟨rfl, _, _, _, rfl, (compacted_onFlash h).active.bankLog, Or.inr rfl⟩⟩
    · obtain ⟨_, nvs', m', hrun⟩ := fwNvsWrite_ok T h hkey hrefused hover
      exact ⟨_, _, _, hrun.run_eq, by simp [hrefused, hover], fun hne => absurd rfl hne⟩

end Checks

section Live

variable {L : BankLayout} {m : Memory} {b : Fin 2} {seq : UInt32} {log : List NvsRecord}
  {data : List UInt8}

/-- The live records are the last records of the keys that have a value. -/
theorem mem_live_iff (log : List NvsRecord) (r : NvsRecord) :
    r ∈ live log ↔ KeyedLog.latest NvsRecord.key r.key log = some r ∧ r.valid = true := by
  constructor
  · intro hr
    obtain ⟨_, hvalid, hlatest⟩ := KeyedLog.mem_survivors NvsRecord.key NvsRecord.valid hr
    exact ⟨hlatest, hvalid⟩
  · rintro ⟨hlatest, hvalid⟩
    have hlive := KeyedLog.latest_survivors NvsRecord.key NvsRecord.valid r.key log
    rw [hlatest, Option.filter_some_pos hvalid] at hlive
    exact (KeyedLog.latest_mem NvsRecord.key hlive).1

/-- A compaction does not change what is read. -/
theorem readLog_live (log : List NvsRecord) (key : UInt16) (outData : List UInt8) :
    readLog (live log) key outData = readLog log key outData := by
  have hlive := KeyedLog.latest_survivors NvsRecord.key NvsRecord.valid key log
  have hfilter : ((KeyedLog.latest NvsRecord.key key log).filter NvsRecord.valid).filter
      NvsRecord.valid = (KeyedLog.latest NvsRecord.key key log).filter NvsRecord.valid := by
    cases KeyedLog.latest NvsRecord.key key log with
    | none => rfl
    | some r => cases hv : r.valid <;> simp [Option.filter, hv]
  rw [readLog, hlive, hfilter]
  rfl

theorem BankLog.read_run (h : BankLog L m b seq log) (key : UInt16) (outData : List UInt8) :
    ((fwNvsRead (ram L b seq log) key outData).run (idealFlash L.sectorSize) m).1 =
      some (if key = fwNvsKeyEmpty then ⟨.errInvalidArg, outData, none⟩
        else readLog log key outData) := by
  split
  · next hkey =>
      rw [fwNvsRead, if_pos hkey]
      rfl
  · next hkey => rw [(fwNvsRead_yields h hkey outData).run_eq]

/-- The sizes of the records as the format has them. -/
theorem logSize_eq (log : List NvsRecord) :
    logSize log = (log.map fun r => 8 + (r.length + 3) / 4 * 4).sum := by
  rw [logSize]
  congr 1
  exact List.map_congr_left fun r _ => r.size_eq

/-- The narrowed sizes are exact for a record that fits into an empty sector. -/
theorem writeTotal_of_fits (L : BankLayout)
    (hfits : sectorHdrSize + (8 + (data.length + 3) / 4 * 4) ≤ L.sectorSize) :
    writeTotal data = 8 + (data.length + 3) / 4 * 4 := by
  have hsz := L.sectorSize_le
  have hlen : u32 data.length = data.length := u32_of_lt (by omega)
  have hround : u32 (data.length + 3) = data.length + 3 := u32_of_lt (by omega)
  rw [writeTotal, alignUp4, hlen, hlen, hround, land_mask4 (by omega), recordHdrSize,
    u32_of_lt (by omega)]

/-- Whether a record that fits into an empty sector overflows depends on the live records. -/
theorem writeOverflows_iff (h : BankLog L m b seq log)
    (hfits : sectorHdrSize + (8 + (data.length + 3) / 4 * 4) ≤ L.sectorSize) :
    WriteOverflows L log data ↔
      L.sectorSize < sectorHdrSize + logSize (live log) + (8 + (data.length + 3) / 4 * 4) := by
  have hsz := L.sectorSize_le
  have hfit := h.fits
  have hhdr : sectorHdrSize = 16 := rfl
  have hle : logSize (live log) ≤ logSize log :=
    logSize_sublist (KeyedLog.survivors_sublist _ _ log)
  rw [WriteOverflows, writeTotal_of_fits L hfits, u32_of_lt (by omega), u32_of_lt (by omega)]
  omega

/-- A record that fits into an empty sector is not turned down at once. -/
theorem not_writeRefused_of_fits (T : Target)
    (hfits : sectorHdrSize + (8 + (data.length + 3) / 4 * 4) ≤ L.sectorSize) :
    ¬ WriteRefused T L data := by
  have hsz := L.sectorSize_le
  rw [WriteRefused, writeTotal_of_fits L hfits, T.size_of_lt (by omega)]
  exact Nat.not_lt.mpr hfits

/-- Compaction keeps the live records in their order and nothing else. A record that fits into an
empty sector is refused exactly when it does not fit beside them, and this changes no value. -/
theorem nvsCompact_keeps_live (T : Target) (h : BankLog L m b seq log) :
    ∃ kept m', (nvsCompact (ram L b seq log)).run (idealFlash L.sectorSize) m =
        (some (.ok, ram L (1 - b) (seq + 1) kept), m') ∧
      kept.Sublist log ∧ (kept.Pairwise fun x y => x.key ≠ y.key) ∧
      (∀ r, r ∈ kept ↔ KeyedLog.latest NvsRecord.key r.key log = some r ∧ r.valid = true) ∧
      m'.Holds (L.addr (1 - b)) L.sectorSize (bankImage (seq + 1) kept) ∧
      m'.Holds (L.addr b) L.sectorSize [] ∧
      (ram L (1 - b) (seq + 1) kept).writeOffset =
        16 + (kept.map fun r => 8 + (r.length + 3) / 4 * 4).sum ∧
      ∀ key data, key ≠ fwNvsKeyEmpty →
        sectorHdrSize + (8 + (data.length + 3) / 4 * 4) ≤ L.sectorSize →
        ∃ st nvs' m'', (fwNvsWrite T (ram L b seq log) key data).run (idealFlash L.sectorSize) m =
            (some (st, nvs'), m'') ∧
          (st = .errOutOfMemory ↔ L.sectorSize <
            16 + (kept.map fun r => 8 + (r.length + 3) / 4 * 4).sum +
              (8 + (data.length + 3) / 4 * 4)) ∧
          (st = .errOutOfMemory → ∀ k outData,
            ((fwNvsRead nvs' k outData).run (idealFlash L.sectorSize) m'').1 =
              ((fwNvsRead (ram L b seq log) k outData).run (idealFlash L.sectorSize) m).1) := by
  refine ⟨live log, _, (nvsCompact_ram_yields h).run_eq, KeyedLog.survivors_sublist _ _ log,
    KeyedLog.survivors_pairwise _ _ log, mem_live_iff log, ?_, Memory.Holds.erase _ _ _, ?_, ?_⟩
  · have hcopied : (copyImage L m b seq (logChunks (live log))).Holds (L.addr (1 - b)) L.sectorSize
        ((activeHdr (seq + 1)).bytes ++ (logChunks (live log)).flatten) :=
      copyImage_holds m (live_fits h)
    have hholds := hcopied.erase_disjoint (L.addr_disjoint b)
    rwa [logChunks_flatten] at hholds
  · rw [ram_writeOffset, logSize_eq]
    rfl
  · intro key data hkey hfits
    obtain ⟨st, nvs', m'', hrun, hok, herr⟩ := fwNvsWrite_status T h hkey data
    have hover := writeOverflows_iff h hfits
    rw [or_iff_right (not_writeRefused_of_fits T hfits), hover, logSize_eq] at hok
    refine ⟨st, nvs', m'', hrun, ?_, ?_⟩
    · rw [← not_iff_not]
      refine Iff.trans ⟨fun hne => ?_, fun hst hoom => ?_⟩ hok
      · by_contra hst
        exact hne (herr hst).1
      · rw [hst] at hoom
        cases hoom
    · rintro rfl k outData
      obtain ⟨_, b', seq', log', rfl, hb', hlog'⟩ := herr (by decide)
      rw [hb'.read_run, h.read_run]
      rcases hlog' with rfl | rfl
      · rfl
      · rw [readLog_live]

/-- A log with two versions of a key and a tombstone. -/
def mixedLog : List NvsRecord :=
  [valueRecord 1 [7] (by decide) (by decide), tombstone 2 (by decide),
    valueRecord 1 [8, 9] (by decide) (by decide)]

/-- The flash with this log in bank 0. -/
def mixedFlash : Memory :=
  Memory.program (fun _ => 0xFF) 0 (bankImage 1 mixedLog)

theorem mixedFlash_bankLog : BankLog sampleLayout mixedFlash 0 1 mixedLog := by
  have hempty : Memory.Holds (fun _ => 0xFF) (sampleLayout.addr 0) sampleLayout.sectorSize [] :=
    ⟨Nat.zero_le _, fun _ _ => rfl⟩
  have hfit : ([] : List UInt8).length + (bankImage 1 mixedLog).length ≤
      sampleLayout.sectorSize := by decide +kernel
  have hholds := hempty.program_append rfl hfit
  exact ActiveBank.bankLog ⟨[], by rwa [List.append_nil], fun hne => absurd rfl hne⟩

theorem nvsCompact_keeps_live_sample :
    ∃ kept m', (nvsCompact (ram sampleLayout 0 1 mixedLog)).run (idealFlash 256) mixedFlash =
        (some (.ok, ram sampleLayout 1 2 kept), m') ∧
      m'.Holds 256 256 (bankImage 2 kept) ∧ m'.Holds 0 256 [] := by
  obtain ⟨kept, m', hrun, _, _, _, hnew, hold, _⟩ :=
    nvsCompact_keeps_live target32 mixedFlash_bankLog
  exact ⟨kept, m', hrun, hnew, hold⟩

end Live

section Lengths

variable {T : Target} {L : BankLayout} {s t : NvsSystem} {key : UInt16} {data : List UInt8}
  {log : List NvsRecord}

/-- A successful write is read back as it is and changes no other key, a write that fails has
programmed nothing outside of the active bank. -/
def WriteFaithful (T : Target) (L : BankLayout) (s : NvsSystem) (key : UInt16) (data : List UInt8) :
    Prop :=
  ∃ st t, s.step T L (.write key data) = some (.status st, t) ∧
    if st = .ok then
      (∀ outData, data.length ≤ outData.length → t.read L key outData =
        some ⟨.ok, data ++ outData.drop data.length, some data.length⟩) ∧
      ∀ other, other ≠ key → ∀ outData, t.read L other outData = s.read L other outData
    else ∀ a bytes, FlashCall.write a bytes ∈
        (fwNvsWrite T s.nvs key data).issued (idealFlash L.sectorSize) s.flash →
      L.addr t.nvs.activeBank ≤ a ∧ a + bytes.length ≤ L.addr t.nvs.activeBank + L.sectorSize

/-- There is room neither behind the records nor behind the live records, as `fw_nvs_write`
computes it. -/
def NoRoom (L : BankLayout) (s : NvsSystem) (data : List UInt8) : Prop :=
  L.sectorSize < u32 (s.nvs.writeOffset + writeTotal data) ∧
    L.sectorSize < u32 (sectorHdrSize + (s.liveRecords.map fun r => r.2.length).sum +
      writeTotal data)

theorem Mounted.noRoom_iff (h : Mounted L s.nvs s.flash log) (data : List UInt8) :
    NoRoom L s data ↔ WriteOverflows L log data := by
  have hwo : s.nvs.writeOffset = sectorHdrSize + logSize log := by rw [h.nvs_eq, ram_writeOffset]
  have hlive := h.liveRecords_eq
  have hsum : (((live log).map fun r => (r.hdr, r.bytes)).map fun r => r.2.length).sum =
      logSize (live log) := by
    rw [List.map_map, logSize]
    rfl
  rw [NoRoom, WriteOverflows, hwo, show s.liveRecords = _ from hlive, hsum]

/-- `fw_nvs_read` never reports a length beyond the 16-bit field. -/
theorem fwNvsRead_returns (nvs : FwNvs) (key : UInt16) (outData : List UInt8) :
    (fwNvsRead nvs key outData).Returns fun res => ∀ n, res.outLen = some n → n < 2 ^ 16 := by
  have hnone : ∀ status out n, (ReadResult.mk status out none).outLen = some n → n < 2 ^ 16 :=
    fun _ _ _ hn => absurd hn.symm (Option.some_ne_none _)
  rw [fwNvsRead]
  split
  · exact Program.Returns.ret (hnone _ _)
  refine Program.Returns.after _ fun mt => ?_
  split
  · exact Program.Returns.ret (hnone _ _)
  dsimp only
  split
  · exact Program.Returns.ret (hnone _ _)
  refine Program.Returns.after _ fun payload => ?_
  split
  · exact Program.Returns.ret (hnone _ _)
  split
  · exact Program.Returns.ret (hnone _ _)
  · refine Program.Returns.ret fun n hn => ?_
    cases hn
    exact mt.matchHdr.length.toNat_lt

theorem fwNvsRead_outLen {σ : Type} (D : Handler FlashCall FlashCall.Reply σ) (nvs : FwNvs)
    (key : UInt16) (outData : List UInt8) (d : σ) {res : ReadResult} {n : Nat}
    (hrun : ((fwNvsRead nvs key outData).run D d).1 = some res) (hlen : res.outLen = some n) :
    n < 2 ^ 16 :=
  (fwNvsRead_returns nvs key outData).run (Prod.ext hrun rfl) n hlen

/-- The chunks of a list of writes lie where the whole list does. -/
theorem mem_writesFrom {a a' : Nat} {chunks : List (List UInt8)} {bytes : List UInt8}
    (h : FlashCall.write a' bytes ∈ writesFrom a chunks) :
    a ≤ a' ∧ a' + bytes.length ≤ a + chunks.flatten.length := by
  induction chunks generalizing a with
  | nil => cases h
  | cons c cs ih =>
      rw [List.flatten_cons, List.length_append]
      rcases List.mem_cons.mp h with heq | hrest
      · cases heq
        omega
      · have hbounds := ih hrest
        omega

/-- A compaction programs its destination only. -/
theorem mem_compactEffects {m : Memory} {b : Fin 2} {seq : UInt32} (h : BankLog L m b seq log)
    {a : Nat} {bytes : List UInt8}
    (hmem : FlashCall.write a bytes ∈ compactEffects L b seq (live log)) :
    L.addr (1 - b) ≤ a ∧ a + bytes.length ≤ L.addr (1 - b) + L.sectorSize := by
  have hfit := live_fits h
  have hhdr : sectorHdrSize = 16 := rfl
  rw [compactEffects] at hmem
  simp only [List.mem_cons, List.mem_append, reduceCtorEq, FlashCall.write.injEq, List.not_mem_nil,
    or_false, false_or] at hmem
  rcases hmem with ⟨rfl, rfl⟩ | hmem
  · rw [SectorHdr.bytes_length]
    omega
  · have hbounds := mem_writesFrom hmem
    omega

/-- A write that fails has programmed the active bank only. -/
theorem Mounted.write_fails (h : Mounted L s.nvs s.flash log) (hkey : key ≠ fwNvsKeyEmpty)
    (hno : WriteRefused T L data ∨ NoRoom L s data) : WriteFaithful T L s key data := by
  obtain ⟨nvs, flash⟩ := s
  rw [h.noRoom_iff] at hno
  obtain ⟨hnvs, hflash, _⟩ := h
  have hb := hflash.active.bankLog
  dsimp only at hnvs hb
  generalize nvs.activeBank = b at hnvs hb
  generalize nvs.sequence = seq at hnvs hb
  subst hnvs
  -- every program of the call is one of its effects
  have hissued : ∀ {cs st nvs' m'}, FlashYields L.sectorSize flash
      (fwNvsWrite T (ram L b seq log) key data) cs (st, nvs') m' → ∀ a bytes,
      FlashCall.write a bytes ∈
        (fwNvsWrite T (ram L b seq log) key data).issued (idealFlash L.sectorSize) flash →
      FlashCall.write a bytes ∈ cs := by
    intro cs st nvs' m' hrun a bytes hmem
    rw [← hrun.effects_eq]
    exact List.mem_filter.mpr ⟨hmem, rfl⟩
  by_cases hrefused : WriteRefused T L data
  · have hrun := fwNvsWrite_refused T (rfl : (ram L b seq log).flash = _) flash hkey hrefused
    refine ⟨.errOutOfMemory, ⟨ram L b seq log, flash⟩,
      step_of_yields ⟨_, hrun.bind_observing (Program.Yields.ret _ _)⟩, ?_⟩
    rw [if_neg (by decide)]
    exact fun a bytes hmem => absurd (hissued hrun a bytes hmem) List.not_mem_nil
  · have hrun := fwNvsWrite_overflows T hb hkey hrefused (hno.resolve_left hrefused)
    refine ⟨.errOutOfMemory, ⟨_, _⟩,
      step_of_yields ⟨_, hrun.bind_observing (Program.Yields.ret _ _)⟩, ?_⟩
    rw [if_neg (by decide)]
    exact fun a bytes hmem => mem_compactEffects hb (hissued hrun a bytes hmem)

/-- A write to a mounted instance succeeds unless its checks fail. -/
theorem Mounted.write_status (h : Mounted L s.nvs s.flash log) (hkey : key ≠ fwNvsKeyEmpty)
    (data : List UInt8) :
    ∃ st t, s.step T L (.write key data) = some (.status st, t) ∧
      (st = .ok ↔ ¬ (WriteRefused T L data ∨ NoRoom L s data)) := by
  obtain ⟨st, nvs', m', hrun, hok, _⟩ := fwNvsWrite_status T h.flash.active.bankLog hkey data
  rw [← h.nvs_eq] at hrun
  refine ⟨st, ⟨nvs', m'⟩, ?_, ?_⟩
  · rw [NvsSystem.step, NvsOp.program, Program.run_bind, hrun]
    rfl
  · rw [h.noRoom_iff]
    exact hok

/-- A payload whose length fits the header is stored as it is. -/
theorem Mounted.write_faithful (h : Mounted L s.nvs s.flash log) (hkey : key ≠ fwNvsKeyEmpty)
    (hlen : data.length < 2 ^ 16) : WriteFaithful T L s key data := by
  by_cases hno : WriteRefused T L data ∨ NoRoom L s data
  · exact h.write_fails hkey hno
  obtain ⟨st, t', hstep', hok⟩ := h.write_status (T := T) hkey data
  obtain rfl : st = .ok := hok.mpr hno
  have hop : (NvsOp.write key data).WellFormed := ⟨hkey, hlen⟩
  obtain ⟨reply, t, log', hstep, ht, hvalue⟩ := h.step (T := T) hop nofun
  obtain ⟨rfl, rfl⟩ : reply = .status .ok ∧ t = t' := by
    rw [hstep] at hstep'
    simpa using hstep'
  refine ⟨.ok, t, hstep, ?_⟩
  rw [if_pos rfl]
  refine ⟨fun outData hbuf => ?_, fun other hne outData => ?_⟩
  · rw [ht.read_eq hkey, hvalue, lastValueStep, if_pos rfl, readValue,
      if_neg (Nat.not_lt.mpr hbuf)]
  · by_cases hother : other = fwNvsKeyEmpty
    · subst hother
      rfl
    · rw [ht.read_eq hother, h.read_eq hother, hvalue, lastValueStep, if_neg (Ne.symm hne)]

/-- A payload whose length does not fit the header is stored shortened. -/
theorem Mounted.write_shortens (h : Mounted L s.nvs s.flash log) (hkey : key ≠ fwNvsKeyEmpty)
    (hlen : 2 ^ 16 ≤ data.length) (hno : ¬ (WriteRefused T L data ∨ NoRoom L s data)) :
    ∃ t, s.step T L (.write key data) = some (.status .ok, t) ∧
      ∀ outData res, t.read L key outData = some res → res.outLen ≠ some data.length := by
  obtain ⟨st, t, hstep, hok⟩ := h.write_status (T := T) hkey data
  obtain rfl : st = .ok := hok.mpr hno
  refine ⟨t, hstep, fun outData res hread hout => ?_⟩
  have hshort := fwNvsRead_outLen _ _ _ _ _ hread hout
  omega

/-- A value that is stored shortened is not read back. -/
theorem not_faithful_of_shortens (hstep : s.step T L (.write key data) = some (.status .ok, t))
    (hshort : ∀ outData res, t.read L key outData = some res → res.outLen ≠ some data.length) :
    ¬ WriteFaithful T L s key data := by
  rintro ⟨st, t', hstep', hdone⟩
  obtain ⟨rfl, rfl⟩ : st = .ok ∧ t' = t := by
    rw [hstep] at hstep'
    obtain ⟨hreply, ht⟩ := Prod.mk.inj (Option.some.inj hstep')
    exact ⟨(NvsReply.status.inj hreply).symm, ht.symm⟩
  rw [if_pos rfl] at hdone
  exact hshort _ _ (hdone.1 data (Nat.le_refl _)) rfl

/-- Values are stored unchanged exactly when the length fits the header of a record or the checks
turn the value down. -/
theorem fwNvsWrite_faithful_iff (T : Target) (h : Mounted L s.nvs s.flash log)
    (hkey : key ≠ fwNvsKeyEmpty) (data : List UInt8) :
    WriteFaithful T L s key data ↔
      data.length < 2 ^ 16 ∨ WriteRefused T L data ∨ NoRoom L s data := by
  constructor
  · intro hfaithful
    by_contra hcond
    obtain ⟨hlen, hno⟩ := not_or.mp hcond
    obtain ⟨t, hstep, hshort⟩ := h.write_shortens hkey (Nat.not_lt.mp hlen) hno
    exact not_faithful_of_shortens hstep hshort hfaithful
  · rintro (hlen | hno)
    · exact h.write_faithful hkey hlen
    · exact h.write_fails hkey hno

theorem fwNvsWrite_faithful_iff_sample :
    WriteFaithful target32 sampleLayout sampleStore 1 [0xAB, 0xCD] ↔
      [(0xAB : UInt8), 0xCD].length < 2 ^ 16 ∨ WriteRefused target32 sampleLayout [0xAB, 0xCD] ∨
        NoRoom sampleLayout sampleStore [0xAB, 0xCD] :=
  fwNvsWrite_faithful_iff target32 sampleStore_fresh.mounted (by decide) _

/-- A store of two banks of 128 kilobytes. -/
def largeLayout : BankLayout where
  sectorSize := 131072
  addr := ![0, 131072]
  sectorSize_ge := by decide
  addr_le := by decide
  disjoint := by decide

def largeStore : NvsSystem := ⟨ram largeLayout 0 1 [], formatImage largeLayout fun _ => 0xFF⟩

theorem largeStore_fresh : FreshStore target32 largeLayout largeStore :=
  Or.inl ⟨ram largeLayout 0 1 [], fun _ => 0xFF, rfl, rfl, (fwNvsFormat_yields _ rfl rfl).run_eq⟩

/-- A write of 65536 bytes is acknowledged, but no read returns that many. -/
theorem fwNvsWrite_truncates :
    FreshStore target32 largeLayout largeStore ∧
      (∃ t, largeStore.step target32 largeLayout (.write 1 (List.replicate 65536 0)) =
          some (.status .ok, t) ∧
        ∀ outData res, t.read largeLayout 1 outData = some res → res.outLen ≠ some 65536) ∧
      ¬ WriteFaithful target32 largeLayout largeStore 1 (List.replicate 65536 0) := by
  have hlen : (List.replicate 65536 (0 : UInt8)).length = 65536 := List.length_replicate
  have htotal : writeTotal (List.replicate 65536 0) = 65544 := by
    rw [writeTotal, hlen]
    decide
  have hno : ¬ (WriteRefused target32 largeLayout (List.replicate 65536 0) ∨
      NoRoom largeLayout largeStore (List.replicate 65536 0)) := by
    rw [WriteRefused, NoRoom, htotal]
    decide +kernel
  have hkey : (1 : UInt16) ≠ fwNvsKeyEmpty := by decide
  obtain ⟨t, hstep, hshort⟩ :=
    largeStore_fresh.mounted.write_shortens hkey (Nat.le_of_eq hlen.symm) hno
  have hfails := not_faithful_of_shortens hstep hshort
  rw [hlen] at hshort
  exact ⟨largeStore_fresh, ⟨t, hstep, hshort⟩, hfails⟩

end Lengths

end ZeroEmbedded.Nvs
