import ZeroEmbedded.Storage.NvsRun

/-!
# Loss of power

The power fails between two driver calls: the flash has seen a prefix of the
calls of a function, the instance is gone, and the next mount finds what the
prefix left. A compaction that is cut while it copies leaves a destination bank
with a valid header and only some of the records; a write that is cut behind
its header leaves a record whose payload is erased.
-/

namespace ZeroEmbedded.Nvs

open Foundation

/-- The flash when the power fails after the first `k` changes that a program makes. -/
def NvsSystem.cutFlash (L : BankLayout) (s : NvsSystem) {α : Type} (p : FlashM α) (k : Nat) :
    Memory :=
  flashReplay L.sectorSize
    ((Program.effects (idealFlash L.sectorSize) FlashCall.changes p s.flash).take k) s.flash

/-- A state that a run of well-formed calls with fitting deletes reaches from a fresh store. -/
def Reached (T : Target) (L : BankLayout) (s : NvsSystem) : Prop :=
  ∃ s0 ops trace, FreshStore T L s0 ∧ (∀ op ∈ ops, NvsOp.WellFormed op) ∧
    deletesFit T L s0 ops = true ∧ s0.runOps T L ops = some (trace, s)

theorem Reached.mounted {T : Target} {L : BankLayout} {s : NvsSystem} (h : Reached T L s) :
    ∃ log, Mounted L s.nvs s.flash log := by
  obtain ⟨s0, ops, trace, hfresh, hops, hfit, hrun⟩ := h
  obtain ⟨trace', t, log, hrun', hmounted, _⟩ := hfresh.mounted.runOps hops hfit
  rw [hrun] at hrun'
  obtain ⟨_, rfl⟩ : trace = trace' ∧ s = t := by simpa using hrun'
  exact ⟨log, hmounted⟩

theorem sampleStore_writes :
    (sampleStore.runOps target32 sampleLayout [.write 1 [7]]).isSome = true := by decide +kernel

/-- The sample store after a write of one byte. -/
def writtenStore : NvsSystem := (Option.get _ sampleStore_writes).2

theorem writtenStore_reached : Reached target32 sampleLayout writtenStore :=
  ⟨sampleStore, [.write 1 [7]], _, sampleStore_fresh, by decide, by decide +kernel,
    (Option.some_get sampleStore_writes).symm⟩

section Cut

/-- The record of which only the header and the first `i` bytes behind it were programmed. -/
def NvsRecord.cut (r : NvsRecord) (i : Nat) : NvsRecord where
  hdr := r.hdr
  body := r.body.take i ++ List.replicate (r.body.length - i) 0xFF
  body_length := by
    rw [← r.body_length, List.length_append, List.length_take, List.length_replicate]
    omega
  key_ne := r.key_ne

@[simp] theorem NvsRecord.cut_key (r : NvsRecord) (i : Nat) : (r.cut i).key = r.key := rfl

@[simp] theorem NvsRecord.cut_valid (r : NvsRecord) (i : Nat) : (r.cut i).valid = r.valid := rfl

@[simp] theorem NvsRecord.cut_size (r : NvsRecord) (i : Nat) : (r.cut i).size = r.size := by
  rw [NvsRecord.size_eq, NvsRecord.size_eq]
  rfl

/-- Programming a record up to `i` bytes behind its header leaves the cut record. -/
theorem NvsRecord.cut_bytes (r : NvsRecord) (i : Nat) :
    r.bytes.take (8 + i) ++ List.replicate (r.body.length - i) 0xFF = (r.cut i).bytes := by
  rw [NvsRecord.bytes, NvsRecord.bytes, List.take_append, RecordHdr.bytes_length,
    List.take_of_length_le (by simp), List.append_assoc, Nat.add_sub_cancel_left]
  rfl

/-- A cut record that shows the payload of a complete record shows all of it. -/
theorem NvsRecord.cut_body_eq (r : NvsRecord) {i : Nat} (hr : r.Complete)
    (hpay : (r.cut i).payload = r.payload) : (r.cut i).body = r.body := by
  obtain ⟨n, hpad⟩ := hr.padding
  have hlen : (r.cut i).length = r.length := rfl
  have hpaylen := r.payload_length
  have hdrop : r.body.drop r.length = List.replicate n 0xFF := by
    rw [hpad, List.drop_left' hpaylen]
  have hbodylen : (r.cut i).body.length = r.body.length := by
    rw [(r.cut i).body_length, r.body_length]
    rfl
  apply List.ext_getElem hbodylen
  intro x hx hx'
  by_cases hin : x < r.length
  · have h1 : (r.cut i).payload[x]? = r.payload[x]? := by rw [hpay]
    rw [NvsRecord.payload, NvsRecord.payload, hlen, List.getElem?_take_of_lt hin,
      List.getElem?_take_of_lt hin, List.getElem?_eq_getElem hx, List.getElem?_eq_getElem hx'] at h1
    exact Option.some.inj h1
  · -- behind the payload both have erased bytes
    have hff : ∀ y (hy : y < r.body.length), r.length ≤ y → r.body[y] = 0xFF := by
      intro y hy hle
      have h2 : (r.body.drop r.length)[y - r.length]? = some r.body[y] := by
        rw [List.getElem?_drop, Nat.add_sub_cancel' hle, List.getElem?_eq_getElem hy]
      rw [hdrop, List.getElem?_replicate] at h2
      split at h2
      · exact (Option.some.inj h2).symm
      · cases h2
    rw [hff x hx' (by omega)]
    simp only [NvsRecord.cut, List.getElem_append]
    split
    · rw [List.getElem_take]
      exact hff x hx' (by omega)
    · rw [List.getElem_replicate]

/-- What is visible of a list of records when the power failed while they were copied:
some of them, and possibly a last one whose end is erased. -/
inductive Cut : List NvsRecord → List NvsRecord → Prop
  | nil (rs : List NvsRecord) : Cut rs []
  | torn (r : NvsRecord) (i : Nat) (rest : List NvsRecord) : Cut (r :: rest) [r.cut i]
  | cons (r : NvsRecord) {rest log : List NvsRecord} (h : Cut rest log) :
      Cut (r :: rest) (r :: log)

theorem Cut.key_mem {rs log : List NvsRecord} (h : Cut rs log) {x : NvsRecord} (hx : x ∈ log) :
    ∃ y ∈ rs, y.key = x.key := by
  induction h with
  | nil rs => cases hx
  | torn r i rest =>
      rw [List.mem_singleton.mp hx]
      exact ⟨r, List.mem_cons_self, rfl⟩
  | cons r h ih =>
      rcases List.mem_cons.mp hx with rfl | hx
      · exact ⟨x, List.mem_cons_self, rfl⟩
      · obtain ⟨y, hy, hk⟩ := ih hx
        exact ⟨y, List.mem_cons_of_mem _ hy, hk⟩

/-- A prefix of the copy chunks, up to erased bytes, is a cut of the records. -/
theorem exists_cut (rs : List NvsRecord) (j : Nat) :
    ∃ log n, Cut rs log ∧ logSize log ≤ logSize rs ∧
      ((logChunks rs).take j).flatten ++ List.replicate n 0xFF = logBytes log := by
  induction rs generalizing j with
  | nil => exact ⟨[], 0, Cut.nil _, Nat.le_refl _, by simp⟩
  | cons r rest ih =>
      rw [logChunks_cons, List.take_append, List.flatten_append, Memory.chunksOf_take_flatten]
      by_cases hall : (Memory.chunksOf (copyBufSize - 1) r.bytes).length ≤ j
      · -- the record is copied as a whole
        obtain ⟨log, n, hcut, hsize, hbytes⟩ :=
          ih (j - (Memory.chunksOf (copyBufSize - 1) r.bytes).length)
        refine ⟨r :: log, n, hcut.cons r, ?_, ?_⟩
        · simp only [logSize_cons]
          omega
        · rw [List.append_assoc, hbytes, logBytes_cons,
            ← Memory.chunksOf_take_flatten, List.take_of_length_le hall, Memory.chunksOf_flatten]
      · have hzero : j - (Memory.chunksOf (copyBufSize - 1) r.bytes).length = 0 := by omega
        rw [hzero, List.take_zero, List.flatten_nil, List.append_nil]
        by_cases hj : j = 0
        · subst hj
          exact ⟨[], 0, Cut.nil _, Nat.zero_le _, by simp⟩
        · -- at least the header is copied
          obtain ⟨i, hi⟩ : ∃ i, (copyBufSize - 1 + 1) * j = 8 + i :=
            ⟨(copyBufSize - 1 + 1) * j - 8, by rw [copyBufSize]; omega⟩
          refine ⟨[r.cut i], r.body.length - i, Cut.torn r i rest, ?_, ?_⟩
          · simp only [logSize_cons, logSize_nil, NvsRecord.cut_size]
            omega
          · rw [hi, r.cut_bytes, logBytes_cons, logBytes_nil, List.append_nil]

/-- A cut of complete records that gives every key the same value is all of them. -/
theorem Cut.logBytes_eq {rs log : List NvsRecord} (h : Cut rs log)
    (hkeys : rs.Pairwise fun x y => x.key ≠ y.key) (hvalid : ∀ r ∈ rs, r.valid = true)
    (hsound : Sound rs)
    (hvalue : ∀ key, key ≠ fwNvsKeyEmpty → valueOf log key = valueOf rs key) :
    logBytes log = logBytes rs := by
  have hsome : ∀ r ∈ rs, valueOf log r.key = some r.payload := fun r hr => by
    rw [hvalue r.key r.key_ne, valueOf, KeyedLog.latest_of_pairwise _ hkeys hr]
    simp [Option.filter, hvalid r hr]
  induction h with
  | nil rs =>
      cases rs with
      | nil => rfl
      | cons r rest => exact absurd (hsome r List.mem_cons_self) (by simp [valueOf])
  | torn r i rest =>
      obtain ⟨hr, _⟩ := List.pairwise_cons.mp hkeys
      cases rest with
      | cons x rest =>
          -- the key of the next record is missing
          have hx := hsome x (List.mem_cons_of_mem _ List.mem_cons_self)
          have hne : ¬ r.key = x.key := hr x List.mem_cons_self
          simp [valueOf, KeyedLog.latest, hne] at hx
      | nil =>
          have hpay : (r.cut i).payload = r.payload := by
            have hv := hsome r List.mem_cons_self
            simpa [valueOf, KeyedLog.latest, Option.filter, hvalid r List.mem_cons_self] using hv
          have hbody : (r.cut i).body = r.body :=
            r.cut_body_eq (hsound r List.mem_cons_self (hvalid r List.mem_cons_self)) hpay
          rw [logBytes_cons, logBytes_cons, NvsRecord.bytes, NvsRecord.bytes, hbody]
          rfl
  | @cons r rest log h ih =>
      obtain ⟨hr, hrest⟩ := List.pairwise_cons.mp hkeys
      have hskip : ∀ l : List NvsRecord, ∀ key, ¬ r.key = key →
          valueOf (r :: l) key = valueOf l key :=
        fun l key hne => by simp [valueOf, KeyedLog.latest, hne]
      have hnone : ∀ l : List NvsRecord, (∀ x ∈ l, ∃ y ∈ rest, y.key = x.key) →
          valueOf l r.key = none := fun l hl => by
        have hlatest : KeyedLog.latest NvsRecord.key r.key l = none := by
          rw [KeyedLog.latest_eq_none_iff]
          intro x hx hk
          obtain ⟨y, hy, hyk⟩ := hl x hx
          exact hr y hy (by rw [hyk, hk])
        simp [valueOf, hlatest]
      have hvalue' : ∀ key, key ≠ fwNvsKeyEmpty → valueOf log key = valueOf rest key := by
        intro key hkey
        by_cases hk : r.key = key
        · subst hk
          rw [hnone log fun x hx => h.key_mem hx, hnone rest fun x hx => ⟨x, hx, rfl⟩]
        · rw [← hskip log key hk, hvalue key hkey, hskip rest key hk]
      have hsome' : ∀ x ∈ rest, valueOf log x.key = some x.payload := fun x hx => by
        rw [← hskip log x.key (hr x hx)]
        exact hsome x (List.mem_cons_of_mem _ hx)
      rw [logBytes_cons, logBytes_cons, ih hrest (fun x hx => hvalid x (List.mem_cons_of_mem _ hx))
        (fun x hx => hsound x (List.mem_cons_of_mem _ hx)) hvalue' hsome']

end Cut

section Compaction

variable {L : BankLayout} {m : Memory} {b : Fin 2} {seq : UInt32} {log : List NvsRecord}

theorem flatten_take_length (chunks : List (List UInt8)) (j : Nat) :
    (chunks.take j).flatten.length ≤ chunks.flatten.length := by
  conv_rhs => rw [← List.take_append_drop j chunks, List.flatten_append, List.length_append]
  omega

/-- The flash in the middle of the copy. -/
theorem compactEffects_take_copy (m : Memory) {kept : List NvsRecord} {j : Nat}
    (hj : j ≤ (logChunks kept).length) :
    flashReplay L.sectorSize ((compactEffects L b seq kept).take (j + 2)) m =
      copyImage L m b seq ((logChunks kept).take j) := by
  have hcut : ((writesFrom (L.addr (1 - b) + sectorHdrSize) (logChunks kept)) ++
      [FlashCall.eraseSector (L.addr b)]).take j =
      writesFrom (L.addr (1 - b) + sectorHdrSize) ((logChunks kept).take j) := by
    rw [List.take_append_of_le_length (by rw [writesFrom_length]; exact hj), writesFrom_take]
  rw [compactEffects, List.take_succ_cons, List.take_succ_cons, hcut]
  exact flashReplay_writesFrom _ _ _ _

/-- Behind the copy there is only the source erase. -/
theorem compactEffects_take_all {kept : List NvsRecord} {j : Nat}
    (hj : (logChunks kept).length < j) :
    (compactEffects L b seq kept).take (j + 2) = compactEffects L b seq kept := by
  apply List.take_of_length_le
  simp only [compactEffects, List.length_cons, List.length_append, writesFrom_length,
    List.length_nil]
  omega

/-- While the copy runs, the destination looks like an active bank with the log that the
chunks show. -/
theorem copyImage_active (h : ActiveBank L m b seq log) {j n : Nat} {log' : List NvsRecord}
    (hsize : logSize log' ≤ logSize (live log))
    (hbytes : ((logChunks (live log)).take j).flatten ++ List.replicate n 0xFF = logBytes log') :
    ActiveBank L (copyImage L m b seq ((logChunks (live log)).take j)) (1 - b) (seq + 1) log' := by
  have hlive := live_fits h.bankLog
  have htake := flatten_take_length (logChunks (live log)) j
  have hh : (copyImage L m b seq ((logChunks (live log)).take j)).Holds (L.addr (1 - b))
      L.sectorSize ((activeHdr (seq + 1)).bytes ++ ((logChunks (live log)).take j).flatten) :=
    copyImage_holds m (by omega)
  have hlen : ((activeHdr (seq + 1)).bytes ++ ((logChunks (live log)).take j).flatten).length + n ≤
      L.sectorSize := by
    have hlog' : ((logChunks (live log)).take j).flatten.length + n = logSize log' := by
      rw [← logBytes_length, ← hbytes, List.length_append, List.length_replicate]
    rw [logChunks_flatten, logBytes_length] at hlive
    rw [List.length_append, SectorHdr.bytes_length, Nat.add_assoc, hlog']
    rw [sectorHdrSize] at hlive
    omega
  have hh' := hh.append_erased hlen
  rw [List.append_assoc, hbytes] at hh'
  exact ⟨[], by rw [List.append_nil]; exact hh', fun hne => absurd rfl hne⟩

/-- The next sequence number is preferred, unless it wraps to zero. -/
theorem prefers_next {seq : UInt32} (h : seq ≠ 0xFFFFFFFF) (b : Fin 2) :
    Prefers b (seq + 1) seq := by
  have hlt : seq < seq + 1 := by
    rw [UInt32.lt_iff_toNat_lt, UInt32.toNat_add]
    have h1 := seq.toNat_lt
    have h2 : seq.toNat ≠ 0xFFFFFFFF := fun he => h (UInt32.toNat_inj.mp he)
    have h3 : (1 : UInt32).toNat = 1 := rfl
    omega
  rw [Prefers]
  split
  · exact hlt
  · exact UInt32.not_lt.mpr (UInt32.le_of_lt hlt)

theorem prefers_wrapped (b : Fin 2) : Prefers b 0xFFFFFFFF (0xFFFFFFFF + 1) := by
  revert b
  decide

/-- Equal reads of all keys mean equal values when one of the logs is sound. -/
theorem valueOf_eq_of_reads {log log' : List NvsRecord} (h : Sound log)
    (hread : ∀ key, key ≠ fwNvsKeyEmpty → ∀ outData,
      readLog log' key outData = readLog log key outData)
    {key : UInt16} (hkey : key ≠ fwNvsKeyEmpty) : valueOf log' key = valueOf log key := by
  have hr := hread key hkey (List.replicate ((valueOf log key).getD []).length 0)
  rw [readLog_of_sound h] at hr
  rw [readLog] at hr
  rw [valueOf]
  cases hlast : (KeyedLog.latest NvsRecord.key key log').filter NvsRecord.valid with
  | none =>
      rw [hlast] at hr
      have hst : (readValue (valueOf log key)
        (List.replicate ((valueOf log key).getD []).length 0)).status = .errNotFound := by rw [← hr]
      rw [(readValue_status _ _).mp hst]
      rfl
  | some r =>
      rw [hlast] at hr
      cases hv : valueOf log key with
      | none =>
          rw [hv] at hr
          simp only [readRecord, readValue] at hr
          split at hr
          · cases hr
          · split at hr <;> cases hr
      | some v =>
          rw [hv] at hr
          have hlen := r.payload_length
          simp only [readRecord, readValue, Option.getD_some, List.length_replicate, Nat.lt_irrefl,
            if_false, List.drop_replicate, Nat.sub_self, List.replicate_zero, List.append_nil] at hr
          split at hr
          · cases hr
          · split at hr
            · cases hr
            · obtain ⟨hpay, hrlen⟩ : r.payload ++ List.replicate (v.length - r.length) 0 = v ∧
                  r.length = v.length := by simpa using hr
              rw [hrlen, Nat.sub_self, List.replicate_zero, List.append_nil] at hpay
              rw [Option.map_some, hpay]

/-- The chunks in which `nvs_compact` copies the live records of a state. -/
def NvsSystem.liveChunks (s : NvsSystem) : List (List UInt8) :=
  s.liveRecords.flatMap fun r => Memory.chunksOf (copyBufSize - 1) r.2

theorem Mounted.liveChunks_eq {s : NvsSystem} (h : Mounted L s.nvs s.flash log) :
    s.liveChunks = logChunks (live log) := by
  have hrecords : s.liveRecords = _ := h.liveRecords_eq
  rw [NvsSystem.liveChunks, hrecords, List.flatMap_map]
  rfl

/-- When the power fails after `k` changes of a compaction, the next mount succeeds and
every read returns what it returned before. -/
def CompactionSafe (T : Target) (L : BankLayout) (s : NvsSystem) (k : Nat) : Prop :=
  ∀ fresh, ∃ t, NvsSystem.step T L ⟨fresh, s.cutFlash L (nvsCompact s.nvs) k⟩ (.remount fresh) =
      some (.status .ok, t) ∧
    ∀ key outData, t.read L key outData = s.read L key outData

theorem read_empty (s : NvsSystem) (outData : List UInt8) :
    s.read L fwNvsKeyEmpty outData = some ⟨.errInvalidArg, outData, none⟩ := by
  rw [NvsSystem.read, fwNvsRead, if_pos rfl]
  rfl

theorem remount_of_yields {T : Target} {fresh : FwNvs} {cs : List FlashCall} {m m' : Memory}
    (h : FlashYields L.sectorSize m (fwNvsInit T fresh ⟨L.sectorSize⟩ (L.addr 0) (L.addr 1)) cs
      (.ok, ram L b seq log) m') :
    NvsSystem.step T L ⟨fresh, m⟩ (.remount fresh) = some (.status .ok, ⟨ram L b seq log, m'⟩) :=
  step_of_yields ⟨_, h.bind_observing (Program.Yields.ret _ _)⟩

/-- What a mounted bank returns for each key. -/
theorem read_ram (h : BankLog L m b seq log) {key : UInt16} (hkey : key ≠ fwNvsKeyEmpty)
    (outData : List UInt8) :
    NvsSystem.read L ⟨ram L b seq log, m⟩ key outData = some (readLog log key outData) := by
  rw [NvsSystem.read, (fwNvsRead_yields h hkey outData).run_eq]

/-- A cut is safe exactly when the log that the mount finds reads like the old one. -/
theorem compactionSafe_iff {T : Target} {s : NvsSystem} {k : Nat} {log' : List NvsRecord}
    {b' : Fin 2} {seq' : UInt32} {m' : Memory} (h : Mounted L s.nvs s.flash log)
    (hmount : ∀ fresh, ∃ cs, FlashYields L.sectorSize (s.cutFlash L (nvsCompact s.nvs) k)
      (fwNvsInit T fresh ⟨L.sectorSize⟩ (L.addr 0) (L.addr 1)) cs (.ok, ram L b' seq' log') m')
    (hact : ActiveBank L m' b' seq' log') :
    CompactionSafe T L s k ↔ ∀ key, key ≠ fwNvsKeyEmpty →
      ∀ outData, readLog log' key outData = readLog log key outData := by
  have hold : ∀ key, key ≠ fwNvsKeyEmpty → ∀ outData,
      s.read L key outData = some (readLog log key outData) := fun key hkey outData => by
    rw [h.read_eq hkey, readLog_of_sound h.sound]
  constructor
  · intro hsafe key hkey outData
    obtain ⟨t, hstep, hreads⟩ := hsafe s.nvs
    obtain ⟨cs, hrun⟩ := hmount s.nvs
    rw [remount_of_yields hrun] at hstep
    obtain rfl : (⟨ram L b' seq' log', m'⟩ : NvsSystem) = t := by simpa using hstep
    have hr := hreads key outData
    rw [read_ram hact.bankLog hkey, hold key hkey] at hr
    exact Option.some.inj hr
  · intro hreads fresh
    obtain ⟨cs, hrun⟩ := hmount fresh
    refine ⟨_, remount_of_yields hrun, fun key outData => ?_⟩
    by_cases hkey : key = fwNvsKeyEmpty
    · rw [hkey, read_empty, read_empty]
    · rw [read_ram hact.bankLog hkey, hold key hkey, hreads key hkey]

theorem Mounted.cutFlash_compact {s : NvsSystem} (h : Mounted L s.nvs s.flash log) (k : Nat) :
    s.cutFlash L (nvsCompact s.nvs) k = flashReplay L.sectorSize
      ((compactEffects L s.nvs.activeBank s.nvs.sequence (live log)).take k) s.flash := by
  have hrun := nvsCompact_ram_yields h.flash.active.bankLog
  rw [← h.nvs_eq] at hrun
  rw [NvsSystem.cutFlash, hrun.effects_eq]

/-- Before the header of the destination is programmed nothing is lost. -/
theorem compactionSafe_early {T : Target} {s : NvsSystem} (h : Mounted L s.nvs s.flash log)
    {k : Nat} (hk : k ≤ 1) : CompactionSafe T L s k := by
  have hflash : OnFlash L (s.cutFlash L (nvsCompact s.nvs) k) s.nvs.activeBank s.nvs.sequence
      log := by
    rw [h.cutFlash_compact]
    obtain rfl | rfl : k = 0 ∨ k = 1 := by omega
    · exact h.flash
    · exact ⟨h.flash.active.erase_other, hdrAt_erase L _ _⟩
  exact (compactionSafe_iff h (fun fresh => ⟨_, fwNvsInit_yields T fresh hflash⟩)
    hflash.active).mpr fun _ _ _ => rfl

/-- Behind the source erase the compaction is complete. -/
theorem compactionSafe_late {T : Target} {s : NvsSystem} (h : Mounted L s.nvs s.flash log) {j : Nat}
    (hj : (logChunks (live log)).length < j) : CompactionSafe T L s (j + 2) := by
  have hcomp := compacted_onFlash h.flash.active.bankLog
  have hcut : s.cutFlash L (nvsCompact s.nvs) (j + 2) =
      compacted L s.flash s.nvs.activeBank s.nvs.sequence log := by
    rw [h.cutFlash_compact, compactEffects_take_all hj]
    exact (nvsCompact_ram_yields h.flash.active.bankLog).replay_eq
  rw [← hcut] at hcomp
  refine (compactionSafe_iff h (fun fresh => ⟨_, fwNvsInit_yields T fresh hcomp⟩)
    hcomp.active).mpr fun key _ outData => ?_
  rw [readLog_of_sound h.sound, readLog_of_sound
    (h.sound.sublist (KeyedLog.survivors_sublist _ _ log)), valueOf_live]

section Copying

variable {T : Target} {s : NvsSystem} {j : Nat}

/-- While the copy runs both banks are valid. -/
theorem copyImage_both (h : ActiveBank L m b seq log) (j : Nat) :
    ActiveBank L (copyImage L m b seq ((logChunks (live log)).take j)) b seq log ∧
      hdrAt (copyImage L m b seq ((logChunks (live log)).take j)) (L.addr (1 - b)) =
        activeHdr (seq + 1) := by
  have hlive := live_fits h.bankLog
  have htake := flatten_take_length (logChunks (live log)) j
  obtain ⟨log', n, _, hsize, hbytes⟩ := exists_cut (live log) j
  exact ⟨h.congr fun x hl hr => copyImage_source (by omega) hl hr,
    (copyImage_active h hsize hbytes).hdr_eq⟩

/-- With a wrapped sequence number the mount returns to the source bank. -/
theorem compactionSafe_wrapped (h : Mounted L s.nvs s.flash log)
    (hj : j ≤ (logChunks (live log)).length) (hseq : s.nvs.sequence = 0xFFFFFFFF) :
    CompactionSafe T L s (j + 2) := by
  obtain ⟨hsrc, hdst⟩ := copyImage_both h.flash.active j
  rw [← compactEffects_take_copy s.flash hj, ← h.cutFlash_compact] at hsrc hdst
  have hprefers : Prefers s.nvs.activeBank s.nvs.sequence
      (hdrAt (s.cutFlash L (nvsCompact s.nvs) (j + 2))
        (L.addr (1 - s.nvs.activeBank))).sequence := by
    rw [hdst, hseq]
    exact prefers_wrapped _
  have hvalid : (hdrAt (s.cutFlash L (nvsCompact s.nvs) (j + 2))
      (L.addr (1 - s.nvs.activeBank))).valid = true := by rw [hdst, activeHdr_valid]
  exact (compactionSafe_iff h
    (fun fresh => ⟨_, fwNvsInit_yields_both T fresh hsrc hvalid hprefers⟩)
    hsrc.erase_other).mpr fun _ _ _ => rfl

/-- Otherwise the mount chooses the destination, whatever was copied so far. -/
theorem compactionSafe_copying (h : Mounted L s.nvs s.flash log)
    (hj : j ≤ (logChunks (live log)).length) (hseq : s.nvs.sequence ≠ 0xFFFFFFFF) {n : Nat}
    {log' : List NvsRecord} (hsize : logSize log' ≤ logSize (live log))
    (hbytes : ((logChunks (live log)).take j).flatten ++ List.replicate n 0xFF = logBytes log') :
    CompactionSafe T L s (j + 2) ↔ ∀ key, key ≠ fwNvsKeyEmpty →
      ∀ outData, readLog log' key outData = readLog log key outData := by
  have hdst := copyImage_active h.flash.active hsize hbytes
  have hsrc := (copyImage_both h.flash.active j).1.hdr_eq
  rw [← compactEffects_take_copy s.flash hj, ← h.cutFlash_compact] at hsrc hdst
  rw [← BankLayout.other_other s.nvs.activeBank] at hsrc
  have hvalid : (hdrAt (s.cutFlash L (nvsCompact s.nvs) (j + 2))
      (L.addr (1 - (1 - s.nvs.activeBank)))).valid = true := by rw [hsrc, activeHdr_valid]
  have hprefers : Prefers (1 - s.nvs.activeBank) (s.nvs.sequence + 1)
      (hdrAt (s.cutFlash L (nvsCompact s.nvs) (j + 2))
        (L.addr (1 - (1 - s.nvs.activeBank)))).sequence := by
    rw [hsrc]
    exact prefers_next hseq _
  exact compactionSafe_iff h
    (fun fresh => ⟨_, fwNvsInit_yields_both T fresh hdst hvalid hprefers⟩) hdst.erase_other

/-- Then only erased bytes may be missing. -/
theorem compactionSafe_copying_iff (h : Mounted L s.nvs s.flash log)
    (hj : j ≤ (logChunks (live log)).length) (hseq : s.nvs.sequence ≠ 0xFFFFFFFF) :
    CompactionSafe T L s (j + 2) ↔
      ∀ c ∈ (logChunks (live log)).drop j, ∀ x ∈ c, x = 0xFF := by
  have hlive : Sound (live log) := h.sound.sublist (KeyedLog.survivors_sublist _ _ log)
  have hsplit : ((logChunks (live log)).take j).flatten ++ ((logChunks (live log)).drop j).flatten =
      logBytes (live log) := by
    rw [← List.flatten_append, List.take_append_drop, logChunks_flatten]
  constructor
  · intro hsafe
    obtain ⟨log', n, hcut, hsize, hbytes⟩ := exists_cut (live log) j
    have hreads := (compactionSafe_copying h hj hseq hsize hbytes).mp hsafe
    have hvalue : ∀ key, key ≠ fwNvsKeyEmpty → valueOf log' key = valueOf (live log) key :=
      fun key hkey => by rw [valueOf_live, valueOf_eq_of_reads h.sound hreads hkey]
    have hall := hcut.logBytes_eq (KeyedLog.survivors_pairwise _ _ log)
      (fun r hr => (KeyedLog.mem_survivors _ _ hr).2.1) hlive hvalue
    rw [← hbytes, ← hsplit] at hall
    have hrest := List.append_cancel_left hall
    intro c hc x hx
    have hmem : x ∈ ((logChunks (live log)).drop j).flatten := List.mem_flatten.mpr ⟨c, hc, hx⟩
    rw [← hrest] at hmem
    exact List.eq_of_mem_replicate hmem
  · intro hff
    have hrest : ((logChunks (live log)).drop j).flatten =
        List.replicate ((logChunks (live log)).drop j).flatten.length 0xFF := by
      rw [List.eq_replicate_iff]
      refine ⟨rfl, fun x hx => ?_⟩
      obtain ⟨c, hc, hxc⟩ := List.mem_flatten.mp hx
      exact hff c hc x hxc
    rw [hrest] at hsplit
    refine (compactionSafe_copying h hj hseq (Nat.le_refl _) hsplit).mpr fun key _ outData => ?_
    rw [readLog_of_sound h.sound, readLog_of_sound hlive, valueOf_live]

end Copying

/-- Losing power during a compaction is harmless exactly when nothing but the first erase was
done, when the sequence number wraps, or when only erased bytes were left to copy. -/
theorem nvsCompact_powerFail_iff (T : Target) (L : BankLayout) {s : NvsSystem}
    (hs : Reached T L s) (k : Nat) :
    CompactionSafe T L s k ↔
      k ≤ 1 ∨ s.nvs.sequence = 0xFFFFFFFF ∨ ∀ c ∈ s.liveChunks.drop (k - 2), ∀ x ∈ c, x = 0xFF := by
  obtain ⟨log, h⟩ := hs.mounted
  rw [h.liveChunks_eq]
  by_cases hk : k ≤ 1
  · exact ⟨fun _ => Or.inl hk, fun _ => compactionSafe_early h hk⟩
  · obtain ⟨j, rfl⟩ : ∃ j, k = j + 2 := ⟨k - 2, by omega⟩
    rw [Nat.add_sub_cancel]
    by_cases hj : j ≤ (logChunks (live log)).length
    · by_cases hseq : s.nvs.sequence = 0xFFFFFFFF
      · exact ⟨fun _ => Or.inr (Or.inl hseq), fun _ => compactionSafe_wrapped h hj hseq⟩
      · rw [compactionSafe_copying_iff h hj hseq]
        exact ⟨fun hff => Or.inr (Or.inr hff), fun hor => (hor.resolve_left hk).resolve_left hseq⟩
    · have hnil : (logChunks (live log)).drop j = [] := List.drop_eq_nil_of_le (by omega)
      rw [hnil]
      exact ⟨fun _ => Or.inr (Or.inr fun c hc => absurd hc List.not_mem_nil),
        fun _ => compactionSafe_late h (Nat.not_le.mp hj)⟩

theorem nvsCompact_powerFail_written :
    CompactionSafe target32 sampleLayout writtenStore 1 ↔
      1 ≤ 1 ∨ writtenStore.nvs.sequence = 0xFFFFFFFF ∨
        ∀ c ∈ writtenStore.liveChunks.drop (1 - 2), ∀ x ∈ c, x = 0xFF :=
  nvsCompact_powerFail_iff target32 sampleLayout writtenStore_reached 1

/-- With only the erase and the header write done, the mount finds an empty bank. -/
theorem nvsCompact_powerFail_loses :
    Reached target32 sampleLayout writtenStore ∧
      ¬ CompactionSafe target32 sampleLayout writtenStore 2 := by
  refine ⟨writtenStore_reached, fun hsafe => ?_⟩
  obtain ⟨t, ht, hreads⟩ := hsafe sampleStore.nvs
  have hbefore : writtenStore.read sampleLayout 1 [0] = some ⟨.ok, [7], some 1⟩ := by
    decide +kernel
  have hafter : (NvsSystem.step target32 sampleLayout
      ⟨sampleStore.nvs, writtenStore.cutFlash sampleLayout (nvsCompact writtenStore.nvs) 2⟩
      (.remount sampleStore.nvs)).bind (fun r => r.2.read sampleLayout 1 [0]) =
        some ⟨.errNotFound, [0], none⟩ := by
    decide +kernel
  rw [ht, Option.bind_some, hreads, hbefore] at hafter
  simp at hafter

end Compaction

section Write

variable {T : Target} {L : BankLayout} {s : NvsSystem} {log : List NvsRecord} {key : UInt16}
  {data : List UInt8}

/-- When the power fails after `k` changes of a write, the next mount succeeds, the written
key reads as before or as the new value, and every other key reads as before. -/
def WriteSafe (T : Target) (L : BankLayout) (s : NvsSystem) (key : UInt16) (data : List UInt8)
    (k : Nat) : Prop :=
  ∀ fresh, ∃ t, NvsSystem.step T L ⟨fresh, s.cutFlash L (fwNvsWrite T s.nvs key data) k⟩
      (.remount fresh) = some (.status .ok, t) ∧
    (∀ outData, t.read L key outData = s.read L key outData ∨
      t.read L key outData = some (readValue (some data) outData)) ∧
    ∀ other, other ≠ key → ∀ outData, t.read L other outData = s.read L other outData

theorem readLog_append_other {r : NvsRecord} {other : UInt16} (h : r.key ≠ other)
    (outData : List UInt8) : readLog (log ++ [r]) other outData = readLog log other outData := by
  rw [readLog, readLog, KeyedLog.latest_concat, if_neg h]

theorem readLog_append_self {r : NvsRecord} (hv : r.valid = true) (outData : List UInt8) :
    readLog (log ++ [r]) r.key outData = readRecord r outData := by
  rw [readLog, KeyedLog.latest_concat, if_pos rfl]
  simp [Option.filter, hv]

/-- A cut write is safe exactly when its record reads like the old or the new value. -/
theorem writeSafe_iff {r : NvsRecord} {k : Nat} (h : Mounted L s.nvs s.flash log)
    (hr : r.valid = true)
    (hflash : OnFlash L (s.cutFlash L (fwNvsWrite T s.nvs r.key data) k) s.nvs.activeBank
      s.nvs.sequence (log ++ [r])) :
    WriteSafe T L s r.key data k ↔ ∀ outData, readRecord r outData =
        readValue (valueOf log r.key) outData ∨
      readRecord r outData = readValue (some data) outData := by
  have hkey : r.key ≠ fwNvsKeyEmpty := r.key_ne
  have hstep : ∀ fresh, NvsSystem.step T L ⟨fresh, s.cutFlash L (fwNvsWrite T s.nvs r.key data) k⟩
      (.remount fresh) = some (.status .ok, ⟨ram L s.nvs.activeBank s.nvs.sequence (log ++ [r]),
        s.cutFlash L (fwNvsWrite T s.nvs r.key data) k⟩) := fun fresh =>
    remount_of_yields (fwNvsInit_yields T fresh hflash)
  constructor
  · intro hsafe outData
    obtain ⟨t, ht, hreads, _⟩ := hsafe s.nvs
    rw [hstep] at ht
    obtain rfl : _ = t := by simpa using ht
    have hread := hreads outData
    rw [read_ram hflash.active.bankLog hkey, readLog_append_self hr, h.read_eq hkey] at hread
    simpa using hread
  · intro hreads fresh
    refine ⟨_, hstep fresh, fun outData => ?_, fun other hne outData => ?_⟩
    · rw [read_ram hflash.active.bankLog hkey, readLog_append_self hr, h.read_eq hkey]
      simpa using hreads outData
    · by_cases hempty : other = fwNvsKeyEmpty
      · rw [hempty, read_empty, read_empty]
      · rw [read_ram hflash.active.bankLog hempty, readLog_append_other (Ne.symm hne),
          h.read_eq hempty, readLog_of_sound h.sound]

theorem Mounted.cutFlash_write (h : Mounted L s.nvs s.flash log) (hkey : key ≠ fwNvsKeyEmpty)
    (hlen : data.length < 2 ^ 16)
    (hroom : s.nvs.writeOffset + (recordHdrSize + alignUp4 data.length) ≤ L.sectorSize) (k : Nat) :
    s.cutFlash L (fwNvsWrite T s.nvs key data) k =
      s.flash.programAll (L.addr s.nvs.activeBank + (sectorHdrSize + logSize log))
        ((valueChunks key data).take k) := by
  have hwo : s.nvs.writeOffset = sectorHdrSize + logSize log := by rw [h.nvs_eq, ram_writeOffset]
  rw [hwo] at hroom
  have hrun : FlashYields L.sectorSize s.flash
      (fwNvsWrite T (ram L s.nvs.activeBank s.nvs.sequence log) key data) _ _ _ :=
    fwNvsWrite_append T hkey hlen hroom
  rw [← h.nvs_eq] at hrun
  rw [NvsSystem.cutFlash, hrun.effects_eq, writesFrom_take, flashReplay_writesFrom]

/-- Programs that show the record up to erased bytes append it. -/
theorem Mounted.cutFlash_onFlash (h : Mounted L s.nvs s.flash log) (hkey : key ≠ fwNvsKeyEmpty)
    (hlen : data.length < 2 ^ 16)
    (hroom : s.nvs.writeOffset + (recordHdrSize + alignUp4 data.length) ≤ L.sectorSize)
    {k n : Nat} {r : NvsRecord} (hsize : r.size = 8 + alignUp4 data.length)
    (hbytes : ((valueChunks key data).take k).flatten ++ List.replicate n 0xFF = r.bytes) :
    OnFlash L (s.cutFlash L (fwNvsWrite T s.nvs key data) k) s.nvs.activeBank s.nvs.sequence
      (log ++ [r]) := by
  have hwo : s.nvs.writeOffset = sectorHdrSize + logSize log := by rw [h.nvs_eq, ram_writeOffset]
  rw [h.cutFlash_write hkey hlen hroom]
  exact h.flash.append_cut hbytes (by rw [hsize, ← hwo]; exact hroom)

/-- With header and payload programmed only erased padding is missing. -/
theorem valueChunks_take_flatten (hkey : key ≠ fwNvsKeyEmpty) (hlen : data.length < 2 ^ 16)
    (j : Nat) :
    ∃ n, ((valueChunks key data).take (j + 2)).flatten ++ List.replicate n 0xFF =
      (valueRecord key data hkey hlen).bytes := by
  have hall := valueChunks_flatten hkey hlen
  by_cases hlong : (valueChunks key data).length ≤ j + 2
  · exact ⟨0, by rw [List.take_of_length_le hlong, hall, List.replicate_zero, List.append_nil]⟩
  · -- only the padding of a value that has some is a third program
    rw [valueChunks, bodyChunks] at hlong
    by_cases h0 : data.length > 0
    · by_cases h1 : alignUp4 data.length > data.length
      · obtain rfl : j = 0 := by
          rw [if_pos h0, if_pos h1] at hlong
          simp at hlong
          omega
        refine ⟨padLength data, ?_⟩
        rw [valueChunks, bodyChunks, if_pos h0, if_pos h1]
        simp [NvsRecord.bytes, valueRecord]
      · rw [if_pos h0, if_neg h1] at hlong
        simp at hlong
    · rw [if_neg h0] at hlong
      simp at hlong

/-- Behind the header alone the record is cut to its header. -/
theorem valueChunks_take_one (hkey : key ≠ fwNvsKeyEmpty) (hlen : data.length < 2 ^ 16) :
    ((valueChunks key data).take 1).flatten ++
        List.replicate (valueRecord key data hkey hlen).body.length 0xFF =
      ((valueRecord key data hkey hlen).cut 0).bytes := by
  have hhdr : (valueRecord key data hkey hlen).bytes.take (8 + 0) = (valueHdr key data).bytes :=
    List.take_left' (RecordHdr.bytes_length _)
  rw [← NvsRecord.cut_bytes, hhdr]
  simp [valueChunks]

theorem cut_zero_payload (r : NvsRecord) : (r.cut 0).payload = List.replicate r.length 0xFF := by
  have hlen := r.body_length_eq
  have hbody : (r.cut 0).body = List.replicate r.body.length 0xFF := rfl
  rw [NvsRecord.payload, hbody, List.take_replicate, show (r.cut 0).length = r.length from rfl,
    Nat.min_eq_left (by omega)]

/-- A record with a wrong checksum reads like no value. -/
theorem readRecord_of_not_intact {r : NvsRecord} (h : ¬ r.intact) {outData : List UInt8}
    (hbuf : r.length ≤ outData.length) (value : Option (List UInt8)) :
    readRecord r outData ≠ readValue value outData := by
  have hst : (readRecord r outData).status = .errCorrupted := by
    rw [readRecord, if_neg (Nat.not_lt.mpr hbuf), if_pos (Ne.symm h)]
  intro he
  rw [he] at hst
  cases value with
  | none => cases hst
  | some v =>
      rw [readValue] at hst
      split at hst <;> cases hst

/-- A buffer of the length of the value is filled with it. -/
theorem readValue_full_iff {value : Option (List UInt8)} {v buf : List UInt8}
    (hbuf : buf.length = v.length) :
    readValue value buf = ⟨.ok, v, some v.length⟩ ↔ value = some v := by
  constructor
  · intro h
    cases value with
    | none => cases h
    | some w =>
        rw [readValue] at h
        split at h
        · cases h
        · obtain ⟨hw, hlen⟩ : w ++ buf.drop w.length = v ∧ w.length = v.length := by simpa using h
          rw [hlen, ← hbuf, List.drop_length, List.append_nil] at hw
          rw [hw]
  · rintro rfl
    rw [readValue, if_neg (by omega), ← hbuf, List.drop_length, List.append_nil]

/-- The header-only record passes for the old or the new value in two cases. -/
theorem cut_zero_reads_iff (hkey : key ≠ fwNvsKeyEmpty) (hlen : data.length < 2 ^ 16)
    (value : Option (List UInt8)) :
    (∀ outData, readRecord ((valueRecord key data hkey hlen).cut 0) outData =
        readValue value outData ∨
      readRecord ((valueRecord key data hkey hlen).cut 0) outData =
        readValue (some data) outData) ↔
      (∀ x ∈ data, x = 0xFF) ∨ (value = some (List.replicate data.length 0xFF) ∧
        calcRecordCrc key (UInt16.ofNat data.length) (List.replicate data.length 0xFF) =
          calcRecordCrc key (UInt16.ofNat data.length) data) := by
  have hpay : ((valueRecord key data hkey hlen).cut 0).payload =
      List.replicate data.length 0xFF := by
    rw [cut_zero_payload, valueRecord_length]
  have hintact : ((valueRecord key data hkey hlen).cut 0).intact ↔
      calcRecordCrc key (UInt16.ofNat data.length) (List.replicate data.length 0xFF) =
        calcRecordCrc key (UInt16.ofNat data.length) data := by
    rw [NvsRecord.intact, hpay]
    exact eq_comm
  have hff : (∀ x ∈ data, x = 0xFF) ↔ data = List.replicate data.length 0xFF := by
    rw [List.eq_replicate_iff]
    simp
  rw [hff]
  constructor
  · intro hreads
    have hread := hreads (List.replicate data.length 0)
    have hbuf : (List.replicate data.length (0 : UInt8)).length =
        (List.replicate data.length (0xFF : UInt8)).length := by simp
    by_cases hc : ((valueRecord key data hkey hlen).cut 0).intact
    · rw [readRecord_of_intact hc, hpay] at hread
      rw [(readValue_full_iff hbuf).mpr rfl] at hread
      rcases hread with hold | hnew
      · exact Or.inr ⟨(readValue_full_iff hbuf).mp hold.symm, hintact.mp hc⟩
      · exact Or.inl (Option.some.inj ((readValue_full_iff hbuf).mp hnew.symm))
    · have hroom : ((valueRecord key data hkey hlen).cut 0).length ≤
          (List.replicate data.length (0 : UInt8)).length := by
        rw [List.length_replicate]
        exact Nat.le_of_eq (valueRecord_length hkey hlen)
      exact absurd hread (not_or.mpr
        ⟨readRecord_of_not_intact hc hroom _, readRecord_of_not_intact hc hroom _⟩)
  · rintro (hdata | ⟨hvalue, hcrc⟩) outData
    · right
      rw [readRecord_of_intact (hintact.mpr (by rw [← hdata])), hpay, ← hdata]
    · left
      rw [readRecord_of_intact (hintact.mpr hcrc), hpay, hvalue]

/-- Losing power during a write without compaction is harmless exactly when it does not fall
between header and payload, when the payload looks erased, or when the erased payload passes
for the old value. -/
theorem fwNvsWrite_powerFail_iff (T : Target) (L : BankLayout) {s : NvsSystem}
    (hs : Reached T L s) {key : UInt16} {data : List UInt8} (hkey : key ≠ fwNvsKeyEmpty)
    (hlen : data.length < 2 ^ 16)
    (hroom : s.nvs.writeOffset + (recordHdrSize + alignUp4 data.length) ≤ L.sectorSize) (k : Nat) :
    WriteSafe T L s key data k ↔ k ≠ 1 ∨ (∀ x ∈ data, x = 0xFF) ∨
      (s.read L key (List.replicate data.length 0) =
          some ⟨.ok, List.replicate data.length 0xFF, some data.length⟩ ∧
        calcRecordCrc key (UInt16.ofNat data.length) (List.replicate data.length 0xFF) =
          calcRecordCrc key (UInt16.ofNat data.length) data) := by
  obtain ⟨log, h⟩ := hs.mounted
  have hsize := valueRecord_size hkey hlen
  have hread : s.read L key (List.replicate data.length 0) =
      some ⟨.ok, List.replicate data.length 0xFF, some data.length⟩ ↔
        valueOf log key = some (List.replicate data.length 0xFF) := by
    have hfull : readValue (valueOf log key) (List.replicate data.length 0) =
        ⟨.ok, List.replicate data.length 0xFF,
          some (List.replicate data.length (0xFF : UInt8)).length⟩ ↔
          valueOf log key = some (List.replicate data.length 0xFF) := readValue_full_iff (by simp)
    rw [h.read_eq hkey, Option.some_inj]
    simpa using hfull
  rw [hread]
  match k with
  | 0 =>
      refine ⟨fun _ => Or.inl (by omega), fun _ fresh => ⟨s, ?_, fun _ => Or.inl rfl,
        fun _ _ _ => rfl⟩⟩
      exact step_of_yields ⟨_, (h.remount T fresh).bind_observing (Program.Yields.ret _ _)⟩
  | 1 =>
      have hflash := h.cutFlash_onFlash (T := T) hkey hlen hroom
        (r := (valueRecord key data hkey hlen).cut 0) (by rw [NvsRecord.cut_size, hsize])
        (valueChunks_take_one hkey hlen)
      have hvalid : ((valueRecord key data hkey hlen).cut 0).valid = true :=
        valueRecord_valid hkey hlen
      have hiff := writeSafe_iff h hvalid hflash
      refine (hiff.trans (cut_zero_reads_iff hkey hlen _)).trans ?_
      simp only [ne_eq, not_true_eq_false, false_or]
      exact Iff.rfl
  | j + 2 =>
      obtain ⟨n, hn⟩ := valueChunks_take_flatten hkey hlen j
      have hflash := h.cutFlash_onFlash (T := T) hkey hlen hroom hsize hn
      have hintact := valueRecord_intact hkey hlen
      have hsafe := (writeSafe_iff h (valueRecord_valid hkey hlen) hflash).mpr fun outData =>
        Or.inr (by rw [readRecord_of_intact hintact, valueRecord_payload])
      exact ⟨fun _ => Or.inl (by omega), fun _ => hsafe⟩

theorem fwNvsWrite_powerFail_written :
    WriteSafe target32 sampleLayout writtenStore 1 [9] 1 ↔
      1 ≠ 1 ∨ (∀ x ∈ ([9] : List UInt8), x = 0xFF) ∨
        (writtenStore.read sampleLayout 1 (List.replicate 1 0) =
            some ⟨.ok, List.replicate 1 0xFF, some 1⟩ ∧
          calcRecordCrc 1 (UInt16.ofNat 1) (List.replicate 1 0xFF) =
            calcRecordCrc 1 (UInt16.ofNat 1) [9]) :=
  fwNvsWrite_powerFail_iff target32 sampleLayout writtenStore_reached (by decide) (by decide)
    (by decide +kernel) 1

/-- With only the header of the new value programmed, the key reads as corrupted. -/
theorem fwNvsWrite_powerFail_corrupts :
    Reached target32 sampleLayout writtenStore ∧
      ¬ WriteSafe target32 sampleLayout writtenStore 1 [9] 1 := by
  refine ⟨writtenStore_reached, fun hsafe => ?_⟩
  obtain ⟨t, ht, hreads, _⟩ := hsafe sampleStore.nvs
  have hbefore : writtenStore.read sampleLayout 1 [0] = some ⟨.ok, [7], some 1⟩ := by
    decide +kernel
  have hafter : (NvsSystem.step target32 sampleLayout
      ⟨sampleStore.nvs,
        writtenStore.cutFlash sampleLayout (fwNvsWrite target32 writtenStore.nvs 1 [9]) 1⟩
      (.remount sampleStore.nvs)).bind (fun r => r.2.read sampleLayout 1 [0]) =
        some ⟨.errCorrupted, [0xFF], none⟩ := by
    decide +kernel
  have hread := hreads [0]
  rw [ht, Option.bind_some] at hafter
  rw [hafter, hbefore] at hread
  simp [readValue] at hread

end Write

end ZeroEmbedded.Nvs
