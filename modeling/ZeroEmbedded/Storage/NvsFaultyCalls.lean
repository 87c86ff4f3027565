import ZeroEmbedded.Storage.NvsFaults

/-!
# The public functions on a driver whose calls may fail

`Running` relates an instance to the records that it counts on, and to nothing
else on the flash. Every function of a running instance leaves it running.
-/

namespace ZeroEmbedded.Nvs

open Foundation

/-- The instance counts on the records of this log, which lie in its active bank. -/
structure Running (L : BankLayout) (nvs : FwNvs) (m : Memory) (log : List NvsRecord) : Prop where
  nvs_eq : nvs = ram L nvs.activeBank nvs.sequence log
  bank : BankLog L m nvs.activeBank nvs.sequence log

theorem BankLog.running {L : BankLayout} {m : Memory} {b : Fin 2} {seq : UInt32}
    {log : List NvsRecord} (hb : BankLog L m b seq log) : Running L (ram L b seq log) m log :=
  ⟨rfl, hb⟩

theorem Running.writeOffset_eq {L : BankLayout} {nvs : FwNvs} {m : Memory} {log : List NvsRecord}
    (hr : Running L nvs m log) : nvs.writeOffset = sectorHdrSize + logSize log := by
  rw [hr.nvs_eq, ram_writeOffset]

theorem Mounted.running {L : BankLayout} {nvs : FwNvs} {m : Memory} {log : List NvsRecord}
    (hm : Mounted L nvs m log) : Running L nvs m log :=
  ⟨hm.nvs_eq, hm.flash.active.bankLog⟩

section Calls

variable {σ : Type} {L : BankLayout} {V : FlashView σ} {h : Handler FlashCall FlashCall.Reply σ}
  {guard : FlashCall → σ → Prop} {safe : FlashCall → Prop} {d : σ} {nvs : FwNvs}
  {log : List NvsRecord} {key : UInt16} {data : List UInt8}

/-- A log that the instance may count on after a call, before the call adds its own record:
the log it had, or what a compaction kept of it. -/
def Survives (h : Handler FlashCall FlashCall.Reply σ) (guard : FlashCall → σ → Prop)
    (V : FlashView σ) (a : Nat) (log base : List NvsRecord) : Prop :=
  base.Sublist log ∧ (ErasesKnowingly h guard V a →
    KeyedLog.Retains NvsRecord.key NvsRecord.valid log base)

theorem Survives.refl (h : Handler FlashCall FlashCall.Reply σ) (guard : FlashCall → σ → Prop)
    (V : FlashView σ) (a : Nat) (log : List NvsRecord) : Survives h guard V a log log :=
  ⟨List.Sublist.refl _, fun _ => KeyedLog.Retains.refl _ _ _⟩

/-- A record of this value is the last one of the log. -/
def EndsWithValue (key : UInt16) (data : List UInt8) (base log : List NvsRecord) : Prop :=
  ∃ r : NvsRecord, r.hdr = valueHdr key data ∧ r.payload = data ∧ log = base ++ [r]

/-- `fw_nvs_write` keeps the instance running. When it succeeds, the value was added. -/
theorem fwNvsWrite_ensures (T : Target) (hD : FlashContract L V h guard safe)
    (hr : Running L nvs (V.mem d) log) (hlen : data.length < 2 ^ 16 ∨ WriteRefused T L data) :
    Program.Ensures h guard safe
      (fun res d' => ∃ base log', Survives h guard V (L.addr nvs.activeBank) log base ∧
        Running L res.2 (V.mem d') log' ∧
        if res.1 = .ok then EndsWithValue key data base log' else log' = base)
      (fwNvsWrite T nvs key data) d := by
  obtain ⟨hnvs, hb⟩ := hr
  generalize nvs.activeBank = b at hnvs hb ⊢
  generalize nvs.sequence = seq at hnvs hb
  subst hnvs
  have hsame := Survives.refl h guard V (L.addr b) log
  by_cases hkey : key = fwNvsKeyEmpty
  · rw [fwNvsWrite, if_pos hkey]
    exact Program.Ensures.ret ⟨log, log, hsame, hb.running, by simp⟩
  rw [fwNvsWrite_eq T (L := L) rfl hkey]
  by_cases hrefused : WriteRefused T L data
  · rw [if_pos hrefused]
    exact Program.Ensures.ret ⟨log, log, hsame, hb.running, by simp⟩
  have hlen' := hlen.resolve_right hrefused
  rw [if_neg hrefused]
  -- the append of the record behind a log that fits beside it
  have happend : ∀ b' seq' base d', BankLog L (V.mem d') b' seq' base →
      Survives h guard V (L.addr b) log base →
      sectorHdrSize + logSize base + (8 + alignUp4 data.length) ≤ L.sectorSize →
      Program.Ensures h guard safe
        (fun res d' => ∃ base log', Survives h guard V (L.addr b) log base ∧
          Running L res.2 (V.mem d') log' ∧
          if res.1 = .ok then EndsWithValue key data base log' else log' = base)
        (appendRecord (ram L b' seq' base) key data) d' := by
    intro b' seq' base d' hb' hsurvives hroom
    refine (appendRecord_ensures hD hb' hkey hlen' hroom).mono fun res t ht => ?_
    by_cases hst : res.1 = .ok
    · obtain ⟨-, r, hhdr, hpay, hres, hbank⟩ := ht.2 hst
      refine ⟨base, base ++ [r], hsurvives, ?_, ?_⟩
      · rw [hres]
        exact hbank.running
      · rw [if_pos hst]
        exact ⟨r, hhdr, hpay, rfl⟩
    · obtain ⟨hres, hbank⟩ := ht.1 hst
      refine ⟨base, base, hsurvives, ?_, by rw [if_neg hst]⟩
      rw [hres]
      exact hbank.running
  rw [ram_writeOffset, writeOffset_eq hlen' hb.fits]
  by_cases hroom : sectorHdrSize + logSize log + (8 + alignUp4 data.length) > L.sectorSize
  · rw [if_pos hroom]
    refine Program.Ensures.bind (nvsCompact_ensures hD hb) fun res d1 hd1 => ?_
    obtain ⟨st, nvs1⟩ := res
    by_cases hst : st = .ok
    · subst hst
      obtain ⟨kept, hres, hsub, hholds, hretains⟩ := hd1.2 rfl
      obtain rfl : nvs1 = ram L (1 - b) (seq + 1) kept := hres
      have hb1 := BankLog.of_holds hholds
      have hsurvives : Survives h guard V (L.addr b) log kept := ⟨hsub, hretains⟩
      simp only [ne_eq, not_true_eq_false, if_false, ram_writeOffset, ram_sectorSize,
        writeOffset_eq hlen' hb1.fits]
      by_cases hroom1 : sectorHdrSize + logSize kept + (8 + alignUp4 data.length) > L.sectorSize
      · rw [if_pos hroom1]
        exact Program.Ensures.ret ⟨kept, kept, hsurvives, hb1.running, by simp⟩
      · rw [if_neg hroom1]
        exact happend _ _ _ _ hb1 hsurvives (Nat.not_lt.mp hroom1)
    · obtain ⟨hres, hb1⟩ := hd1.1 hst
      obtain rfl : nvs1 = ram L b seq log := hres
      simp only [ne_eq, hst, not_false_eq_true, if_true]
      exact Program.Ensures.ret ⟨log, log, hsame, hb1.running, by simp [hst]⟩
  · rw [if_neg hroom]
    exact happend _ _ _ _ hb hsame (Nat.not_lt.mp hroom)

/-- `fw_nvs_read` of a running instance ends and leaves the flash alone. -/
theorem fwNvsRead_ensures (hD : FlashContract L V h guard safe) (hr : Running L nvs (V.mem d) log)
    (outData : List UInt8) :
    Program.Ensures h guard safe (fun _ d' => V.mem d' = V.mem d)
      (fwNvsRead nvs key outData) d := by
  obtain ⟨hnvs, hb⟩ := hr
  generalize nvs.activeBank = b at hnvs hb
  generalize nvs.sequence = seq at hnvs hb
  subst hnvs
  obtain ⟨slack, hlog⟩ := hb.logAt
  have hle := L.addr_le b
  have hinit : Match.initial.InBank L := fun hf => Bool.noConfusion hf
  have hloop := lookupLoop_ensures hD key hinit (Nat.lt_of_succ_lt hb.length_succ_lt)
    (rfl : V.mem d = _) hlog (ram_writeOffset L b seq log)
  rw [fwNvsRead]
  by_cases hkey : key = fwNvsKeyEmpty
  · rw [if_pos hkey]
    exact Program.Ensures.ret rfl
  rw [if_neg hkey]
  refine Program.Ensures.bind hloop fun mt d1 hd1 => ?_
  obtain ⟨hm1, hin⟩ := hd1
  cases hfound : mt.found with
  | false => exact Program.Ensures.ret hm1
  | true =>
      have hmatch := hin hfound
      simp only [Bool.not_true, Bool.false_eq_true, if_false]
      by_cases hbuf : outData.length < mt.matchHdr.length.toNat
      · rw [if_pos hbuf]
        exact Program.Ensures.ret hm1
      rw [if_neg hbuf]
      have hpayload : Program.Ensures h guard safe (fun _ d' => V.mem d' = V.mem d)
          (readPayload (u32 (L.addr b + mt.matchOffset + recordHdrSize)) mt.matchHdr.length.toNat
            outData) d1 := by
        rw [readPayload]
        by_cases hlen : mt.matchHdr.length.toNat > 0
        · have haddr : u32 (L.addr b + mt.matchOffset + recordHdrSize) =
              L.addr b + mt.matchOffset + recordHdrSize := u32_of_lt (by omega)
          rw [if_pos hlen, haddr]
          refine hD.flashRead (hD.allowed (.read _ _) ⟨b, by omega, by omega⟩) ?_ ?_
          · exact fun st buf d2 _ hm2 _ _ => Program.Ensures.ret (hm2.trans hm1)
          · exact fun d2 hm2 _ => Program.Ensures.ret (hm2.trans hm1)
        · rw [if_neg hlen]
          exact Program.Ensures.ret hm1
      refine Program.Ensures.bind hpayload fun res d2 hm2 => ?_
      split
      · exact Program.Ensures.ret hm2
      · split
        · exact Program.Ensures.ret hm2
        · exact Program.Ensures.ret hm2

/-- A record of the deleted key was added, or nothing. -/
def EndsWithDeletion (key : UInt16) (base log : List NvsRecord) : Prop :=
  log = base ∨ ∃ r : NvsRecord, r.key = key ∧ log = base ++ [r]

/-- The program of a tombstone behind the log of a running instance. A device that keeps
programs inside the banks does not take a tombstone that does not fit. -/
theorem tombstone_ensures (hD : FlashContract L V h guard safe) (hall : ∀ c, safe c)
    (hr : Running L nvs (V.mem d) log) (hkey : key ≠ fwNvsKeyEmpty) :
    Program.Ensures h guard safe
      (fun res d' => ∃ log', Running L res.2 (V.mem d') log' ∧ EndsWithDeletion key log log')
      (do
        let st ← flashWrite (u32 (nvs.bankAddr nvs.activeBank + nvs.writeOffset))
          (tombstoneHdr key).bytes
        if st ≠ .ok then return (st, nvs)
        return (.ok, { nvs with writeOffset := u32 (nvs.writeOffset + recordHdrSize) })) d := by
  obtain ⟨hnvs, hb⟩ := hr
  generalize nvs.activeBank = b at hnvs hb
  generalize nvs.sequence = seq at hnvs hb
  subst hnvs
  have hfit := hb.fits
  have hle := L.addr_le b
  have hle' := L.addr_le (1 - b)
  have hd := L.addr_disjoint b
  have hsz := L.sectorSize_le
  have hhdr : sectorHdrSize = 16 := rfl
  -- where the tombstone lands, also when the address wraps around
  have haddr : u32 (L.addr b + (sectorHdrSize + logSize log)) =
        L.addr b + (sectorHdrSize + logSize log) ∨
      u32 (L.addr b + (sectorHdrSize + logSize log)) = 0 ∧
        L.addr b + (sectorHdrSize + logSize log) = 2 ^ 32 := by
    rcases Nat.lt_or_ge (L.addr b + (sectorHdrSize + logSize log)) (2 ^ 32) with hlt | hge
    · exact Or.inl (u32_of_lt hlt)
    · have heq : L.addr b + (sectorHdrSize + logSize log) = 2 ^ 32 := by omega
      exact Or.inr ⟨by rw [heq]; rfl, heq⟩
  have hlen : (tombstoneHdr key).bytes.length = 8 := RecordHdr.bytes_length _
  have hframe : ∀ m', (∀ x, ¬ (u32 (L.addr b + (sectorHdrSize + logSize log)) ≤ x ∧
      x < u32 (L.addr b + (sectorHdrSize + logSize log)) + (tombstoneHdr key).bytes.length) →
      m' x = V.mem d x) → BankLog L m' b seq log := fun m' hm' =>
    hb.congr fun x hl hr => hm' x (by omega)
  simp only [ram_bankAddr, ram_writeOffset]
  refine hD.flashWrite (hall _) ?_ ?_
  · intro st d1 hst _ hout _
    simp only [ne_eq, hst, not_false_eq_true, if_true]
    exact Program.Ensures.ret ⟨log, (hframe _ hout).running, Or.inl rfl⟩
  · intro d1 hinside haccepts hm1
    have hroom : u32 (L.addr b + (sectorHdrSize + logSize log)) =
          L.addr b + (sectorHdrSize + logSize log) ∧
        sectorHdrSize + logSize log + 8 ≤ L.sectorSize := by
      obtain ⟨c, hc, hend⟩ := hinside
      rw [hlen] at hc hend
      rcases BankLayout.eq_or_other b c with rfl | rfl <;> omega
    obtain ⟨hat, hroom⟩ := hroom
    have hbytes : (V.mem d1).bytesAt (L.addr b + (sectorHdrSize + logSize log))
        (tombstone key hkey).size = (tombstone key hkey).bytes := by
      rw [hm1, hat, tombstone_size]
      rw [hat] at haccepts
      exact haccepts.bytesAt_program
    have hb1 : BankLog L (V.mem d1) b seq log := hframe _ fun x hx => by
      rw [hm1]
      exact Memory.program_of_outside (by omega)
    have hnext : u32 (sectorHdrSize + logSize log + recordHdrSize) =
        sectorHdrSize + logSize (log ++ [tombstone key hkey]) := by
      rw [logSize_append, logSize_cons, logSize_nil, tombstone_size, Nat.add_zero, recordHdrSize,
        u32_of_lt (by omega), Nat.add_assoc]
    simp only [ne_eq, not_true_eq_false, if_false]
    refine Program.Ensures.ret ⟨log ++ [tombstone key hkey], ?_, Or.inr ⟨_, rfl, rfl⟩⟩
    rw [hnext]
    exact (hb1.append (by rw [tombstone_size]; exact hroom) hbytes).running

/-- `fw_nvs_delete` keeps the instance running and touches no other key. -/
theorem fwNvsDelete_ensures (hD : FlashContract L V h guard safe) (hall : ∀ c, safe c)
    (hr : Running L nvs (V.mem d) log) :
    Program.Ensures h guard safe
      (fun res d' => ∃ base log', Survives h guard V (L.addr nvs.activeBank) log base ∧
        Running L res.2 (V.mem d') log' ∧ EndsWithDeletion key base log')
      (fwNvsDelete nvs key) d := by
  have hsame := Survives.refl h guard V (L.addr nvs.activeBank) log
  have hread : Program.Ensures h guard safe (fun _ d' => V.mem d' = V.mem d)
      (fwNvsRead nvs key [0]) d := fwNvsRead_ensures hD hr [0]
  rw [fwNvsDelete]
  by_cases hkey : key = fwNvsKeyEmpty
  · rw [if_pos hkey]
    exact Program.Ensures.ret ⟨log, log, hsame, hr, Or.inl rfl⟩
  rw [if_neg hkey]
  refine Program.Ensures.bind hread fun res d1 hm1 => ?_
  have hr1 : Running L nvs (V.mem d1) log := by rwa [hm1]
  by_cases hfound : res.status = .errNotFound
  · rw [if_pos hfound]
    exact Program.Ensures.ret ⟨log, log, hsame, hr1, Or.inl rfl⟩
  rw [if_neg hfound]
  -- the tombstone behind what the compaction left
  have hrest : ∀ st nvs2 d2 base, Survives h guard V (L.addr nvs.activeBank) log base →
      Running L nvs2 (V.mem d2) base → Program.Ensures h guard safe
        (fun res d' => ∃ base log', Survives h guard V (L.addr nvs.activeBank) log base ∧
          Running L res.2 (V.mem d') log' ∧ EndsWithDeletion key base log')
        (if st ≠ .ok then pure (st, nvs2) else do
          let st ← flashWrite (u32 (nvs2.bankAddr nvs2.activeBank + nvs2.writeOffset))
            (tombstoneHdr key).bytes
          if st ≠ .ok then return (st, nvs2)
          return (.ok, { nvs2 with writeOffset := u32 (nvs2.writeOffset + recordHdrSize) }))
        d2 := by
    intro st nvs2 d2 base hsurvives hr2
    by_cases hst : st = .ok
    · rw [if_neg (not_not_intro hst)]
      refine (tombstone_ensures hD hall hr2 hkey).mono fun res t ht => ?_
      obtain ⟨log', hr3, hends⟩ := ht
      exact ⟨base, log', hsurvives, hr3, hends⟩
    · rw [if_pos hst]
      exact Program.Ensures.ret ⟨base, base, hsurvives, hr2, Or.inl rfl⟩
  by_cases hroom : u32 (nvs.writeOffset + recordHdrSize) > nvs.flash.sectorSize
  · simp only [hroom, if_true]
    obtain ⟨hnvs, hb1⟩ := hr1
    have hcompact := nvsCompact_ensures hD hb1
    rw [← hnvs] at hcompact
    refine Program.Ensures.bind hcompact fun res d2 hd2 => ?_
    obtain ⟨st, nvs2⟩ := res
    by_cases hst : st = .ok
    · obtain ⟨kept, hres, hsub, hholds, hretains⟩ := hd2.2 hst
      obtain rfl : nvs2 = ram L _ _ kept := hres
      exact hrest st _ d2 kept ⟨hsub, hretains⟩ (BankLog.of_holds hholds).running
    · obtain ⟨hres, hb2⟩ := hd2.1 hst
      obtain rfl : nvs2 = nvs := hres
      exact hrest st nvs2 d2 log hsame ⟨hnvs, hb2⟩
  · simp only [hroom, if_false]
    exact hrest .ok nvs d1 log hsame hr1

end Calls

end ZeroEmbedded.Nvs
