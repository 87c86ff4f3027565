import ZeroEmbedded.Storage.NvsChecksum
import ZeroEmbedded.Storage.NvsRun
import ZeroEmbedded.Foundation.ProgramLogic

/-!
# Corrupted payloads

A store is reached by any calls on any drivers, so nothing is known about what
its flash holds. What is known of the instance is where its write offset may
lie. That is enough to keep the bytes of a payload apart from the bytes of all
headers that a lookup visits.
-/

namespace ZeroEmbedded.Nvs

open Foundation

section Instances

variable {T : Target} {L : BankLayout} {nvs : FwNvs}

/-- The banks are those of the layout, and the write offset exceeds the sector by a tombstone at
most. -/
structure Bounded (L : BankLayout) (nvs : FwNvs) : Prop where
  flash : nvs.flash = ⟨L.sectorSize⟩
  bankAddr : nvs.bankAddr = L.addr
  writeOffset : nvs.writeOffset ≤ L.sectorSize + recordHdrSize

/-- An instance after any calls on any drivers. -/
inductive InUse (T : Target) (L : BankLayout) : FwNvs → Prop
  | init {σ : Type} {D : Handler FlashCall FlashCall.Reply σ} {d d' : σ} {fresh nvs : FwNvs}
      (hrun : (fwNvsInit T fresh ⟨L.sectorSize⟩ (L.addr 0) (L.addr 1)).run D d =
        (some (.ok, nvs), d')) : InUse T L nvs
  | formatted {σ : Type} {D : Handler FlashCall FlashCall.Reply σ} {d d' : σ} {fresh nvs : FwNvs}
      (hflash : fresh.flash = ⟨L.sectorSize⟩) (haddr : fresh.bankAddr = L.addr)
      (hrun : (fwNvsFormat fresh).run D d = (some (.ok, nvs), d')) : InUse T L nvs
  | remount {σ : Type} {D : Handler FlashCall FlashCall.Reply σ} {d d' : σ} {nvs nvs' : FwNvs}
      {st : FwStatus} (hr : InUse T L nvs)
      (hrun : (fwNvsInit T nvs ⟨L.sectorSize⟩ (L.addr 0) (L.addr 1)).run D d =
        (some (st, nvs'), d')) : InUse T L nvs'
  | format {σ : Type} {D : Handler FlashCall FlashCall.Reply σ} {d d' : σ} {nvs nvs' : FwNvs}
      {st : FwStatus} (hr : InUse T L nvs)
      (hrun : (fwNvsFormat nvs).run D d = (some (st, nvs'), d')) : InUse T L nvs'
  | write {σ : Type} {D : Handler FlashCall FlashCall.Reply σ} {d d' : σ} {nvs nvs' : FwNvs}
      {key : UInt16} {data : List UInt8} {st : FwStatus} (hr : InUse T L nvs)
      (hrun : (fwNvsWrite T nvs key data).run D d = (some (st, nvs'), d')) : InUse T L nvs'
  | delete {σ : Type} {D : Handler FlashCall FlashCall.Reply σ} {d d' : σ} {nvs nvs' : FwNvs}
      {key : UInt16} {st : FwStatus} (hr : InUse T L nvs)
      (hrun : (fwNvsDelete nvs key).run D d = (some (st, nvs'), d')) : InUse T L nvs'

/-- The mount scan stops inside of the sector. -/
theorem scanLoop_returns (T : Target) (base maxSize : Nat) {fuel off : Nat} (hoff : off ≤ maxSize) :
    (scanLoop T base maxSize fuel off).Returns (· ≤ maxSize) := by
  induction fuel generalizing off with
  | zero => trivial
  | succ fuel ih =>
      rw [scanLoop]
      split
      · refine Program.Returns.request fun reply => ?_
        obtain ⟨st, buf⟩ := reply
        dsimp only
        split
        · exact Program.Returns.ret hoff
        · split
          · exact Program.Returns.ret hoff
          · split
            · exact Program.Returns.ret hoff
            · next hin => exact ih (Nat.not_lt.mp hin)
      · exact Program.Returns.ret hoff

/-- A migration fills the destination inside of the sector. -/
theorem migrateLoop_returns (nvs : FwNvs) (srcBase dstBase maxSize : Nat) {fuel srcOff dstOff : Nat}
    (hoff : dstOff ≤ maxSize) :
    (migrateLoop nvs srcBase dstBase maxSize fuel srcOff dstOff).Returns (·.2 ≤ maxSize) := by
  induction fuel generalizing srcOff dstOff with
  | zero => trivial
  | succ fuel ih =>
      rw [migrateLoop]
      split
      · refine Program.Returns.request fun reply => ?_
        obtain ⟨st, buf⟩ := reply
        dsimp only
        split
        · exact Program.Returns.ret hoff
        · split
          · exact Program.Returns.ret hoff
          · split
            · refine Program.Returns.after _ fun isLatest => ?_
              split
              · split
                · exact Program.Returns.ret hoff
                · next hin =>
                    refine Program.Returns.after _ fun st => ?_
                    split
                    · exact Program.Returns.ret hoff
                    · exact ih (Nat.not_lt.mp hin)
              · exact ih hoff
            · exact ih hoff
      · exact Program.Returns.ret hoff

theorem Bounded.of_writeOffset (h : Bounded L nvs) {b : Fin 2} {off : Nat} {seq : UInt32}
    (hoff : off ≤ L.sectorSize + recordHdrSize) :
    Bounded L { nvs with activeBank := b, writeOffset := off, sequence := seq } :=
  ⟨h.flash, h.bankAddr, hoff⟩

theorem Bounded.sectorSize_eq (h : Bounded L nvs) : nvs.flash.sectorSize = L.sectorSize := by
  rw [h.flash]

theorem nvsCompact_returns (h : Bounded L nvs) :
    (nvsCompact nvs).Returns fun res =>
      Bounded L res.2 ∧ (res.1 = .ok → res.2.writeOffset ≤ L.sectorSize) := by
  have hroom : sectorHdrSize ≤ L.sectorSize := Nat.le_trans (by decide) L.sectorSize_ge
  have hfail : ∀ {st : FwStatus}, st ≠ .ok → Program.Returns
      (fun res : FwStatus × FwNvs => Bounded L res.2 ∧
        (res.1 = .ok → res.2.writeOffset ≤ L.sectorSize)) (pure (st, nvs) : FlashM _) :=
    fun hst => Program.Returns.ret ⟨h, fun hok => absurd hok hst⟩
  rw [nvsCompact, h.sectorSize_eq]
  refine Program.Returns.request fun st => ?_
  split
  · next hst => exact hfail hst
  refine Program.Returns.request fun st => ?_
  split
  · next hst => exact hfail hst
  refine Program.Returns.bind (migrateLoop_returns _ _ _ _ hroom) fun res hres => ?_
  obtain ⟨st, dstOffset⟩ := res
  dsimp only
  split
  · next hst => exact hfail hst
  refine Program.Returns.request fun st => ?_
  split
  · next hst => exact hfail hst
  exact Program.Returns.ret
    ⟨h.of_writeOffset (Nat.le_trans hres (Nat.le_add_right _ _)), fun _ => hres⟩

theorem appendRecord_returns (h : Bounded L nvs) (key : UInt16) {data : List UInt8}
    (hroom : u32 (nvs.writeOffset + writeTotal data) ≤ L.sectorSize) :
    (appendRecord nvs key data).Returns fun res => Bounded L res.2 := by
  rw [appendRecord]
  refine Program.Returns.request fun st => ?_
  split
  · exact Program.Returns.ret h
  refine Program.Returns.after _ fun st => ?_
  split
  · exact Program.Returns.ret h
  exact Program.Returns.ret (h.of_writeOffset (Nat.le_trans hroom (Nat.le_add_right _ _)))

theorem fwNvsWrite_returns (T : Target) (h : Bounded L nvs) (key : UInt16) (data : List UInt8) :
    (fwNvsWrite T nvs key data).Returns fun res => Bounded L res.2 := by
  by_cases hkey : key = fwNvsKeyEmpty
  · rw [fwNvsWrite, if_pos hkey]
    exact Program.Returns.ret h
  rw [fwNvsWrite_eq T h.flash hkey]
  split
  · exact Program.Returns.ret h
  split
  · refine Program.Returns.bind (nvsCompact_returns h) fun res hres => ?_
    obtain ⟨st, nvs'⟩ := res
    dsimp only
    split
    · exact Program.Returns.ret hres.1
    rw [hres.1.sectorSize_eq]
    split
    · exact Program.Returns.ret hres.1
    · next hroom => exact appendRecord_returns hres.1 key (Nat.not_lt.mp hroom)
  · next hroom => exact appendRecord_returns h key (Nat.not_lt.mp hroom)

theorem fwNvsDelete_returns (h : Bounded L nvs) (key : UInt16) :
    (fwNvsDelete nvs key).Returns fun res => Bounded L res.2 := by
  have hsz := L.sectorSize_le
  -- the tombstone is added where the write offset is not past the sector
  have hrest : ∀ (st : FwStatus) {nvs' : FwNvs}, Bounded L nvs' →
      (st = .ok → nvs'.writeOffset ≤ L.sectorSize) → Program.Returns
        (fun res : FwStatus × FwNvs => Bounded L res.2)
        (if st ≠ .ok then pure (st, nvs') else do
          let st ← flashWrite (u32 (nvs'.bankAddr nvs'.activeBank + nvs'.writeOffset))
            (tombstoneHdr key).bytes
          if st ≠ .ok then return (st, nvs')
          return (.ok, { nvs' with writeOffset := u32 (nvs'.writeOffset + recordHdrSize) })) := by
    intro st nvs' h' hoff
    split
    · exact Program.Returns.ret h'
    · next hst =>
        have hle := hoff (not_not.mp hst)
        refine Program.Returns.request fun st => ?_
        split
        · exact Program.Returns.ret h'
        refine Program.Returns.ret (h'.of_writeOffset ?_)
        rw [u32_of_lt (by rw [recordHdrSize]; omega)]
        omega
  rw [fwNvsDelete, h.sectorSize_eq]
  split
  · exact Program.Returns.ret h
  refine Program.Returns.after _ fun res => ?_
  split
  · exact Program.Returns.ret h
  by_cases hroom : u32 (nvs.writeOffset + recordHdrSize) > L.sectorSize
  · simp only [hroom, if_true]
    exact Program.Returns.bind (nvsCompact_returns h) fun res hres => hrest _ hres.1 hres.2
  · simp only [hroom, if_false]
    refine hrest .ok h fun _ => ?_
    have hwo := h.writeOffset
    rw [recordHdrSize] at hroom hwo
    rw [u32_of_lt (by omega)] at hroom
    change nvs.writeOffset ≤ L.sectorSize
    omega

theorem sectorHdrSize_le (L : BankLayout) : sectorHdrSize ≤ L.sectorSize + recordHdrSize :=
  Nat.le_trans (Nat.le_trans (by decide) L.sectorSize_ge) (Nat.le_add_right _ _)

/-- A format that fails leaves the instance as it was. -/
theorem fwNvsFormat_returns (hflash : nvs.flash = ⟨L.sectorSize⟩) (haddr : nvs.bankAddr = L.addr) :
    (fwNvsFormat nvs).Returns fun res =>
      (res.1 = .ok ∨ nvs.writeOffset ≤ L.sectorSize + recordHdrSize) → Bounded L res.2 := by
  have hfail : ∀ {st : FwStatus}, st ≠ .ok → Program.Returns (fun res : FwStatus × FwNvs =>
      (res.1 = .ok ∨ nvs.writeOffset ≤ L.sectorSize + recordHdrSize) → Bounded L res.2)
      (pure (st, nvs) : FlashM _) := fun hst =>
    Program.Returns.ret fun hor => ⟨hflash, haddr, hor.resolve_left hst⟩
  rw [fwNvsFormat]
  refine Program.Returns.request fun st => ?_
  split
  · next hst => exact hfail hst
  refine Program.Returns.request fun st => ?_
  split
  · next hst => exact hfail hst
  refine Program.Returns.request fun st => ?_
  split
  · next hst => exact hfail hst
  exact Program.Returns.ret fun _ => ⟨hflash, haddr, sectorHdrSize_le L⟩

/-- The recovery sets the bank and the sequence only. -/
theorem recoverBank_returns (nvs : FwNvs) (hdr0 hdr1 : SectorHdr) :
    (recoverBank nvs hdr0 hdr1).Returns fun res =>
      res.flash = nvs.flash ∧ res.bankAddr = nvs.bankAddr := by
  rw [recoverBank]
  split
  · exact Program.Returns.ret ⟨rfl, rfl⟩
  split
  · exact Program.Returns.ret ⟨rfl, rfl⟩
  split
  · exact Program.Returns.request fun _ => Program.Returns.ret ⟨rfl, rfl⟩
  · exact Program.Returns.request fun _ => Program.Returns.ret ⟨rfl, rfl⟩

/-- A mount that fails leaves the write offset as it was. -/
theorem fwNvsInit_returns (T : Target) (L : BankLayout) (fresh : FwNvs) :
    (fwNvsInit T fresh ⟨L.sectorSize⟩ (L.addr 0) (L.addr 1)).Returns fun res =>
      (res.1 = .ok ∨ fresh.writeOffset ≤ L.sectorSize + recordHdrSize) → Bounded L res.2 := by
  have hS : ¬ L.sectorSize < 256 := Nat.not_lt.mpr L.sectorSize_ge
  have haddr : (![L.addr 0, L.addr 1] : Fin 2 → Nat) = L.addr := by
    funext i
    rcases BankLayout.bank_cases i with rfl | rfl <;> rfl
  have hfail : ∀ {st : FwStatus}, st ≠ .ok → Program.Returns (fun res : FwStatus × FwNvs =>
      (res.1 = .ok ∨ fresh.writeOffset ≤ L.sectorSize + recordHdrSize) → Bounded L res.2)
      (pure (st, attached L fresh) : FlashM _) := fun hst =>
    Program.Returns.ret fun hor => ⟨rfl, rfl, hor.resolve_left hst⟩
  rw [fwNvsInit, if_neg hS, haddr]
  refine Program.Returns.request fun reply => ?_
  obtain ⟨st0, buf0⟩ := reply
  dsimp only
  split
  · next hst => exact hfail hst
  refine Program.Returns.request fun reply => ?_
  obtain ⟨st1, buf1⟩ := reply
  dsimp only
  split
  · next hst => exact hfail hst
  split
  · exact fwNvsFormat_returns rfl rfl
  refine Program.Returns.bind (recoverBank_returns _ _ _) fun nvs hnvs => ?_
  obtain ⟨hflash, hbank⟩ := hnvs
  have hroom : sectorHdrSize ≤ nvs.flash.sectorSize := by
    rw [hflash]
    exact Nat.le_trans (by decide) L.sectorSize_ge
  rw [scanWriteOffset, Program.bind_assoc]
  refine Program.Returns.bind (scanLoop_returns T _ _ hroom) fun off hoff => ?_
  rw [hflash] at hoff
  exact Program.Returns.ret fun _ =>
    ⟨hflash, hbank, Nat.le_trans hoff (Nat.le_add_right _ _)⟩

/-- Every instance that calls lead to is bounded. -/
theorem InUse.bounded (h : InUse T L nvs) : Bounded L nvs := by
  induction h with
  | init hrun => exact (fwNvsInit_returns T L _).run hrun (Or.inl rfl)
  | formatted hflash haddr hrun => exact (fwNvsFormat_returns hflash haddr).run hrun (Or.inl rfl)
  | remount _ hrun ih => exact (fwNvsInit_returns T L _).run hrun (Or.inr ih.writeOffset)
  | format _ hrun ih =>
      exact (fwNvsFormat_returns ih.flash ih.bankAddr).run hrun (Or.inr ih.writeOffset)
  | write _ hrun ih => exact (fwNvsWrite_returns T ih _ _).run hrun
  | delete _ hrun ih => exact (fwNvsDelete_returns ih _).run hrun

end Instances

section Lookup

/-- The record header at an offset of a bank. -/
def headerAt (m : Memory) (base off : Nat) : RecordHdr :=
  RecordHdr.ofBytes (m.bytesAt (u32 (base + off)) recordHdrSize)

/-- A lookup from `off` up to the write offset `stop` reads the header at the last offset. -/
inductive Visits (m : Memory) (base stop : Nat) : Nat → Nat → Prop
  | here {off : Nat} (hlt : off < stop) : Visits m base stop off off
  | next {off t : Nat} (hlt : off < stop) (hkey : (headerAt m base off).key ≠ fwNvsKeyEmpty)
      (hrest : Visits m base stop (u32 (off + recTotal (headerAt m base off))) t) :
      Visits m base stop off t

variable {S : Nat} {m m' : Memory} {base stop off s t : Nat} {nvs : FwNvs} {key : UInt16}

theorem Visits.lt (h : Visits m base stop off t) : t < stop := by
  induction h with
  | here hlt => exact hlt
  | next _ _ _ ih => exact ih

/-- The next header lies behind the record. -/
theorem u32_next (hstop : stop ≤ 2 ^ 31 + 8) (hlt : off < stop) (hdr : RecordHdr) :
    u32 (off + recTotal hdr) = off + recTotal hdr := by
  have htotal := recTotal_bounds hdr
  exact u32_of_lt (by omega)

theorem Visits.order (hstop : stop ≤ 2 ^ 31 + 8) (h : Visits m base stop off t) :
    off = t ∨ off + recTotal (headerAt m base off) ≤ t := by
  induction h with
  | here _ => exact Or.inl rfl
  | @next off t hlt _ _ ih =>
      rw [u32_next hstop hlt] at ih
      omega

/-- Of two headers that a lookup visits, one lies behind the record of the other. -/
theorem Visits.separated (hstop : stop ≤ 2 ^ 31 + 8) (hs : Visits m base stop off s)
    (ht : Visits m base stop off t) :
    s = t ∨ s + recTotal (headerAt m base s) ≤ t ∨ t + recTotal (headerAt m base t) ≤ s := by
  induction hs with
  | here _ =>
      rcases ht.order hstop with rfl | hle
      · exact Or.inl rfl
      · exact Or.inr (Or.inl hle)
  | @next off s hlt _ hrest ih =>
      cases ht with
      | here _ =>
          have horder := hrest.order hstop
          rw [u32_next hstop hlt] at horder
          exact Or.inr (Or.inr (by omega))
      | next _ _ hrest' => exact ih hrest'

theorem lookupLoop_run_succ (m : Memory) (base fuel off : Nat) (mt : Match) :
    (lookupLoop nvs base key (fuel + 1) off mt).run (idealFlash S) m =
      if off < nvs.writeOffset then
        if (headerAt m base off).key = fwNvsKeyEmpty then (some mt, m)
        else (lookupLoop nvs base key fuel (u32 (off + recTotal (headerAt m base off)))
          (mt.update key off (headerAt m base off))).run (idealFlash S) m
      else (some mt, m) := by
  rw [lookupLoop]
  split
  · rw [idealFlash_run_read]
    change Program.run _ (if (headerAt m base off).key = _ then _ else _) _ = _
    split
    · rfl
    · rfl
  · rfl

/-- The lookup depends on the headers it visits only. -/
theorem lookupLoop_congr {fuel : Nat} {mt : Match}
    (hsame : ∀ t, Visits m base nvs.writeOffset off t → headerAt m' base t = headerAt m base t) :
    ((lookupLoop nvs base key fuel off mt).run (idealFlash S) m').1 =
      ((lookupLoop nvs base key fuel off mt).run (idealFlash S) m).1 := by
  induction fuel generalizing off mt with
  | zero => rfl
  | succ fuel ih =>
      rw [lookupLoop_run_succ, lookupLoop_run_succ]
      by_cases hlt : off < nvs.writeOffset
      · rw [if_pos hlt, if_pos hlt, hsame off (Visits.here hlt)]
        by_cases hkey : (headerAt m base off).key = fwNvsKeyEmpty
        · rw [if_pos hkey, if_pos hkey]
        · rw [if_neg hkey, if_neg hkey]
          exact ih fun t ht => hsame t (Visits.next hlt hkey ht)
      · rw [if_neg hlt, if_neg hlt]

theorem lookupLoop_mem (S : Nat) (nvs : FwNvs) (key : UInt16) (m : Memory) (base fuel off : Nat)
    (mt : Match) :
    ((lookupLoop nvs base key fuel off mt).run (idealFlash S) m).2 = m := by
  induction fuel generalizing off mt with
  | zero => rfl
  | succ fuel ih =>
      rw [lookupLoop_run_succ]
      split
      · split
        · rfl
        · exact ih _ _
      · rfl

/-- What a lookup from `off` may find: a header that it visits, with the key. -/
def Match.Visited (mt : Match) (m : Memory) (base stop off : Nat) (key : UInt16) : Prop :=
  Visits m base stop off mt.matchOffset ∧ mt.matchHdr = headerAt m base mt.matchOffset ∧
    mt.matchHdr.key = key

theorem lookupLoop_visited {fuel : Nat} {mt mt' : Match} {start : Nat}
    (hmt : mt.found = true → mt.Visited m base nvs.writeOffset start key)
    (hreach : ∀ t, Visits m base nvs.writeOffset off t → Visits m base nvs.writeOffset start t)
    (hrun : ((lookupLoop nvs base key fuel off mt).run (idealFlash S) m).1 = some mt') :
    mt'.found = true → mt'.Visited m base nvs.writeOffset start key := by
  induction fuel generalizing off mt with
  | zero => cases hrun
  | succ fuel ih =>
      rw [lookupLoop_run_succ] at hrun
      by_cases hlt : off < nvs.writeOffset
      · rw [if_pos hlt] at hrun
        by_cases hkey : (headerAt m base off).key = fwNvsKeyEmpty
        · rw [if_pos hkey] at hrun
          cases hrun
          exact hmt
        · rw [if_neg hkey] at hrun
          refine ih ?_ (fun t ht => hreach t (Visits.next hlt hkey ht)) hrun
          rw [Match.update]
          split
          · next hk =>
              split
              · exact fun _ => ⟨hreach off (Visits.here hlt), rfl, hk⟩
              · exact fun hf => Bool.noConfusion hf
          · exact hmt
      · rw [if_neg hlt] at hrun
        cases hrun
        exact hmt

theorem recTotal_ge (hdr : RecordHdr) : 8 + hdr.length.toNat ≤ recTotal hdr := by
  have hlen := hdr.length.toNat_lt
  rw [recTotal, recordHdrSize, alignUp4_eq (by omega), u32_of_lt (by omega)]
  omega

/-- The address of the payload behind a header. -/
def payloadAddr (base off : Nat) : Nat := u32 (base + off + recordHdrSize)

/-- The bytes of a visited payload are neither in a visited header nor in another payload. -/
theorem Visits.apart {size x : Nat} (hbase : base + size ≤ 2 ^ 32) (hsize : size ≤ 2 ^ 31)
    (hstop : stop ≤ size + 8) (hs : Visits m base stop off s) (ht : Visits m base stop off t)
    (hl : payloadAddr base s ≤ x)
    (hr : x < payloadAddr base s + (headerAt m base s).length.toNat) :
    ¬ (u32 (base + t) ≤ x ∧ x < u32 (base + t) + recordHdrSize) ∧
      (s ≠ t → ¬ (payloadAddr base t ≤ x ∧
        x < payloadAddr base t + (headerAt m base t).length.toNat)) := by
  have hsep := hs.separated (by omega) ht
  have hlts := hs.lt
  have hltt := ht.lt
  have hges := recTotal_ge (headerAt m base s)
  have hget := recTotal_ge (headerAt m base t)
  have hlens := (headerAt m base s).length.toNat_lt
  have hlent := (headerAt m base t).length.toNat_lt
  rw [payloadAddr, u32, recordHdrSize] at hl hr
  rw [payloadAddr, u32, u32, recordHdrSize]
  omega

end Lookup

section Read

variable {S : Nat} {m m' : Memory} {nvs : FwNvs} {key : UInt16} {mt : Match}

/-- The outcome of the lookup of `fw_nvs_read`. -/
def lookup (S : Nat) (nvs : FwNvs) (m : Memory) (key : UInt16) : Option Match :=
  ((lookupLoop nvs (nvs.bankAddr nvs.activeBank) key loopFuel sectorHdrSize Match.initial).run
    (idealFlash S) m).1

/-- The address and the length of the payload that `fw_nvs_read` of the key reads. -/
def payloadOf (S : Nat) (nvs : FwNvs) (m : Memory) (key : UInt16) : Option (Nat × Nat) :=
  ((lookup S nvs m key).filter Match.found).map fun mt =>
    (payloadAddr (nvs.bankAddr nvs.activeBank) mt.matchOffset, mt.matchHdr.length.toNat)

/-- What `fw_nvs_read` returns for the outcome of its lookup. -/
def readMatch (m : Memory) (base : Nat) (key : UInt16) (outData : List UInt8) (mt : Match) :
    ReadResult :=
  let length := mt.matchHdr.length.toNat
  let out := m.bytesAt (payloadAddr base mt.matchOffset) length ++ outData.drop length
  if mt.found = false then ⟨.errNotFound, outData, none⟩
  else if outData.length < length then ⟨.errBufferOverflow, outData, none⟩
  else if calcRecordCrc key mt.matchHdr.length out ≠ mt.matchHdr.crc16 then
    ⟨.errCorrupted, out, none⟩
  else ⟨.ok, out, some length⟩

/-- A read that succeeds has found the checksum of the record to fit. -/
theorem readMatch_ok {base : Nat} {outData : List UInt8}
    (hok : (readMatch m base key outData mt).status = .ok) :
    mt.matchHdr.crc16 = calcRecordCrc key mt.matchHdr.length
      (m.bytesAt (payloadAddr base mt.matchOffset) mt.matchHdr.length.toNat) := by
  rw [← calcRecordCrc_append key mt.matchHdr.length (outData.drop mt.matchHdr.length.toNat)
    (Memory.bytesAt_length _ _ _)]
  rw [readMatch] at hok
  split at hok
  · cases hok
  split at hok
  · cases hok
  split at hok
  · cases hok
  · next hcrc => exact (not_not.mp hcrc).symm

/-- A read of a record whose checksum does not fit reports the corruption. -/
theorem readMatch_corrupted {base : Nat} {outData : List UInt8} (hfound : mt.found = true)
    (hbuf : mt.matchHdr.length.toNat ≤ outData.length)
    (hcrc : mt.matchHdr.crc16 ≠ calcRecordCrc key mt.matchHdr.length
      (m.bytesAt (payloadAddr base mt.matchOffset) mt.matchHdr.length.toNat)) :
    readMatch m base key outData mt =
      ⟨.errCorrupted, m.bytesAt (payloadAddr base mt.matchOffset) mt.matchHdr.length.toNat ++
        outData.drop mt.matchHdr.length.toNat, none⟩ := by
  rw [← calcRecordCrc_append key mt.matchHdr.length (outData.drop mt.matchHdr.length.toNat)
    (Memory.bytesAt_length _ _ _)] at hcrc
  rw [readMatch, if_neg (by simp [hfound]), if_neg (Nat.not_lt.mpr hbuf), if_pos hcrc.symm]

theorem readPayload_run {α : Type} (m : Memory) (a length : Nat) (outData : List UInt8)
    (k : FwStatus × List UInt8 → FlashM α) :
    (readPayload a length outData >>= k).run (idealFlash S) m =
      (k (.ok, m.bytesAt a length ++ outData.drop length)).run (idealFlash S) m := by
  rw [Program.run_bind, readPayload_yields.run_eq]

theorem fwNvsRead_run (hkey : key ≠ fwNvsKeyEmpty) (outData : List UInt8) :
    ((fwNvsRead nvs key outData).run (idealFlash S) m).1 =
      (lookup S nvs m key).map (readMatch m (nvs.bankAddr nvs.activeBank) key outData) := by
  have hmem := lookupLoop_mem S nvs key m (nvs.bankAddr nvs.activeBank) loopFuel sectorHdrSize
    Match.initial
  rw [fwNvsRead, if_neg hkey, Program.run_bind, lookup]
  generalize Program.run _ (lookupLoop _ _ _ _ _ _) m = res at hmem
  obtain ⟨mt, m1⟩ := res
  obtain rfl : m1 = m := hmem
  cases mt with
  | none => rfl
  | some mt =>
      dsimp only [Option.map_some, readMatch]
      cases mt.found with
      | false => rfl
      | true =>
          simp only [Bool.not_true, Bool.false_eq_true, if_false, Bool.true_eq_false]
          split
          · rfl
          · rw [readPayload_run]
            simp only [ne_eq, not_true_eq_false, if_false]
            rw [payloadAddr]
            split
            · rfl
            · rfl

end Read

section Corruption

variable {T : Target} {L : BankLayout} {m m' : Memory} {nvs : FwNvs} {key : UInt16} {p n a : Nat}

theorem lookup_visited {S : Nat} {mt : Match} (h : lookup S nvs m key = some mt)
    (hfound : mt.found = true) :
    mt.Visited m (nvs.bankAddr nvs.activeBank) nvs.writeOffset sectorHdrSize key :=
  lookupLoop_visited (fun hf => Bool.noConfusion hf) (fun _ ht => ht) h hfound

/-- A changed byte of the payload of one key lies in no header, and in the payload of no
other key. -/
theorem InUse.apart (hr : InUse T L nvs) {mt : Match}
    (h : lookup L.sectorSize nvs m key = some mt) (hfound : mt.found = true) {x t : Nat}
    (hl : payloadAddr (nvs.bankAddr nvs.activeBank) mt.matchOffset ≤ x)
    (hx : x < payloadAddr (nvs.bankAddr nvs.activeBank) mt.matchOffset + mt.matchHdr.length.toNat)
    (ht : Visits m (nvs.bankAddr nvs.activeBank) nvs.writeOffset sectorHdrSize t) :
    ¬ (u32 (nvs.bankAddr nvs.activeBank + t) ≤ x ∧
        x < u32 (nvs.bankAddr nvs.activeBank + t) + recordHdrSize) ∧
      (mt.matchOffset ≠ t → ¬ (payloadAddr (nvs.bankAddr nvs.activeBank) t ≤ x ∧
        x < payloadAddr (nvs.bankAddr nvs.activeBank) t +
          (headerAt m (nvs.bankAddr nvs.activeBank) t).length.toNat)) := by
  obtain ⟨_, hbank, hoff⟩ := hr.bounded
  obtain ⟨hs, hhdr, _⟩ := lookup_visited h hfound
  have hbase : nvs.bankAddr nvs.activeBank + L.sectorSize ≤ 2 ^ 32 := by
    rw [hbank]
    exact L.addr_le _
  rw [hhdr] at hx
  exact hs.apart hbase L.sectorSize_le hoff ht hl hx

/-- In every store, a change within two neighbouring bytes of the payload of a value is reported
by every read of its key and noticed by no read of another key. -/
theorem fwNvsRead_detects (hr : InUse T L nvs)
    (hpayload : payloadOf L.sectorSize nvs m key = some (p, n))
    (hlive : ∃ outData out,
      ((fwNvsRead nvs key outData).run (idealFlash L.sectorSize) m).1 = some ⟨.ok, out, some n⟩)
    (hchange : ∀ x, m' x ≠ m x → (p ≤ x ∧ x < p + n) ∧ (x = a ∨ x = a + 1)) (hne : m' ≠ m) :
    (∀ outData, n ≤ outData.length →
      ((fwNvsRead nvs key outData).run (idealFlash L.sectorSize) m').1 =
        some ⟨.errCorrupted, m'.bytesAt p n ++ outData.drop n, none⟩) ∧
    ∀ other, other ≠ key → ∀ outData,
      ((fwNvsRead nvs other outData).run (idealFlash L.sectorSize) m').1 =
        ((fwNvsRead nvs other outData).run (idealFlash L.sectorSize) m).1 := by
  obtain ⟨mt, hmt, hpn⟩ := Option.map_eq_some_iff.mp hpayload
  obtain ⟨hlookup, hfound⟩ := Option.filter_eq_some_iff.mp hmt
  obtain ⟨rfl, rfl⟩ := Prod.mk.inj hpn
  have hsameOutside : ∀ x, ¬ (payloadAddr (nvs.bankAddr nvs.activeBank) mt.matchOffset ≤ x ∧
      x < payloadAddr (nvs.bankAddr nvs.activeBank) mt.matchOffset + mt.matchHdr.length.toNat) →
      m' x = m x := fun x hx => not_not.mp fun hne => hx (hchange x hne).1
  -- the headers that a lookup visits are the same
  have hheaders : ∀ t, Visits m (nvs.bankAddr nvs.activeBank) nvs.writeOffset sectorHdrSize t →
      headerAt m' (nvs.bankAddr nvs.activeBank) t = headerAt m (nvs.bankAddr nvs.activeBank) t := by
    intro t ht
    refine congrArg RecordHdr.ofBytes (Memory.bytesAt_congr fun x hxl hxr => ?_)
    exact hsameOutside x fun hin => (hr.apart hlookup hfound hin.1 hin.2 ht).1 ⟨hxl, hxr⟩
  have hsame : ∀ k, lookup L.sectorSize nvs m' k = lookup L.sectorSize nvs m k := fun k =>
    lookupLoop_congr hheaders
  constructor
  · intro outData hbuf
    obtain ⟨buf, out, hread⟩ := hlive
    have hkey : key ≠ fwNvsKeyEmpty := by
      rintro rfl
      cases hread
    rw [fwNvsRead_run hkey, hlookup, Option.map_some, Option.some.injEq] at hread
    rw [fwNvsRead_run hkey, hsame, hlookup, Option.map_some, Option.some.injEq]
    refine readMatch_corrupted hfound hbuf fun hcrc => ?_
    rw [readMatch_ok (congrArg ReadResult.status hread)] at hcrc
    refine calcRecordCrc_ne key _ (Memory.bytesAt_length _ _ _) (Memory.bytesAt_length _ _ _)
      (fun j hj => Memory.bytesAt_burst (fun x _ _ hx => (hchange x hx).2) hj) ?_ hcrc
    intro hbytes
    refine hne (funext fun x => ?_)
    by_cases hin : payloadAddr (nvs.bankAddr nvs.activeBank) mt.matchOffset ≤ x ∧
        x < payloadAddr (nvs.bankAddr nvs.activeBank) mt.matchOffset + mt.matchHdr.length.toNat
    · obtain ⟨j, rfl⟩ := Nat.exists_eq_add_of_le hin.1
      have hcell := congrArg (·[j]?) hbytes
      have hj : j < mt.matchHdr.length.toNat := by omega
      simp only [Memory.getElem?_bytesAt, if_pos hj, Option.some.injEq] at hcell
      exact hcell.symm
    · exact hsameOutside x hin
  · intro other hother outData
    by_cases hkey : other = fwNvsKeyEmpty
    · rw [fwNvsRead, if_pos hkey]
      rfl
    rw [fwNvsRead_run hkey, fwNvsRead_run hkey, hsame]
    refine Option.map_congr fun mt' hmt' => ?_
    cases hfound' : mt'.found with
    | false => rw [readMatch, readMatch, if_pos hfound', if_pos hfound']
    | true =>
        -- the payload of another key is the same
        obtain ⟨hvisits, hhdr, hkey'⟩ := lookup_visited hmt' hfound'
        have hoff : mt.matchOffset ≠ mt'.matchOffset := by
          intro heq
          obtain ⟨_, hhdr0, hkey0⟩ := lookup_visited hlookup hfound
          rw [heq, ← hhdr] at hhdr0
          exact hother (by rw [← hkey', ← hkey0, hhdr0])
        have hbytes : m'.bytesAt (payloadAddr (nvs.bankAddr nvs.activeBank) mt'.matchOffset)
            mt'.matchHdr.length.toNat =
            m.bytesAt (payloadAddr (nvs.bankAddr nvs.activeBank) mt'.matchOffset)
              mt'.matchHdr.length.toNat := by
          refine Memory.bytesAt_congr fun x hxl hxr => hsameOutside x fun hin => ?_
          rw [hhdr] at hxr
          exact (hr.apart hlookup hfound hin.1 hin.2 hvisits).2 hoff ⟨hxl, hxr⟩
        rw [readMatch, readMatch, hbytes]

theorem one_ne_keyEmpty : (1 : UInt16) ≠ fwNvsKeyEmpty := by decide

/-- The instance and the flash after a write of two bytes to a fresh store. -/
def pairStore : NvsSystem :=
  ⟨ram sampleLayout 0 1 [valueRecord 1 [7, 8] one_ne_keyEmpty (by decide)],
    sampleStore.flash.programAll 16 (valueChunks 1 [7, 8])⟩

theorem pairStore_inUse : InUse target32 sampleLayout pairStore.nvs := by
  have hflash : (ram sampleLayout 0 1 []).flash = ⟨sampleLayout.sectorSize⟩ := rfl
  have hformat := (fwNvsFormat_yields (L := sampleLayout) (fun _ => 0xFF) hflash rfl).run_eq
  have hwrite : (fwNvsWrite target32 (ram sampleLayout 0 1 []) 1 [7, 8]).run (idealFlash 256)
      sampleStore.flash = (some (.ok, pairStore.nvs), pairStore.flash) :=
    (fwNvsWrite_append (L := sampleLayout) target32 (by decide) (by decide) (by decide)).run_eq
  exact InUse.write (InUse.formatted hflash rfl hformat) hwrite

theorem fwNvsRead_detects_sample :
    ((fwNvsRead pairStore.nvs 1 [0, 0, 0]).run (idealFlash 256)
        (Function.update pairStore.flash 24 9)).1 = some ⟨.errCorrupted, [9, 8, 0], none⟩ := by
  have hpayload : payloadOf sampleLayout.sectorSize pairStore.nvs pairStore.flash 1 =
      some (24, 2) := by decide +kernel
  have hchange : ∀ x, Function.update pairStore.flash 24 9 x ≠ pairStore.flash x →
      (24 ≤ x ∧ x < 24 + 2) ∧ (x = 24 ∨ x = 24 + 1) := by
    intro x hx
    by_cases h24 : x = 24
    · subst h24
      decide
    · exact absurd (Function.update_of_ne h24 _ _) hx
  have hne : Function.update pairStore.flash 24 9 ≠ pairStore.flash := by
    intro heq
    have hcell := congrFun heq 24
    rw [Function.update_self] at hcell
    exact absurd hcell (by decide +kernel)
  have hdetects := (fwNvsRead_detects pairStore_inUse hpayload ⟨[0, 0], [7, 8], by decide +kernel⟩
    hchange hne).1 [0, 0, 0] (by decide)
  have hout : Memory.bytesAt (Function.update pairStore.flash 24 9) 24 2 ++
      [(0 : UInt8), 0, 0].drop 2 = [9, 8, 0] := by decide +kernel
  rw [hout] at hdetects
  exact hdetects

end Corruption

end ZeroEmbedded.Nvs
