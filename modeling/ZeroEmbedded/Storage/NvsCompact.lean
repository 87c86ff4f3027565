import ZeroEmbedded.Storage.NvsMount

/-!
# Compaction

The copy loop moves a record in chunks. The migration loop copies the
survivors of the log in order. `nvs_compact` therefore issues one erase, one
header write, the chunks of the survivors and a second erase.

## Implementation notes

A log may be followed by one more header that the running instance still
walks over, such as a tombstone that does not fit into the sector. `WalkEnd`
describes both ends of a walk.
-/

namespace ZeroEmbedded.Nvs

open Foundation

/-- The chunks in which `nvs_compact` copies the records of a log. -/
def logChunks (log : List NvsRecord) : List (List UInt8) :=
  log.flatMap fun r => Memory.chunksOf (copyBufSize - 1) r.bytes

@[simp] theorem logChunks_nil : logChunks [] = [] := rfl

@[simp] theorem logChunks_cons (r : NvsRecord) (log : List NvsRecord) :
    logChunks (r :: log) = Memory.chunksOf (copyBufSize - 1) r.bytes ++ logChunks log := by
  simp [logChunks]

theorem logChunks_flatten (log : List NvsRecord) : (logChunks log).flatten = logBytes log := by
  induction log with
  | nil => rfl
  | cons r rest ih =>
      rw [logChunks_cons, List.flatten_append, Memory.chunksOf_flatten, ih, logBytes_cons]

theorem u32_add_u32 (x n : Nat) : u32 (u32 x + n) = u32 (x + n) := by
  simp only [u32, Nat.mod_add_mod]

/-- The copy loop programs the source bytes at the destination, chunk by chunk. -/
theorem copyLoop_yields {S : Nat} {m : Memory} {src dst n fuel : Nat} (hfuel : n < fuel)
    (hsrc : src + n ≤ 2 ^ 32) (hdst : dst + n ≤ 2 ^ 32)
    (hdisj : src + n ≤ dst ∨ dst + n ≤ src) :
    FlashYields S m (copyLoop fuel (u32 src) (u32 dst) n)
      (writesFrom dst (Memory.chunksOf (copyBufSize - 1) (m.bytesAt src n))) .ok
      (m.programAll dst (Memory.chunksOf (copyBufSize - 1) (m.bytesAt src n))) := by
  induction fuel generalizing m src dst n with
  | zero => omega
  | succ fuel ih =>
      by_cases hn : n = 0
      · subst hn
        rw [copyLoop, if_neg (Nat.lt_irrefl 0), Memory.bytesAt_zero, Memory.chunksOf_nil]
        exact Program.Yields.ret _ _
      · -- one chunk is read and programmed; the source bytes behind it are untouched
        have hchunk : (if n > copyBufSize then copyBufSize else n) = min copyBufSize n := by
          rw [Nat.min_def]
          split <;> split <;> omega
        have hne : m.bytesAt src n ≠ [] := by
          intro h
          have hlen := congrArg List.length h
          rw [Memory.bytesAt_length] at hlen
          exact hn hlen
        have hpos : 0 < min copyBufSize n := by
          rw [copyBufSize]
          omega
        have hle : min copyBufSize n ≤ n := Nat.min_le_right _ _
        have hsrcu : u32 src = src := u32_of_lt (by omega)
        have hdstu : u32 dst = dst := u32_of_lt (by omega)
        have htail : (m.program dst (m.bytesAt src (min copyBufSize n))).bytesAt
              (src + min copyBufSize n) (n - min copyBufSize n) =
            (m.bytesAt src n).drop copyBufSize := by
          have hout : ∀ x, src + min copyBufSize n ≤ x →
              x < src + min copyBufSize n + (n - min copyBufSize n) →
              m.program dst (m.bytesAt src (min copyBufSize n)) x = m x := fun x hl hr =>
            Memory.program_of_outside (by rw [Memory.bytesAt_length]; omega)
          rw [Memory.bytesAt_congr hout, Memory.bytesAt_drop]
          by_cases hlong : copyBufSize ≤ n
          · rw [Nat.min_eq_left hlong]
          · have h0 : n - min copyBufSize n = 0 := by omega
            have h1 : n - copyBufSize = 0 := by omega
            rw [h0, h1, Memory.bytesAt_zero, Memory.bytesAt_zero]
        have hnext := ih (m := m.program dst (m.bytesAt src (min copyBufSize n)))
          (by omega : n - min copyBufSize n < fuel)
          (by omega : src + min copyBufSize n + (n - min copyBufSize n) ≤ 2 ^ 32)
          (by omega : dst + min copyBufSize n + (n - min copyBufSize n) ≤ 2 ^ 32)
          (by omega)
        rw [htail] at hnext
        rw [Memory.chunksOf_of_ne_nil _ hne, copyLoop, if_pos (Nat.pos_of_ne_zero hn), hchunk]
        change FlashYields _ _ _ (writesFrom dst ((m.bytesAt src n).take copyBufSize :: _)) _
          (m.programAll dst ((m.bytesAt src n).take copyBufSize :: _))
        rw [Memory.bytesAt_take, writesFrom_cons, Memory.programAll_cons, Memory.bytesAt_length]
        refine FlashYields.read ?_
        rw [hsrcu, hdstu]
        refine FlashYields.write ?_
        exact hnext

/-- The records that a compaction copies when the walk ends with `tail`. -/
def keptRecords (log : List NvsRecord) (tail : Option RecordHdr) : List NvsRecord :=
  (KeyedLog.survivors NvsRecord.key NvsRecord.valid log).filter fun r => ¬ Hides tail r.key

theorem keptRecords_none (log : List NvsRecord) :
    keptRecords log none = KeyedLog.survivors NvsRecord.key NvsRecord.valid log := by
  simp [keptRecords, Hides]

theorem keptRecords_cons (r : NvsRecord) (log : List NvsRecord) (tail : Option RecordHdr) :
    keptRecords (r :: log) tail =
      if r.valid = true ∧ (∀ x ∈ log, x.key ≠ r.key) ∧ ¬ Hides tail r.key then
        r :: keptRecords log tail
      else keptRecords log tail := by
  simp only [keptRecords, KeyedLog.survivors]
  by_cases hv : r.valid = true ∧ ∀ x ∈ log, x.key ≠ r.key
  · rw [if_pos hv, List.filter_cons]
    by_cases hh : Hides tail r.key
    · rw [if_neg (by simpa using hh), if_neg fun h => h.2.2 hh]
    · rw [if_pos (by simpa using hh), if_pos ⟨hv.1, hv.2, hh⟩]
  · rw [if_neg hv, if_neg fun h => hv ⟨h.1, h.2.1⟩]

section Migrate

variable {L : BankLayout} {a : Fin 2} {nvs : FwNvs}

/-- The records part of the destination bank is the only place that differs. -/
def SameOutside (L : BankLayout) (dst : Fin 2) (m0 m : Memory) : Prop :=
  ∀ x, x < L.addr dst + sectorHdrSize ∨ L.addr dst + L.sectorSize ≤ x → m x = m0 x

/-- The copy of a record programs its bytes behind what the destination holds. -/
theorem copyRecord_yields {m0 m : Memory} {slack content : List UInt8} {r : NvsRecord}
    {rest : List NvsRecord} {off dstOff : Nat}
    (hlog : LogAt m (L.addr a) L.sectorSize off (r :: rest) slack)
    (hm : SameOutside L (1 - a) m0 m)
    (hdst : m.Holds (L.addr (1 - a)) L.sectorSize content)
    (hcontent : content.length = dstOff) (hdstOff : sectorHdrSize ≤ dstOff)
    (hroom : dstOff + r.size ≤ L.sectorSize) :
    let chunks := Memory.chunksOf (copyBufSize - 1) r.bytes
    let m' := m.programAll (L.addr (1 - a) + dstOff) chunks
    FlashYields L.sectorSize m
        (copyLoop loopFuel (L.addr a + off) (u32 (L.addr (1 - a) + dstOff)) r.size)
        (writesFrom (L.addr (1 - a) + dstOff) chunks) .ok m' ∧
      SameOutside L (1 - a) m0 m' ∧
      m'.Holds (L.addr (1 - a)) L.sectorSize (content ++ r.bytes) := by
  intro chunks m'
  have hsize := L.sectorSize_le
  have hsrc := L.addr_le a
  have hdstle := L.addr_le (1 - a)
  have hdisj := L.addr_disjoint a
  have hfit := hlog.fits
  have hge := r.size_ge
  rw [logSize_cons] at hfit
  have hsizelt : r.size < loopFuel := by
    have := r.size_le
    rw [loopFuel]
    omega
  have haddr : u32 (L.addr a + off) = L.addr a + off := u32_of_lt (by omega)
  have hlen : chunks.flatten.length = r.size := by
    rw [Memory.chunksOf_flatten, NvsRecord.size]
  refine ⟨?_, fun x hx => ?_, ?_⟩
  · have hcopy := copyLoop_yields (S := L.sectorSize) (m := m) hsizelt
      (by omega : L.addr a + off + r.size ≤ 2 ^ 32)
      (by omega : L.addr (1 - a) + dstOff + r.size ≤ 2 ^ 32) (by omega)
    rwa [haddr, hlog.head_bytes] at hcopy
  · have hout : m' x = m x := Memory.programAll_of_outside (by rw [hlen]; omega)
    rw [hout, hm x hx]
  · have hdst' : m'.Holds (L.addr (1 - a)) L.sectorSize (content ++ chunks.flatten) :=
      hdst.programAll_append (by rw [hcontent]) (by rw [hlen]; omega)
    rwa [Memory.chunksOf_flatten] at hdst'

/-- Behind the records the loop passes over a header without a record of its own, and ends. -/
theorem migrateLoop_end {m : Memory} {tail : Option RecordHdr} {fuel off : Nat} (dstOff : Nat)
    (hfuel : 1 < fuel) (hfit : off ≤ L.sectorSize) (hend : WalkEnd nvs m (L.addr a) off tail) :
    FlashYields L.sectorSize m
      (migrateLoop nvs (L.addr a) (L.addr (1 - a)) L.sectorSize fuel off dstOff) [] (.ok, dstOff)
      m := by
  have hsize := L.sectorSize_le
  have hsrc := L.addr_le a
  obtain ⟨fuel, rfl⟩ : ∃ k, fuel = k + 2 := ⟨fuel - 2, by omega⟩
  cases tail with
  | none =>
      have hstop : ¬ off < nvs.writeOffset := Nat.not_lt.mpr (Nat.le_of_eq hend)
      rw [migrateLoop, if_neg hstop]
      exact Program.Yields.ret _ _
  | some g =>
      obtain ⟨hlt, hreach, hg, hkey, hstatus⟩ := hend
      have htotal := recTotal_bounds g
      have hnext : u32 (off + recTotal g) = off + recTotal g := u32_of_lt (by omega)
      have hstop : ¬ off + recTotal g < nvs.writeOffset := Nat.not_lt.mpr hreach
      rw [migrateLoop, if_pos hlt]
      refine FlashYields.read ?_
      simp only [hg, hnext, hkey, hstatus, ne_eq, not_true_eq_false, if_false]
      rw [migrateLoop, if_neg hstop]
      exact Program.Yields.ret _ _

/-- The migration loop copies the kept records in log order. -/
theorem migrateLoop_yields {m0 m : Memory} {slack content : List UInt8} {log : List NvsRecord}
    {tail : Option RecordHdr} {fuel off dstOff : Nat}
    (hfuel : log.length + 1 < fuel) (hcount : log.length + 1 < loopFuel)
    (hlog : LogAt m0 (L.addr a) L.sectorSize off log slack)
    (hend : ∀ m', SameOutside L (1 - a) m0 m' →
      WalkEnd nvs m' (L.addr a) (off + logSize log) tail)
    (hm : SameOutside L (1 - a) m0 m)
    (hdst : m.Holds (L.addr (1 - a)) L.sectorSize content)
    (hcontent : content.length = dstOff) (hdstOff : sectorHdrSize ≤ dstOff)
    (hroom : dstOff + logSize log ≤ L.sectorSize) :
    FlashYields L.sectorSize m
      (migrateLoop nvs (L.addr a) (L.addr (1 - a)) L.sectorSize fuel off dstOff)
      (writesFrom (L.addr (1 - a) + dstOff) (logChunks (keptRecords log tail)))
      (.ok, dstOff + logSize (keptRecords log tail))
      (m.programAll (L.addr (1 - a) + dstOff) (logChunks (keptRecords log tail))) := by
  have hsize := L.sectorSize_le
  have hsrc := L.addr_le a
  have hdstle := L.addr_le (1 - a)
  have hdisj := L.addr_disjoint a
  induction log generalizing fuel off dstOff m content with
  | nil =>
      have hkept : keptRecords [] tail = [] := rfl
      have hnow := hend m hm
      have hfit := hlog.fits
      rw [logSize_nil, Nat.add_zero] at hnow hfit
      rw [hkept, logChunks_nil, writesFrom_nil, logSize_nil, Nat.add_zero, Memory.programAll_nil]
      exact migrateLoop_end dstOff hfuel (Nat.le_of_add_right_le hfit) hnow
  | cons r rest ih =>
      obtain ⟨fuel, rfl⟩ : ∃ k, fuel = k + 1 := ⟨fuel - 1, by omega⟩
      have hsame : ∀ x, L.addr a ≤ x → x < L.addr a + L.sectorSize → m x = m0 x := fun x hl hr =>
        hm x (by omega)
      have hlogm := hlog.congr hsame
      have hfit := hlog.fits
      have hge := r.size_ge
      have hnow := hend m hm
      simp only [logSize_cons] at hfit hroom
      simp only [logSize_cons, ← Nat.add_assoc] at hend hnow
      have hin : off < nvs.writeOffset := by
        cases tail with
        | none =>
            have hw : nvs.writeOffset = off + r.size + logSize rest := hnow
            omega
        | some g =>
            have hw := hnow.1
            omega
      have haddr : u32 (L.addr a + off) = L.addr a + off := u32_of_lt (by omega)
      have hnext : u32 (off + r.size) = off + r.size := u32_of_lt (by omega)
      have hcount' : rest.length + 1 < loopFuel := by
        rw [List.length_cons] at hcount
        omega
      have hfuel' : rest.length + 1 < fuel := by simpa using hfuel
      rw [migrateLoop, if_pos hin]
      refine FlashYields.read ?_
      rw [haddr]
      simp only [hlogm.head_hdr, r.recTotal_hdr, hnext, r.key_ne, ne_eq, not_true_eq_false,
        if_false]
      rw [keptRecords_cons]
      by_cases hv : r.valid = true
      · have hstatus : r.hdr.status = fwNvsStatusValid := by simpa [NvsRecord.valid] using hv
        rw [if_pos hstatus]
        refine Program.Yields.bind (isLatestLoop_yields (L.walkRegion a) r.key hcount'
          hlogm.tail hnow) ?_
        by_cases hkeep : (∀ x ∈ rest, x.key ≠ r.key) ∧ ¬ Hides tail r.key
        · -- the record is live: it is copied behind what the destination holds
          have hcond : r.valid = true ∧ (∀ x ∈ rest, x.key ≠ r.key) ∧ ¬ Hides tail r.key :=
            ⟨hv, hkeep⟩
          have hdnext : u32 (dstOff + r.size) = dstOff + r.size := u32_of_lt (by omega)
          have hfitd : ¬ dstOff + r.size > L.sectorSize := by omega
          have hlen : (Memory.chunksOf (copyBufSize - 1) r.bytes).flatten.length = r.size := by
            rw [Memory.chunksOf_flatten, NvsRecord.size]
          obtain ⟨hcopy, hm', hdst'⟩ :=
            copyRecord_yields hlogm hm hdst hcontent hdstOff (by omega)
          have hrest := ih hfuel' hcount' hlog.tail hend hm' hdst'
            (by rw [List.length_append, hcontent]; rfl :
              (content ++ r.bytes).length = dstOff + r.size)
            (by omega) (by omega)
          rw [if_pos hcond, decide_eq_true hkeep, if_pos rfl, hdnext, if_neg hfitd]
          rw [logChunks_cons, writesFrom_append, Memory.programAll_append, hlen, logSize_cons,
            ← Nat.add_assoc, Nat.add_assoc (L.addr (1 - a))]
          exact Program.Yields.bind hcopy hrest
        · have hcond : ¬ (r.valid = true ∧ (∀ x ∈ rest, x.key ≠ r.key) ∧ ¬ Hides tail r.key) :=
            fun h => hkeep h.2
          rw [if_neg hcond, decide_eq_false hkeep, if_neg Bool.false_ne_true]
          exact ih hfuel' hcount' hlog.tail hend hm hdst hcontent hdstOff (by omega)
      · have hstatus : ¬ r.hdr.status = fwNvsStatusValid := by simpa [NvsRecord.valid] using hv
        have hcond : ¬ (r.valid = true ∧ (∀ x ∈ rest, x.key ≠ r.key) ∧ ¬ Hides tail r.key) :=
          fun h => hv h.1
        rw [if_neg hstatus, if_neg hcond]
        exact ih hfuel' hcount' hlog.tail hend hm hdst hcontent hdstOff (by omega)

end Migrate

section Compact

variable {L : BankLayout} {m : Memory} {b : Fin 2} {seq : UInt32} {log : List NvsRecord}

/-- The memory while bank `b` is copied: the other bank has its header and some chunks. -/
def copyImage (L : BankLayout) (m : Memory) (b : Fin 2) (seq : UInt32)
    (chunks : List (List UInt8)) : Memory :=
  ((m.erase (L.addr (1 - b)) L.sectorSize).program (L.addr (1 - b))
    (activeHdr (seq + 1)).bytes).programAll (L.addr (1 - b) + sectorHdrSize) chunks

/-- The changes that a compaction of bank `b` makes when it keeps these records. -/
def compactEffects (L : BankLayout) (b : Fin 2) (seq : UInt32) (kept : List NvsRecord) :
    List FlashCall :=
  .eraseSector (L.addr (1 - b)) :: .write (L.addr (1 - b)) (activeHdr (seq + 1)).bytes ::
    (writesFrom (L.addr (1 - b) + sectorHdrSize) (logChunks kept) ++ [.eraseSector (L.addr b)])

/-- The destination holds its header and the chunks programmed so far. -/
theorem copyImage_holds (m : Memory) {chunks : List (List UInt8)}
    (hfit : sectorHdrSize + chunks.flatten.length ≤ L.sectorSize) :
    (copyImage L m b seq chunks).Holds (L.addr (1 - b)) L.sectorSize
      ((activeHdr (seq + 1)).bytes ++ chunks.flatten) := by
  have h0 := Memory.Holds.erase m (L.addr (1 - b)) L.sectorSize
  have hlen : (activeHdr (seq + 1)).bytes.length = sectorHdrSize := SectorHdr.bytes_length _
  have hhdr : ([] : List UInt8).length + (activeHdr (seq + 1)).bytes.length ≤ L.sectorSize := by
    rw [hlen, List.length_nil]
    omega
  have h1 := h0.program_append (Nat.add_zero _).symm hhdr
  rw [List.nil_append] at h1
  exact h1.programAll_append (by rw [hlen]) (by rw [hlen]; exact hfit)

/-- Copying does not touch the source bank. -/
theorem copyImage_source {chunks : List (List UInt8)}
    (hfit : sectorHdrSize + chunks.flatten.length ≤ L.sectorSize) {x : Nat}
    (hl : L.addr b ≤ x) (hr : x < L.addr b + L.sectorSize) :
    copyImage L m b seq chunks x = m x := by
  have hd := L.addr_disjoint b
  rw [sectorHdrSize] at hfit
  rw [copyImage, Memory.programAll_of_outside (by rw [sectorHdrSize]; omega),
    Memory.program_of_outside (by rw [SectorHdr.bytes_length]; omega),
    Memory.erase_of_outside (by omega)]

theorem kept_fits (h : BankLog L m b seq log) {kept : List NvsRecord} (hk : kept.Sublist log) :
    sectorHdrSize + (logChunks kept).flatten.length ≤ L.sectorSize := by
  have h1 := h.fits
  have h2 := logSize_sublist hk
  rw [logChunks_flatten, logBytes_length]
  omega

/-- After the copy and the erase of the source only the destination is active. -/
theorem copyImage_erase_onFlash (m : Memory) {kept : List NvsRecord}
    (hfit : sectorHdrSize + (logChunks kept).flatten.length ≤ L.sectorSize) :
    OnFlash L ((copyImage L m b seq (logChunks kept)).erase (L.addr b) L.sectorSize)
      (1 - b) (seq + 1) kept where
  active := by
    have h0 : (copyImage L m b seq (logChunks kept)).Holds (L.addr (1 - b)) L.sectorSize
        ((activeHdr (seq + 1)).bytes ++ (logChunks kept).flatten) := copyImage_holds m hfit
    have h1 := h0.erase_disjoint (L.addr_disjoint b)
    rw [logChunks_flatten] at h1
    exact ⟨[], by rw [List.append_nil]; exact h1, fun h => absurd rfl h⟩
  standby := by
    rw [BankLayout.other_other]
    exact hdrAt_erase L _ b

/-- `nvs_compact` copies the kept records to the other bank and switches over. -/
theorem nvsCompact_yields (h : BankLog L m b seq log) {nvs : FwNvs}
    {tail : Option RecordHdr} (hf : nvs.flash = ⟨L.sectorSize⟩) (ha : nvs.bankAddr = L.addr)
    (hb : nvs.activeBank = b) (hq : nvs.sequence = seq)
    (hend : ∀ m', SameOutside L (1 - b) (copyImage L m b seq []) m' →
      WalkEnd nvs m' (L.addr b) (sectorHdrSize + logSize log) tail) :
    FlashYields L.sectorSize m (nvsCompact nvs) (compactEffects L b seq (keptRecords log tail))
      (.ok, ram L (1 - b) (seq + 1) (keptRecords log tail))
      ((copyImage L m b seq (logChunks (keptRecords log tail))).erase (L.addr b) L.sectorSize) := by
  have hS := L.sectorSize_ge
  have hfit0 : sectorHdrSize + ([] : List (List UInt8)).flatten.length ≤ L.sectorSize := by
    rw [sectorHdrSize, List.flatten_nil, List.length_nil]
    omega
  have hfit := h.fits
  have hsrc : BankLog L (copyImage L m b seq []) b seq log := h.congr fun x hl hr =>
    copyImage_source hfit0 hl (by omega)
  obtain ⟨slack, hlog⟩ := hsrc.logAt
  have hlt := h.length_succ_lt
  have hhdr : ((activeHdr (seq + 1)).bytes ++ ([] : List (List UInt8)).flatten).length =
      sectorHdrSize := by
    rw [List.flatten_nil, List.append_nil, SectorHdr.bytes_length]
    rfl
  have hmig := migrateLoop_yields hlt hlt hlog hend (fun _ _ => rfl)
    (copyImage_holds m hfit0) hhdr (Nat.le_refl _) h.fits
  rw [nvsCompact, hf, ha, hb, hq]
  refine FlashYields.erase (FlashYields.write ?_)
  simp only [ne_eq, not_true_eq_false, if_false]
  refine Program.Yields.bind hmig (FlashYields.erase ?_)
  simp only [not_true_eq_false, if_false]
  exact Program.Yields.ret _ _

end Compact

end ZeroEmbedded.Nvs
