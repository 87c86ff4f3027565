import ZeroEmbedded.Storage.NvsImage

/-!
# The three walks over a log

The mount scan, the lookup of `fw_nvs_read` and the inner scan of
`nvs_compact` visit the headers of the log one by one. Each is described by
what it computes from the records ahead of it.
-/

namespace ZeroEmbedded.Nvs

open Foundation

/-- What a walk needs of the region it runs over. -/
structure WalkRegion (base size : Nat) : Prop where
  size_le : size ≤ 2 ^ 31
  base_le : base + size ≤ 2 ^ 32

theorem BankLayout.walkRegion (L : BankLayout) (b : Fin 2) :
    WalkRegion (L.addr b) L.sectorSize :=
  ⟨L.sectorSize_le, L.addr_le b⟩

section Walks

variable {S : Nat} {m : Memory} {base size : Nat}

/-- The mount scan stops behind the last record when the cells there are
erased or too few for another header. -/
theorem scanLoop_yields (T : Target) (hr : WalkRegion base size) {slack : List UInt8}
    {log : List NvsRecord} {fuel off : Nat} (hfuel : log.length < fuel)
    (h : LogAt m base size off log slack)
    (htight : slack ≠ [] → size < off + logSize log + recordHdrSize) :
    FlashYields S m (scanLoop T base size fuel off) [] (off + logSize log) m := by
  have hsize := hr.size_le
  have hbase := hr.base_le
  induction log generalizing fuel off with
  | nil =>
      obtain ⟨fuel, rfl⟩ : ∃ k, fuel = k + 1 := ⟨fuel - 1, by omega⟩
      have hfit := h.fits
      simp only [logSize_nil, Nat.add_zero] at hfit htight ⊢
      have hT : T.size (off + recordHdrSize) = off + recordHdrSize :=
        T.size_of_lt (by rw [recordHdrSize]; omega)
      rw [scanLoop, hT]
      by_cases hroom : off + recordHdrSize ≤ size
      · have hslack : slack = [] := by
          by_contra hne
          have := htight hne
          omega
        subst hslack
        rw [if_pos hroom]
        refine FlashYields.read ?_
        have haddr : u32 (base + off) = base + off :=
          u32_of_lt (by rw [recordHdrSize] at hroom; omega)
        rw [haddr]
        simp only [h.nil_hdr hroom, ne_eq, not_true_eq_false, if_false, if_true]
        exact Program.Yields.ret _ _
      · rw [if_neg hroom]
        exact Program.Yields.ret _ _
  | cons r rest ih =>
      obtain ⟨fuel, rfl⟩ : ∃ k, fuel = k + 1 := ⟨fuel - 1, by omega⟩
      have hfit := h.fits
      have hge := r.size_ge
      have hle := r.size_le
      simp only [logSize_cons] at hfit htight ⊢
      have hT : T.size (off + recordHdrSize) = off + recordHdrSize :=
        T.size_of_lt (by rw [recordHdrSize]; omega)
      have hroom : off + recordHdrSize ≤ size := by rw [recordHdrSize]; omega
      have haddr : u32 (base + off) = base + off := u32_of_lt (by omega)
      have hnext : u32 (off + r.size) = off + r.size := u32_of_lt (by omega)
      have hin : ¬ off + r.size > size := by omega
      rw [scanLoop, hT, if_pos hroom]
      refine FlashYields.read ?_
      rw [haddr]
      simp only [h.head_hdr, r.recTotal_hdr, hnext, r.key_ne, hin, ne_eq, not_true_eq_false,
        if_false]
      rw [← Nat.add_assoc]
      refine ih (by simpa using hfuel) h.tail fun hne => ?_
      have := htight hne
      omega

/-- Every header announces at least itself, and at most a full-length payload. -/
theorem recTotal_bounds (hdr : RecordHdr) : 8 ≤ recTotal hdr ∧ recTotal hdr ≤ 65544 := by
  have hlen := hdr.length.toNat_lt
  rw [recTotal, recordHdrSize, alignUp4_eq (by omega), u32_of_lt (by omega)]
  omega

/-- How a walk ends behind the records it knows, at offset `off`: at the write
offset, or with one more header that is no value and reaches the write offset. -/
def WalkEnd (nvs : FwNvs) (m : Memory) (base off : Nat) : Option RecordHdr → Prop
  | none => nvs.writeOffset = off
  | some g => off < nvs.writeOffset ∧ nvs.writeOffset ≤ off + recTotal g ∧
      RecordHdr.ofBytes (m.bytesAt (u32 (base + off)) recordHdrSize) = g ∧
      g.key ≠ fwNvsKeyEmpty ∧ g.status ≠ fwNvsStatusValid

/-- The key that the end of a walk hides. -/
def Hides (tail : Option RecordHdr) (key : UInt16) : Prop := tail.map RecordHdr.key = some key

instance (tail : Option RecordHdr) (key : UInt16) : Decidable (Hides tail key) :=
  inferInstanceAs (Decidable (_ = _))

/-- The inner scan of `nvs_compact` finds out whether no later record has the key. -/
theorem isLatestLoop_yields {nvs : FwNvs} (hr : WalkRegion base size) {slack : List UInt8}
    {log : List NvsRecord} {fuel off : Nat} {tail : Option RecordHdr} (key : UInt16)
    (hfuel : log.length + 1 < fuel) (h : LogAt m base size off log slack)
    (hend : WalkEnd nvs m base (off + logSize log) tail) :
    FlashYields S m (isLatestLoop nvs base key fuel off) []
      (decide ((∀ x ∈ log, x.key ≠ key) ∧ ¬ Hides tail key)) m := by
  have hsize := hr.size_le
  have hbase := hr.base_le
  induction log generalizing fuel off with
  | nil =>
      obtain ⟨fuel, rfl⟩ : ∃ k, fuel = k + 1 := ⟨fuel - 1, by omega⟩
      obtain ⟨fuel, rfl⟩ : ∃ k, fuel = k + 1 := ⟨fuel - 1, by omega⟩
      rw [logSize_nil, Nat.add_zero] at hend
      cases tail with
      | none =>
          have hstop : ¬ off < nvs.writeOffset := Nat.not_lt.mpr (Nat.le_of_eq hend)
          rw [isLatestLoop, if_neg hstop]
          exact Program.Yields.ret _ _
      | some g =>
          obtain ⟨hlt, hreach, hg, hkey, _⟩ := hend
          have hfit := h.fits
          have htotal := recTotal_bounds g
          have hnext : u32 (off + recTotal g) = off + recTotal g := u32_of_lt (by omega)
          rw [isLatestLoop, if_pos hlt]
          refine FlashYields.read ?_
          simp only [hg, hnext, hkey, ne_eq, not_true_eq_false, if_false]
          by_cases hk : g.key = key
          · have hdec : decide ((∀ x ∈ ([] : List NvsRecord), x.key ≠ key) ∧
                ¬ Hides (some g) key) = false := by simp [Hides, hk]
            rw [if_pos hk, hdec]
            exact Program.Yields.ret _ _
          · have hdec : decide ((∀ x ∈ ([] : List NvsRecord), x.key ≠ key) ∧
                ¬ Hides (some g) key) = true := by simp [Hides, hk]
            have hstop : ¬ off + recTotal g < nvs.writeOffset := Nat.not_lt.mpr hreach
            rw [if_neg hk, hdec, isLatestLoop, if_neg hstop]
            exact Program.Yields.ret _ _
  | cons r rest ih =>
      obtain ⟨fuel, rfl⟩ : ∃ k, fuel = k + 1 := ⟨fuel - 1, by omega⟩
      have hfit := h.fits
      have hge := r.size_ge
      simp only [logSize_cons, ← Nat.add_assoc] at hfit hend
      have hin : off < nvs.writeOffset := by
        cases tail with
        | none =>
            have hw : nvs.writeOffset = off + r.size + logSize rest := hend
            omega
        | some g =>
            have hw := hend.1
            omega
      have haddr : u32 (base + off) = base + off := u32_of_lt (by omega)
      have hnext : u32 (off + r.size) = off + r.size := u32_of_lt (by omega)
      rw [isLatestLoop, if_pos hin]
      refine FlashYields.read ?_
      rw [haddr]
      simp only [h.head_hdr, r.recTotal_hdr, hnext, r.key_ne, ne_eq, not_true_eq_false, if_false]
      by_cases hk : r.key = key
      · have hdec : decide ((∀ x ∈ r :: rest, x.key ≠ key) ∧ ¬ Hides tail key) = false := by
          simp [hk]
        rw [hdec, if_pos (show r.hdr.key = key from hk)]
        exact Program.Yields.ret _ _
      · have hdec : decide ((∀ x ∈ r :: rest, x.key ≠ key) ∧ ¬ Hides tail key) =
            decide ((∀ x ∈ rest, x.key ≠ key) ∧ ¬ Hides tail key) := by
          simp [hk]
        rw [hdec, if_neg (show ¬ r.hdr.key = key from hk)]
        exact ih (by simpa using hfuel) h.tail hend

/-- The loop state after the lookup of `key`, in terms of the last record of the key. -/
def Match.Finds (mt mt' : Match) (m : Memory) (base : Nat) (last : Option NvsRecord) : Prop :=
  match last with
  | none => mt' = mt
  | some r => mt'.found = r.valid ∧ (r.valid = true → mt'.matchHdr = r.hdr ∧
      m.bytesAt (base + (mt'.matchOffset + recordHdrSize)) r.length = r.payload ∧
      base + (mt'.matchOffset + recordHdrSize) + r.length ≤ 2 ^ 32)

theorem lookupLoop_yields {nvs : FwNvs} (hr : WalkRegion base size) {slack : List UInt8}
    {log : List NvsRecord} {fuel off : Nat} (key : UInt16) (mt : Match)
    (hfuel : log.length < fuel) (h : LogAt m base size off log slack)
    (hoff : nvs.writeOffset = off + logSize log) :
    ∃ mt', FlashYields S m (lookupLoop nvs base key fuel off mt) [] mt' m ∧
      Match.Finds mt mt' m base (KeyedLog.latest NvsRecord.key key log) := by
  have hsize := hr.size_le
  have hbase := hr.base_le
  induction log generalizing fuel off mt with
  | nil =>
      obtain ⟨fuel, rfl⟩ : ∃ k, fuel = k + 1 := ⟨fuel - 1, by omega⟩
      have hend : ¬ off < nvs.writeOffset := by rw [hoff]; simp
      refine ⟨mt, ?_, rfl⟩
      rw [lookupLoop, if_neg hend]
      exact Program.Yields.ret _ _
  | cons r rest ih =>
      obtain ⟨fuel, rfl⟩ : ∃ k, fuel = k + 1 := ⟨fuel - 1, by omega⟩
      have hfit := h.fits
      have hge := r.size_ge
      simp only [logSize_cons] at hfit hoff
      have hin : off < nvs.writeOffset := by omega
      have haddr : u32 (base + off) = base + off := u32_of_lt (by omega)
      have hnext : u32 (off + r.size) = off + r.size := u32_of_lt (by omega)
      obtain ⟨mt', hrun, hfinds⟩ := ih (mt.update key off r.hdr) (by simpa using hfuel)
        h.tail (by omega)
      refine ⟨mt', ?_, ?_⟩
      · rw [lookupLoop, if_pos hin]
        refine FlashYields.read ?_
        rw [haddr]
        simp only [h.head_hdr, r.recTotal_hdr, hnext, r.key_ne, ne_eq, not_true_eq_false, if_false]
        exact hrun
      · rw [KeyedLog.latest]
        cases hlast : KeyedLog.latest NvsRecord.key key rest with
        | some x =>
            rw [hlast] at hfinds
            exact hfinds
        | none =>
            -- no later record has the key, so the loop keeps what this record did
            rw [hlast] at hfinds
            have hmt : mt' = mt.update key off r.hdr := hfinds
            by_cases hk : r.key = key
            · have hk' : r.hdr.key = key := hk
              simp only [hk, if_true, Option.none_or, Match.Finds, hmt, Match.update, if_pos hk']
              by_cases hv : r.hdr.status = fwNvsStatusValid
              · simp only [NvsRecord.valid, hv, if_true, beq_self_eq_true, true_and, true_implies]
                exact ⟨h.head_payload, by rw [recordHdrSize]; omega⟩
              · simp [NvsRecord.valid, hv]
            · have hk' : ¬ r.hdr.key = key := hk
              simp only [hk, if_false, Option.or_none, Match.Finds, hmt, Match.update, if_neg hk']

end Walks

end ZeroEmbedded.Nvs
