import ZeroEmbedded.Storage.NvsFaultyCalls

/-!
# Mounting any flash

Whatever the banks hold, the mount scan stops inside of the bank, and what it
has walked over is a log. So every mount that succeeds ends with a running
instance.
-/

namespace ZeroEmbedded.Nvs

open Foundation

/-- The record that a header in memory announces. -/
def NvsRecord.ofMemory (m : Memory) (a : Nat)
    (hkey : (RecordHdr.ofBytes (m.bytesAt a recordHdrSize)).key ≠ fwNvsKeyEmpty) : NvsRecord where
  hdr := RecordHdr.ofBytes (m.bytesAt a recordHdrSize)
  body := m.bytesAt (a + recordHdrSize)
    (alignUp4 (RecordHdr.ofBytes (m.bytesAt a recordHdrSize)).length.toNat)
  body_length := Memory.bytesAt_length _ _ _
  key_ne := hkey

theorem NvsRecord.bytesAt_ofMemory (m : Memory) (a : Nat)
    (hkey : (RecordHdr.ofBytes (m.bytesAt a recordHdrSize)).key ≠ fwNvsKeyEmpty) :
    m.bytesAt a (NvsRecord.ofMemory m a hkey).size = (NvsRecord.ofMemory m a hkey).bytes := by
  have hbytes : (NvsRecord.ofMemory m a hkey).bytes = m.bytesAt a (recordHdrSize +
      alignUp4 (RecordHdr.ofBytes (m.bytesAt a recordHdrSize)).length.toNat) := by
    rw [Memory.bytesAt_append]
    exact congrArg (· ++ _) (RecordHdr.bytes_ofBytes (Memory.bytesAt_length _ _ _))
  rw [NvsRecord.size, hbytes, Memory.bytesAt_length]

/-- The mount scan finds no further record at this offset. -/
def ScanStops (m : Memory) (base size off : Nat) : Prop :=
  size < off + recordHdrSize ∨
    (RecordHdr.ofBytes (m.bytesAt (base + off) recordHdrSize)).key = fwNvsKeyEmpty ∨
      size < off + recTotal (RecordHdr.ofBytes (m.bytesAt (base + off) recordHdrSize))

instance (m : Memory) (base size off : Nat) : Decidable (ScanStops m base size off) :=
  inferInstanceAs (Decidable (_ ∨ _ ∨ _))

/-- The bytes of a bank up to a stop of the scan are those of one log only. -/
theorem log_unique {m : Memory} {base size off : Nat} {log log' : List NvsRecord}
    (hlog : m.bytesAt (base + off) (logSize log) = logBytes log)
    (hlog' : m.bytesAt (base + off) (logSize log') = logBytes log')
    (hfit : off + logSize log ≤ size) (hfit' : off + logSize log' ≤ size)
    (hstop : ScanStops m base size (off + logSize log))
    (hstop' : ScanStops m base size (off + logSize log')) : log = log' := by
  -- where a record lies the scan goes on
  have hgoes : ∀ {off} {r : NvsRecord} {rest : List NvsRecord}, off + logSize (r :: rest) ≤ size →
      m.bytesAt (base + off) (logSize (r :: rest)) = logBytes (r :: rest) →
      ¬ ScanStops m base size off := by
    intro off r rest hfit hbytes hstop
    obtain ⟨slack, hat⟩ := LogAt.of_bytes hfit hbytes
    have hge := r.size_ge
    rw [logSize_cons] at hfit
    rw [ScanStops, hat.head_hdr, r.recTotal_hdr, recordHdrSize] at hstop
    rcases hstop with hroom | hkey | hroom
    · omega
    · exact r.key_ne hkey
    · omega
  induction log generalizing off log' with
  | nil =>
      cases log' with
      | nil => rfl
      | cons r rest => exact absurd hstop (hgoes hfit' hlog')
  | cons r rest ih =>
      cases log' with
      | nil => exact absurd hstop' (hgoes hfit hlog)
      | cons r' rest' =>
          obtain ⟨slack, hat⟩ := LogAt.of_bytes hfit hlog
          obtain ⟨slack', hat'⟩ := LogAt.of_bytes hfit' hlog'
          have hhdr : r.hdr = r'.hdr := hat.head_hdr.symm.trans hat'.head_hdr
          have hsize : r.size = r'.size := by
            rw [← r.recTotal_hdr, hhdr, r'.recTotal_hdr]
          have hbytes : r.bytes = r'.bytes := by
            rw [← hat.head_bytes, hsize, hat'.head_bytes]
          have hbody : r.body = r'.body := by
            rw [NvsRecord.bytes, NvsRecord.bytes, hhdr] at hbytes
            exact List.append_cancel_left hbytes
          obtain rfl : r = r' := by
            obtain ⟨hdr, body, _, _⟩ := r
            obtain ⟨hdr', body', _, _⟩ := r'
            subst hhdr hbody
            rfl
          simp only [logSize_cons, ← Nat.add_assoc] at hfit hfit' hstop hstop'
          rw [ih hat.tail.bytesAt_eq hat'.tail.bytesAt_eq hfit hfit' hstop hstop']

section Mount

variable {σ : Type} {L : BankLayout} {V : FlashView σ} {h : Handler FlashCall FlashCall.Reply σ}
  {guard : FlashCall → σ → Prop} {safe : FlashCall → Prop} {d : σ} {m : Memory} {b : Fin 2}

/-- The mount scan ends inside of the bank, behind a log. -/
theorem scanLoop_ensures (T : Target) (hD : FlashContract L V h guard safe) {fuel off : Nat}
    (hoff : off ≤ L.sectorSize) (hfuel : L.sectorSize < off + fuel) (hm : V.mem d = m) :
    Program.Ensures h guard safe
      (fun stop d' => V.mem d' = m ∧ ∃ log, stop = off + logSize log ∧ stop ≤ L.sectorSize ∧
        m.bytesAt (L.addr b + off) (logSize log) = logBytes log ∧
        (ReadsSucceed h guard recordHdrSize → ScanStops m (L.addr b) L.sectorSize stop))
      (scanLoop T (L.addr b) L.sectorSize fuel off) d := by
  have hsize := L.sectorSize_le
  have hbase := L.addr_le b
  -- the scan stops here, with no record
  have hhere : ∀ {off d}, off ≤ L.sectorSize → V.mem d = m →
      (ReadsSucceed h guard recordHdrSize → ScanStops m (L.addr b) L.sectorSize off) →
      Program.Ensures h guard safe
        (fun stop d' => V.mem d' = m ∧ ∃ log, stop = off + logSize log ∧ stop ≤ L.sectorSize ∧
          m.bytesAt (L.addr b + off) (logSize log) = logBytes log ∧
          (ReadsSucceed h guard recordHdrSize → ScanStops m (L.addr b) L.sectorSize stop))
        (pure off) d := fun hle hm hstop =>
    Program.Ensures.ret ⟨hm, [], rfl, hle, Memory.bytesAt_zero _ _, hstop⟩
  induction fuel generalizing off d with
  | zero => omega
  | succ fuel ih =>
      have hT : T.size (off + recordHdrSize) = off + recordHdrSize :=
        T.size_of_lt (by rw [recordHdrSize]; omega)
      rw [scanLoop, hT]
      by_cases hroom : off + recordHdrSize ≤ L.sectorSize
      · have hroom' : off + 8 ≤ L.sectorSize := hroom
        have haddr : u32 (L.addr b + off) = L.addr b + off := u32_of_lt (by omega)
        rw [if_pos hroom, haddr]
        refine hD.flashRead (hD.allowed (.read _ _) ⟨b, by omega, by omega⟩) ?_ ?_
        · intro st buf d1 hst hm1 _ hreads
          simp only [ne_eq, hst, not_false_eq_true, if_true]
          exact hhere hoff (hm1.trans hm) fun hr => absurd hr hreads
        · intro d1 hm1 _
          have htotal := recTotal_bounds
            (RecordHdr.ofBytes (m.bytesAt (L.addr b + off) recordHdrSize))
          have hnext : u32 (off + recTotal (RecordHdr.ofBytes
              (m.bytesAt (L.addr b + off) recordHdrSize))) =
              off + recTotal (RecordHdr.ofBytes (m.bytesAt (L.addr b + off) recordHdrSize)) :=
            u32_of_lt (by omega)
          rw [hm]
          simp only [ne_eq, not_true_eq_false, if_false, hnext]
          by_cases hkey : (RecordHdr.ofBytes (m.bytesAt (L.addr b + off) recordHdrSize)).key =
              fwNvsKeyEmpty
          · rw [if_pos hkey]
            exact hhere hoff (hm1.trans hm) fun _ => Or.inr (Or.inl hkey)
          · rw [if_neg hkey]
            by_cases hfits : off + recTotal (RecordHdr.ofBytes
                (m.bytesAt (L.addr b + off) recordHdrSize)) > L.sectorSize
            · rw [if_pos hfits]
              exact hhere hoff (hm1.trans hm) fun _ => Or.inr (Or.inr hfits)
            · rw [if_neg hfits]
              let r := NvsRecord.ofMemory m (L.addr b + off) hkey
              have htot : recTotal (RecordHdr.ofBytes (m.bytesAt (L.addr b + off) recordHdrSize)) =
                  r.size := r.recTotal_hdr
              rw [htot] at htotal hfits ⊢
              have hnext : off + r.size ≤ L.sectorSize := by omega
              have hrest := ih hnext (by omega) (hm1.trans hm)
              refine hrest.mono fun stop d2 hd2 => ⟨hd2.1, ?_⟩
              obtain ⟨log, hstop, hle, hbytes, hscan⟩ := hd2.2
              refine ⟨r :: log, ?_, hle, ?_, hscan⟩
              · rw [hstop, logSize_cons, Nat.add_assoc]
              · rw [logSize_cons, Memory.bytesAt_append, logBytes_cons, Nat.add_assoc, hbytes]
                exact congrArg (· ++ _) (NvsRecord.bytesAt_ofMemory m (L.addr b + off) hkey)
      · rw [if_neg hroom]
        exact hhere hoff hm fun _ => Or.inl (Nat.not_le.mp hroom)

/-- The bank that `fw_nvs_init` takes: a valid one that is preferred to the other. -/
structure Chosen (L : BankLayout) (m : Memory) (b : Fin 2) : Prop where
  valid : (hdrAt m (L.addr b)).valid = true
  preferred : (hdrAt m (L.addr (1 - b))).valid = true →
    Prefers b (hdrAt m (L.addr b)).sequence (hdrAt m (L.addr (1 - b))).sequence

instance (L : BankLayout) (m : Memory) (b : Fin 2) : Decidable (Chosen L m b) :=
  decidable_of_iff ((hdrAt m (L.addr b)).valid = true ∧
      ((hdrAt m (L.addr (1 - b))).valid = true →
        Prefers b (hdrAt m (L.addr b)).sequence (hdrAt m (L.addr (1 - b))).sequence))
    ⟨fun hc => ⟨hc.1, hc.2⟩, fun hc => ⟨hc.valid, hc.preferred⟩⟩

/-- Of two banks with a valid header, one is preferred. -/
theorem exists_chosen (L : BankLayout) (m : Memory) {b : Fin 2}
    (hv : (hdrAt m (L.addr b)).valid = true) : ∃ c, Chosen L m c := by
  by_cases hp : (hdrAt m (L.addr (1 - b))).valid = true →
      Prefers b (hdrAt m (L.addr b)).sequence (hdrAt m (L.addr (1 - b))).sequence
  · exact ⟨b, hv, hp⟩
  · obtain ⟨ho, hp⟩ := Classical.not_imp.mp hp
    refine ⟨1 - b, ho, fun _ => ?_⟩
    rw [BankLayout.other_other]
    rcases BankLayout.bank_cases b with rfl | rfl
    · simpa [Prefers] using hp
    · exact fun hgt => hp hgt

/-- The recovery keeps the chosen bank and touches at most the other one. -/
theorem recoverBank_ensures (hD : FlashContract L V h guard safe) (fresh : FwNvs)
    (hc : Chosen L (V.mem d) b) :
    Program.Ensures h guard safe
      (fun nvs d' =>
        nvs = { attached L fresh with
          activeBank := b, sequence := (hdrAt (V.mem d) (L.addr b)).sequence } ∧
        (V.mem d' = V.mem d ∨ V.mem d' = (V.mem d).erase (L.addr (1 - b)) L.sectorSize))
      (recoverBank (attached L fresh) (hdrAt (V.mem d) (L.addr 0)) (hdrAt (V.mem d) (L.addr 1)))
      d := by
  let hdr : Fin 2 → SectorHdr := fun c => hdrAt (V.mem d) (L.addr c)
  cases ho : (hdrAt (V.mem d) (L.addr (1 - b))).valid with
  | false =>
      have heq := recoverBank_only (attached L fresh) hdr b hc.valid ho
      dsimp only [hdr] at heq
      rw [heq]
      exact Program.Ensures.ret ⟨rfl, Or.inl rfl⟩
  | true =>
      have heq := recoverBank_both (attached L fresh) hdr b hc.valid ho (hc.preferred ho)
      dsimp only [hdr] at heq
      rw [heq]
      refine hD.flashErase (hD.allowed (.eraseSector _) ⟨1 - b, rfl⟩) ?_ ?_
      · intro st d1 _ hm1 _
        exact Program.Ensures.ret ⟨rfl, Or.inl hm1⟩
      · intro d1 hm1 _
        exact Program.Ensures.ret ⟨rfl, Or.inr hm1⟩

/-- `fw_nvs_init` reads the two sector headers and goes on with what they say. -/
theorem fwNvsInit_headers (T : Target) (hD : FlashContract L V h guard safe) (fresh : FwNvs)
    {post : FwStatus × FwNvs → σ → Prop}
    (hfail : ∀ st d', st ≠ .ok → V.mem d' = V.mem d → ¬ ReadsSucceed h guard sectorHdrSize →
      post (st, attached L fresh) d')
    (hok : ∀ d', V.mem d' = V.mem d → Program.Ensures h guard safe post
      (if !(hdrAt (V.mem d) (L.addr 0)).valid && !(hdrAt (V.mem d) (L.addr 1)).valid then
        fwNvsFormat (attached L fresh)
      else do
        let nvs ← recoverBank (attached L fresh) (hdrAt (V.mem d) (L.addr 0))
          (hdrAt (V.mem d) (L.addr 1))
        let nvs ← scanWriteOffset T nvs
        return (.ok, nvs)) d') :
    Program.Ensures h guard safe post
      (fwNvsInit T fresh ⟨L.sectorSize⟩ (L.addr 0) (L.addr 1)) d := by
  have hS : ¬ L.sectorSize < 256 := Nat.not_lt.mpr L.sectorSize_ge
  have hroom : sectorHdrSize ≤ L.sectorSize := Nat.le_trans (by decide) L.sectorSize_ge
  have haddr : (![L.addr 0, L.addr 1] : Fin 2 → Nat) = L.addr := by
    funext i
    rcases BankLayout.bank_cases i with rfl | rfl <;> rfl
  rw [fwNvsInit, if_neg hS]
  refine hD.flashRead (hD.allowed (.read _ _) ⟨0, Nat.le_refl _, by omega⟩) ?_ ?_
  · intro st buf d1 hst hm1 _ hreads
    simp only [ne_eq, hst, not_false_eq_true, if_true, haddr]
    exact Program.Ensures.ret (hfail st d1 hst hm1 hreads)
  intro d1 hm1 _
  simp only [ne_eq, not_true_eq_false, if_false]
  refine hD.flashRead (hD.allowed (.read _ _) ⟨1, Nat.le_refl _, by omega⟩) ?_ ?_
  · intro st buf d2 hst hm2 _ hreads
    simp only [hst, not_false_eq_true, if_true, haddr]
    exact Program.Ensures.ret (hfail st d2 hst (hm2.trans hm1) hreads)
  · intro d2 hm2 _
    simp only [not_true_eq_false, if_false, haddr, hm1]
    exact hok d2 (hm2.trans hm1)

/-- `fw_nvs_init` with a valid bank ends with a running instance, or with the error of a read of
a sector header. -/
theorem fwNvsInit_ensures (T : Target) (hD : FlashContract L V h guard safe) (fresh : FwNvs)
    (hc : Chosen L (V.mem d) b) :
    Program.Ensures h guard safe
      (fun res d' =>
        (V.mem d' = V.mem d ∨ V.mem d' = (V.mem d).erase (L.addr (1 - b)) L.sectorSize) ∧
        if res.1 = .ok then ∃ log, Running L res.2 (V.mem d') log ∧ res.2.activeBank = b ∧
          (ReadsSucceed h guard recordHdrSize →
            ScanStops (V.mem d') (L.addr b) L.sectorSize res.2.writeOffset)
        else res.2 = attached L fresh ∧ ¬ ReadsSucceed h guard sectorHdrSize)
      (fwNvsInit T fresh ⟨L.sectorSize⟩ (L.addr 0) (L.addr 1)) d := by
  have hroom : sectorHdrSize ≤ L.sectorSize := Nat.le_trans (by decide) L.sectorSize_ge
  have hcond : ¬ (!(hdrAt (V.mem d) (L.addr 0)).valid && !(hdrAt (V.mem d) (L.addr 1)).valid) =
      true := by
    have hv := hc.valid
    rcases BankLayout.bank_cases b with rfl | rfl <;> simp [hv]
  refine fwNvsInit_headers T hD fresh ?_ ?_
  · intro st d' hst hm' hreads
    refine ⟨Or.inl hm', ?_⟩
    rw [if_neg hst]
    exact ⟨rfl, hreads⟩
  intro d2 hm2
  rw [if_neg hcond]
  have hrec := recoverBank_ensures hD fresh (hm2.symm ▸ hc : Chosen L (V.mem d2) b)
  rw [hm2] at hrec
  refine Program.Ensures.bind hrec fun nvs d3 hd3 => ?_
  obtain ⟨rfl, hm3⟩ := hd3
  -- the recovery does not touch the chosen bank
  have hsame : ∀ x, L.addr b ≤ x → x < L.addr b + L.sectorSize → V.mem d3 x = V.mem d x := by
    intro x hl hr
    have hd := L.addr_disjoint b
    rcases hm3 with heq | heq
    · rw [heq]
    · rw [heq]
      exact Memory.erase_of_outside (by omega)
  have hhdr : hdrAt (V.mem d3) (L.addr b) = hdrAt (V.mem d) (L.addr b) :=
    congrArg SectorHdr.ofBytes (Memory.bytesAt_congr fun x hl hr => hsame x hl (by omega))
  have hfuel : L.sectorSize < sectorHdrSize + loopFuel := by
    have := L.sectorSize_le
    rw [loopFuel]
    omega
  have hscan := scanLoop_ensures (b := b) T hD (d := d3) hroom hfuel rfl
  rw [scanWriteOffset, Program.bind_assoc]
  refine Program.Ensures.bind hscan fun stop d4 hd4 => ?_
  obtain ⟨hm4, log, hstop, hle, hbytes, hends⟩ := hd4
  refine Program.Ensures.ret ⟨by rw [hm4]; exact hm3, ?_⟩
  rw [if_pos rfl]
  refine ⟨log, ?_, rfl, ?_⟩
  · rw [hm4]
    refine ⟨?_, ?_⟩
    · rw [hstop]
      rfl
    · refine ⟨?_, ?_, ?_, hbytes⟩
      · rw [hhdr]
        exact hc.valid
      · rw [hhdr]
      · rw [← hstop]
        exact hle
  · rw [hm4]
    exact hends

end Mount

end ZeroEmbedded.Nvs
