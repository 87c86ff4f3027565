import ZeroEmbedded.Storage.FaultyFlash
import ZeroEmbedded.Storage.NvsUpdate

/-!
# The store on a driver whose calls may fail

Each function of `nvs.c` is described for every device that meets the driver
contract. A call that fails never touches the header and the records that the
running instance counts on, whatever it leaves behind them or in the other bank.
-/

namespace ZeroEmbedded.Nvs

open Foundation

section Walks

variable {σ : Type} {L : BankLayout} {V : FlashView σ} {h : Handler FlashCall FlashCall.Reply σ}
  {guard : FlashCall → σ → Prop} {safe : FlashCall → Prop} {d : σ} {m : Memory} {b : Fin 2}

/-- The payload of a found record lies in the bank. -/
def Match.InBank (L : BankLayout) (mt : Match) : Prop :=
  mt.found = true → mt.matchOffset + recordHdrSize + mt.matchHdr.length.toNat ≤ L.sectorSize

theorem Match.InBank.update {mt : Match} (hmt : mt.InBank L) {key : UInt16} {off : Nat}
    {hdr : RecordHdr} (hin : off + recordHdrSize + hdr.length.toNat ≤ L.sectorSize) :
    (mt.update key off hdr).InBank L := by
  rw [Match.update]
  split
  · split
    · exact fun _ => hin
    · exact fun hf => Bool.noConfusion hf
  · exact hmt

/-- The lookup of `fw_nvs_read` ends, whichever reads fail, and finds no record outside
of the bank. -/
theorem lookupLoop_ensures (hD : FlashContract L V h guard safe) {nvs : FwNvs}
    {slack : List UInt8} {log : List NvsRecord} {fuel off : Nat}
    (key : UInt16) {mt : Match} (hmt : mt.InBank L) (hfuel : log.length < fuel) (hm : V.mem d = m)
    (hlog : LogAt m (L.addr b) L.sectorSize off log slack)
    (hoff : nvs.writeOffset = off + logSize log) :
    Program.Ensures h guard safe (fun mt' d' => V.mem d' = m ∧ mt'.InBank L)
      (lookupLoop nvs (L.addr b) key fuel off mt) d := by
  have hsize := L.sectorSize_le
  have hbase := L.addr_le b
  induction log generalizing fuel off mt d with
  | nil =>
      obtain ⟨fuel, rfl⟩ : ∃ k, fuel = k + 1 := ⟨fuel - 1, by omega⟩
      have hend : ¬ off < nvs.writeOffset := by rw [hoff]; simp
      rw [lookupLoop, if_neg hend]
      exact Program.Ensures.ret ⟨hm, hmt⟩
  | cons r rest ih =>
      obtain ⟨fuel, rfl⟩ : ∃ k, fuel = k + 1 := ⟨fuel - 1, by omega⟩
      have hfit := hlog.fits
      have hge := r.size_ge
      simp only [logSize_cons] at hfit hoff
      have hin : off < nvs.writeOffset := by omega
      have haddr : u32 (L.addr b + off) = L.addr b + off := u32_of_lt (by omega)
      have hnext : u32 (off + r.size) = off + r.size := u32_of_lt (by omega)
      rw [lookupLoop, if_pos hin, haddr]
      refine hD.flashRead (hD.allowed (.read _ _) ⟨b, by omega, by rw [recordHdrSize]; omega⟩) ?_ ?_
      · intro st buf d' hst hm' _ _
        simp only [ne_eq, hst, not_false_eq_true, if_true]
        exact Program.Ensures.ret ⟨hm'.trans hm, hmt⟩
      · intro d' hm' _
        rw [hm]
        simp only [hlog.head_hdr, r.recTotal_hdr, hnext, r.key_ne, ne_eq, not_true_eq_false,
          if_false]
        have hpayload : off + recordHdrSize + r.hdr.length.toNat ≤ L.sectorSize := by
          change off + 8 + r.length ≤ L.sectorSize
          omega
        exact ih (hmt.update hpayload) (by simpa using hfuel) (hm'.trans hm) hlog.tail (by omega)

/-- The inner scan of `nvs_compact` drops a record only for a later one of its key. -/
theorem isLatestLoop_ensures (hD : FlashContract L V h guard safe) {nvs : FwNvs}
    {slack : List UInt8} {log : List NvsRecord} {fuel off : Nat}
    (key : UInt16) (hfuel : log.length < fuel) (hm : V.mem d = m)
    (hlog : LogAt m (L.addr b) L.sectorSize off log slack)
    (hoff : nvs.writeOffset = off + logSize log) :
    Program.Ensures h guard safe
      (fun isLatest d' => V.mem d' = m ∧ (isLatest = false → ∃ x ∈ log, x.key = key))
      (isLatestLoop nvs (L.addr b) key fuel off) d := by
  have hsize := L.sectorSize_le
  have hbase := L.addr_le b
  induction log generalizing fuel off d with
  | nil =>
      obtain ⟨fuel, rfl⟩ : ∃ k, fuel = k + 1 := ⟨fuel - 1, by omega⟩
      have hend : ¬ off < nvs.writeOffset := by rw [hoff]; simp
      rw [isLatestLoop, if_neg hend]
      exact Program.Ensures.ret ⟨hm, fun hf => Bool.noConfusion hf⟩
  | cons r rest ih =>
      obtain ⟨fuel, rfl⟩ : ∃ k, fuel = k + 1 := ⟨fuel - 1, by omega⟩
      have hfit := hlog.fits
      have hge := r.size_ge
      simp only [logSize_cons] at hfit hoff
      have hin : off < nvs.writeOffset := by omega
      have haddr : u32 (L.addr b + off) = L.addr b + off := u32_of_lt (by omega)
      have hnext : u32 (off + r.size) = off + r.size := u32_of_lt (by omega)
      rw [isLatestLoop, if_pos hin, haddr]
      refine hD.flashRead (hD.allowed (.read _ _) ⟨b, by omega, by rw [recordHdrSize]; omega⟩) ?_ ?_
      · intro st buf d' hst hm' _ _
        simp only [ne_eq, hst, not_false_eq_true, if_true]
        exact Program.Ensures.ret ⟨hm'.trans hm, fun hf => Bool.noConfusion hf⟩
      · intro d' hm' _
        rw [hm]
        simp only [hlog.head_hdr, r.recTotal_hdr, hnext, r.key_ne, ne_eq, not_true_eq_false,
          if_false]
        by_cases hk : r.hdr.key = key
        · rw [if_pos hk]
          exact Program.Ensures.ret ⟨hm'.trans hm, fun _ => ⟨r, List.mem_cons_self, hk⟩⟩
        · rw [if_neg hk]
          have hrest := ih (d := d') (by simpa using hfuel) (hm'.trans hm) hlog.tail (by omega)
          refine hrest.mono fun isLatest t ht => ⟨ht.1, fun hf => ?_⟩
          obtain ⟨x, hx, hxk⟩ := ht.2 hf
          exact ⟨x, List.mem_cons_of_mem _ hx, hxk⟩

end Walks

section Compact

variable {σ : Type} {L : BankLayout} {V : FlashView σ} {h : Handler FlashCall FlashCall.Reply σ}
  {guard : FlashCall → σ → Prop} {safe : FlashCall → Prop} {d : σ}

/-- The copy loop changes the destination range only, and fills it when it succeeds. -/
theorem copyLoop_ensures (hD : FlashContract L V h guard safe) {a b : Fin 2}
    {src dst n fuel : Nat} (hfuel : n < fuel)
    (hsrc : L.addr a ≤ src ∧ src + n ≤ L.addr a + L.sectorSize)
    (hdst : L.addr b + sectorHdrSize ≤ dst ∧ dst + n ≤ L.addr b + L.sectorSize)
    (hdisj : src + n ≤ dst ∨ dst + n ≤ src) :
    Program.Ensures h guard safe
      (fun st d' => (∀ x, ¬ (dst ≤ x ∧ x < dst + n) → (V.mem d') x = V.mem d x) ∧
        (st = .ok → (V.mem d').bytesAt dst n = (V.mem d).bytesAt src n))
      (copyLoop fuel (u32 src) (u32 dst) n) d := by
  have hsrcle := L.addr_le a
  have hdstle := L.addr_le b
  induction fuel generalizing src dst n d with
  | zero => omega
  | succ fuel ih =>
      by_cases hn : n = 0
      · subst hn
        rw [copyLoop, if_neg (Nat.lt_irrefl 0)]
        exact Program.Ensures.ret ⟨fun _ _ => rfl, fun _ => rfl⟩
      · have hchunk : (if n > copyBufSize then copyBufSize else n) = min copyBufSize n := by
          rw [Nat.min_def]
          split <;> split <;> omega
        have hpos : 0 < min copyBufSize n := by
          rw [copyBufSize]
          omega
        have hsplit : n = min copyBufSize n + (n - min copyBufSize n) := by omega
        have hsrcu : u32 src = src := u32_of_lt (by omega)
        have hdstu : u32 dst = dst := u32_of_lt (by omega)
        rw [copyLoop, if_pos (Nat.pos_of_ne_zero hn), hchunk, hsrcu, hdstu]
        generalize min copyBufSize n = c at hpos hsplit
        refine hD.flashRead (hD.allowed (.read _ _) ⟨a, hsrc.1, by omega⟩) ?_ ?_
        · intro st buf d1 hst hm1 _ _
          simp only [ne_eq, hst, not_false_eq_true, if_true]
          exact Program.Ensures.ret ⟨fun _ _ => by rw [hm1], fun hok => absurd hok hst⟩
        · intro d1 hm1 _
          simp only [ne_eq, not_true_eq_false, if_false]
          refine hD.flashWrite (hD.allowed (.write _ _) ⟨b, Or.inl hdst.1, ?_⟩) ?_ ?_
          · rw [Memory.bytesAt_length]
            omega
          · intro st d2 hst _ hout _
            simp only [hst, not_false_eq_true, if_true]
            refine Program.Ensures.ret ⟨fun x hx => ?_, fun hok => absurd hok hst⟩
            rw [hout x (by rw [Memory.bytesAt_length]; omega), hm1]
          · intro d2 _ haccepts hm2
            simp only [not_true_eq_false, if_false]
            rw [hm1] at haccepts hm2
            have hout2 : ∀ x, ¬ (dst ≤ x ∧ x < dst + c) → (V.mem d2) x = V.mem d x := fun x hx => by
              rw [hm2, Memory.program_of_outside (by rw [Memory.bytesAt_length]; omega)]
            have hdata2 : (V.mem d2).bytesAt dst c = (V.mem d).bytesAt src c := by
              have hbytes := haccepts.bytesAt_program
              rwa [Memory.bytesAt_length, ← hm2] at hbytes
            have hrest := ih (d := d2) (by omega : n - c < fuel)
              (by omega : L.addr a ≤ src + c ∧ src + c + (n - c) ≤ L.addr a + L.sectorSize)
              (by omega : L.addr b + sectorHdrSize ≤ dst + c ∧
                dst + c + (n - c) ≤ L.addr b + L.sectorSize)
              (by omega)
            rw [← hsrcu, ← hdstu, u32_add_u32, u32_add_u32, hsrcu, hdstu]
            refine hrest.mono fun st t ht => ⟨fun x hx => ?_, fun hok => ?_⟩
            · rw [ht.1 x (by omega), hout2 x (by omega)]
            · have hfirst : (V.mem t).bytesAt dst c = (V.mem d).bytesAt src c := by
                rw [← hdata2]
                exact Memory.bytesAt_congr fun x hl hr => ht.1 x (by omega)
              have hlast : (V.mem d2).bytesAt (src + c) (n - c) =
                  (V.mem d).bytesAt (src + c) (n - c) :=
                Memory.bytesAt_congr fun x hl hr => hout2 x (by omega)
              rw [hsplit, Memory.bytesAt_append, Memory.bytesAt_append, hfirst, ht.2 hok, hlast]

/-- The copy of a record writes only to the destination, and extends what it holds. -/
theorem copyRecord_ensures (hD : FlashContract L V h guard safe) {a : Fin 2} {m0 : Memory}
    {slack content : List UInt8} {r : NvsRecord} {rest : List NvsRecord} {off dstOff : Nat}
    (hlog : LogAt m0 (L.addr a) L.sectorSize off (r :: rest) slack)
    (hm : SameOutside L (1 - a) m0 (V.mem d))
    (hdst : (V.mem d).Holds (L.addr (1 - a)) L.sectorSize content)
    (hcontent : content.length = dstOff) (hdstOff : sectorHdrSize ≤ dstOff)
    (hroom : dstOff + r.size ≤ L.sectorSize) :
    Program.Ensures h guard safe
      (fun st d' => SameOutside L (1 - a) m0 (V.mem d') ∧
        (st = .ok → (V.mem d').Holds (L.addr (1 - a)) L.sectorSize (content ++ r.bytes)))
      (copyLoop loopFuel (L.addr a + off) (u32 (L.addr (1 - a) + dstOff)) r.size) d := by
  have hsize := L.sectorSize_le
  have hsrc := L.addr_le a
  have hdisj := L.addr_disjoint a
  have hfit := hlog.fits
  have hge := r.size_ge
  rw [logSize_cons] at hfit
  have hsizelt : r.size < loopFuel := by
    have := r.size_le
    rw [loopFuel]
    omega
  have hlogm := hlog.congr fun x hl hr => hm x (by omega)
  have haddr : u32 (L.addr a + off) = L.addr a + off := u32_of_lt (by omega)
  have hcopy := copyLoop_ensures hD (d := d) hsizelt
    (by omega : L.addr a ≤ L.addr a + off ∧ L.addr a + off + r.size ≤ L.addr a + L.sectorSize)
    (by omega : L.addr (1 - a) + sectorHdrSize ≤ L.addr (1 - a) + dstOff ∧
      L.addr (1 - a) + dstOff + r.size ≤ L.addr (1 - a) + L.sectorSize) (by omega)
  rw [haddr, hlogm.head_bytes] at hcopy
  refine hcopy.mono fun st d' hd' => ⟨fun x hx => ?_, fun hok => ?_⟩
  · rw [hd'.1 x (by omega), hm x hx]
  · refine hdst.of_programmed ?_ ?_ ?_
    · change content.length + r.size ≤ L.sectorSize
      omega
    · intro x hx
      refine hd'.1 x ?_
      change ¬ (L.addr (1 - a) + content.length ≤ x ∧
        x < L.addr (1 - a) + content.length + r.size) at hx
      omega
    · rw [hcontent]
      exact hd'.2 hok

/-- The migration has written only to the destination. When it succeeded, the destination
has some of the records; they are enough unless the loop stopped at a failed read. -/
structure Migrated (V : FlashView σ) (L : BankLayout) (a : Fin 2) (m0 : Memory)
    (content : List UInt8) (dstOff : Nat) (log : List NvsRecord) (res : FwStatus × Nat) (d' : σ) :
    Prop where
  outside : SameOutside L (1 - a) m0 (V.mem d')
  kept : res.1 = .ok → ∃ kept, kept.Sublist log ∧ res.2 = dstOff + logSize kept ∧
    (V.mem d').Holds (L.addr (1 - a)) L.sectorSize (content ++ logBytes kept) ∧
    (V.readFailed d' = false → KeyedLog.Keeps NvsRecord.key NvsRecord.valid log kept)

section Migrated

variable {a : Fin 2} {m0 : Memory} {content : List UInt8} {dstOff : Nat} {r : NvsRecord}
  {rest : List NvsRecord} {res : FwStatus × Nat} {d' : σ}

/-- A record that is dead or followed by a later one of its key is left out. -/
theorem Migrated.drop (hdone : Migrated V L a m0 content dstOff rest res d')
    (hdrop : r.valid = true → ∃ x ∈ rest, x.key = r.key) :
    Migrated V L a m0 content dstOff (r :: rest) res d' := by
  refine ⟨hdone.outside, fun hok => ?_⟩
  obtain ⟨kept, hsub, hres, hholds, hkeeps⟩ := hdone.kept hok
  exact ⟨kept, hsub.cons r, hres, hholds, fun hread => (hkeeps hread).drop hdrop⟩

/-- A record that was copied stands in front of those that the loop copies next. -/
theorem Migrated.keep
    (hdone : Migrated V L a m0 (content ++ r.bytes) (dstOff + r.size) rest res d')
    (hvalid : r.valid = true) : Migrated V L a m0 content dstOff (r :: rest) res d' := by
  refine ⟨hdone.outside, fun hok => ?_⟩
  obtain ⟨kept, hsub, hres, hholds, hkeeps⟩ := hdone.kept hok
  refine ⟨r :: kept, hsub.cons_cons r, ?_, ?_, fun hread => (hkeeps hread).keep hvalid⟩
  · rw [hres, logSize_cons]
    omega
  · rw [logBytes_cons, ← List.append_assoc]
    exact hholds

end Migrated

theorem migrateLoop_ensures (hD : FlashContract L V h guard safe) {a : Fin 2} {nvs : FwNvs}
    {m0 : Memory} {slack content : List UInt8} {log : List NvsRecord} {fuel off dstOff : Nat}
    (hfuel : log.length < fuel) (hcount : log.length < loopFuel)
    (hlog : LogAt m0 (L.addr a) L.sectorSize off log slack)
    (hoff : nvs.writeOffset = off + logSize log) (hm : SameOutside L (1 - a) m0 (V.mem d))
    (hdst : (V.mem d).Holds (L.addr (1 - a)) L.sectorSize content)
    (hcontent : content.length = dstOff) (hdstOff : sectorHdrSize ≤ dstOff)
    (hroom : dstOff + logSize log ≤ L.sectorSize) :
    Program.Ensures h guard safe (Migrated V L a m0 content dstOff log)
      (migrateLoop nvs (L.addr a) (L.addr (1 - a)) L.sectorSize fuel off dstOff) d := by
  have hsize := L.sectorSize_le
  have hsrc := L.addr_le a
  have hdstle := L.addr_le (1 - a)
  have hdisj := L.addr_disjoint a
  induction log generalizing fuel off dstOff content d with
  | nil =>
      obtain ⟨fuel, rfl⟩ : ∃ k, fuel = k + 1 := ⟨fuel - 1, by omega⟩
      have hend : ¬ off < nvs.writeOffset := by rw [hoff]; simp
      rw [migrateLoop, if_neg hend]
      exact Program.Ensures.ret ⟨hm, fun _ => ⟨[], List.Sublist.refl _, rfl,
        by simpa using hdst, fun _ => KeyedLog.Keeps.nil⟩⟩
  | cons r rest ih =>
      obtain ⟨fuel, rfl⟩ : ∃ k, fuel = k + 1 := ⟨fuel - 1, by omega⟩
      have hsame : ∀ m', SameOutside L (1 - a) m0 m' →
          ∀ x, L.addr a ≤ x → x < L.addr a + L.sectorSize → m' x = m0 x := fun m' hm' x hl hr =>
        hm' x (by omega)
      have hfit := hlog.fits
      have hge := r.size_ge
      simp only [logSize_cons] at hfit hroom hoff
      have hin : off < nvs.writeOffset := by omega
      have haddr : u32 (L.addr a + off) = L.addr a + off := u32_of_lt (by omega)
      have hnext : u32 (off + r.size) = off + r.size := u32_of_lt (by omega)
      have hcount' : rest.length < loopFuel := by
        rw [List.length_cons] at hcount
        omega
      have hfuel' : rest.length < fuel := by simpa using hfuel
      -- the loop behind a record that is not copied
      have hskip : (r.valid = true → ∃ x ∈ rest, x.key = r.key) → ∀ d', V.mem d' = V.mem d →
          Program.Ensures h guard safe (Migrated V L a m0 content dstOff (r :: rest))
            (migrateLoop nvs (L.addr a) (L.addr (1 - a)) L.sectorSize fuel (off + r.size) dstOff)
            d' := by
        intro hdrop d' hm'
        have hrest := ih (d := d') hfuel' hcount' hlog.tail (by omega) (by rw [hm']; exact hm)
          (by rw [hm']; exact hdst) hcontent hdstOff (by omega)
        exact hrest.mono fun res t ht => ht.drop hdrop
      rw [migrateLoop, if_pos hin, haddr]
      refine hD.flashRead (hD.allowed (.read _ _) ⟨a, by omega, by rw [recordHdrSize]; omega⟩) ?_ ?_
      · intro st buf d1 hst hm1 hfailed _
        simp only [ne_eq, hst, not_false_eq_true, if_true]
        refine Program.Ensures.ret ⟨by rw [hm1]; exact hm, fun _ => ⟨[], List.nil_sublist _, rfl,
          by rw [hm1]; simpa using hdst, fun hread => ?_⟩⟩
        rw [hfailed] at hread
        cases hread
      · intro d1 hm1 _
        have hlogm := hlog.congr (hsame (V.mem d) hm)
        simp only [hlogm.head_hdr, r.recTotal_hdr, hnext, r.key_ne, ne_eq, not_true_eq_false,
          if_false]
        by_cases hv : r.valid = true
        · have hstatus : r.hdr.status = fwNvsStatusValid := by simpa [NvsRecord.valid] using hv
          rw [if_pos hstatus]
          refine Program.Ensures.bind (isLatestLoop_ensures hD r.key hcount' hm1
            hlogm.tail (by omega)) fun isLatest d2 hd2 => ?_
          obtain ⟨hm2, hlater⟩ := hd2
          cases isLatest with
          | false =>
              rw [if_neg Bool.false_ne_true]
              exact hskip (fun _ => hlater rfl) d2 hm2
          | true =>
              have hdnext : u32 (dstOff + r.size) = dstOff + r.size := u32_of_lt (by omega)
              have hfitd : ¬ dstOff + r.size > L.sectorSize := by omega
              rw [if_pos rfl, hdnext, if_neg hfitd]
              rw [← hm2] at hm hdst
              refine Program.Ensures.bind (copyRecord_ensures hD hlog hm hdst hcontent hdstOff
                (by omega)) fun st d3 hd3 => ?_
              obtain ⟨hm3, hdst3⟩ := hd3
              by_cases hst : st = .ok
              · -- the record is copied behind what the destination holds
                subst hst
                simp only [not_true_eq_false, if_false]
                have hlen3 : (content ++ r.bytes).length = dstOff + r.size := by
                  rw [List.length_append, hcontent]
                  rfl
                have hrest := ih (d := d3) hfuel' hcount' hlog.tail (by omega) hm3 (hdst3 rfl) hlen3
                  (by omega) (by omega)
                exact hrest.mono fun res t ht => ht.keep hv
              · simp only [hst, not_false_eq_true, if_true]
                exact Program.Ensures.ret ⟨hm3, fun hok => absurd hok hst⟩
        · have hstatus : ¬ r.hdr.status = fwNvsStatusValid := by simpa [NvsRecord.valid] using hv
          rw [if_neg hstatus]
          exact hskip (fun hvalid => absurd hvalid hv) d1 hm1

variable {b : Fin 2} {seq : UInt32} {log : List NvsRecord}

/-- Changes in the other bank leave this one alone. -/
theorem BankLog.congr_other {m m' : Memory} (hb : BankLog L m b seq log)
    (he : ∀ x, ¬ (L.addr (1 - b) ≤ x ∧ x < L.addr (1 - b) + L.sectorSize) → m' x = m x) :
    BankLog L m' b seq log := by
  have hfit := hb.fits
  have hd := L.addr_disjoint b
  exact hb.congr fun x hl hr => he x (by omega)

/-- A bank that holds the image of a log. -/
theorem BankLog.of_holds {m : Memory} (hm : m.Holds (L.addr b) L.sectorSize (bankImage seq log)) :
    BankLog L m b seq log :=
  ActiveBank.bankLog ⟨[], by rwa [List.append_nil], fun hne => absurd rfl hne⟩

/-- A compaction that fails leaves the running bank as it was. One that succeeds moves to the
other bank, with the live records unless it erased the source right after a failed read. -/
theorem nvsCompact_ensures (hD : FlashContract L V h guard safe)
    (hb : BankLog L (V.mem d) b seq log) :
    Program.Ensures h guard safe
      (fun res d' => (res.1 ≠ .ok → res.2 = ram L b seq log ∧ BankLog L (V.mem d') b seq log) ∧
        (res.1 = .ok → ∃ kept, res.2 = ram L (1 - b) (seq + 1) kept ∧ kept.Sublist log ∧
          (V.mem d').Holds (L.addr (1 - b)) L.sectorSize (bankImage (seq + 1) kept) ∧
          (ErasesKnowingly h guard V (L.addr b) →
            KeyedLog.Retains NvsRecord.key NvsRecord.valid log kept)))
      (nvsCompact (ram L b seq log)) d := by
  have hS := L.sectorSize_ge
  have hd := L.addr_disjoint b
  have hhdr : sectorHdrSize = 16 := rfl
  have hlen : (activeHdr (seq + 1)).bytes.length = sectorHdrSize := SectorHdr.bytes_length _
  have hcount := Nat.lt_of_succ_lt hb.length_succ_lt
  rw [nvsCompact]
  simp only [ram_bankAddr, ram_activeBank, ram_sectorSize, ram_sequence]
  refine hD.flashErase (hD.allowed (.eraseSector _) ⟨1 - b, rfl⟩) ?_ ?_
  · intro st d1 hst hm1 _
    simp only [ne_eq, hst, not_false_eq_true, if_true]
    refine Program.Ensures.ret ⟨fun _ => ⟨rfl, ?_⟩, fun hok => absurd hok hst⟩
    rw [hm1]
    exact hb
  intro d1 hm1 _
  have hb1 : BankLog L (V.mem d1) b seq log := hb.congr_other fun x hx => by
    rw [hm1]
    exact Memory.erase_of_outside (by omega)
  simp only [ne_eq, not_true_eq_false, if_false]
  refine hD.flashWrite (hD.allowed (.write _ _) ⟨1 - b, Or.inr ⟨rfl, hlen⟩, ?_⟩) ?_ ?_
  · rw [hlen]
    omega
  · intro st d2 hst _ hout _
    simp only [hst, not_false_eq_true, if_true]
    refine Program.Ensures.ret ⟨fun _ => ⟨rfl, hb1.congr_other fun x hx => ?_⟩,
      fun hok => absurd hok hst⟩
    refine hout x ?_
    change ¬ (L.addr (1 - b) ≤ x ∧ x < L.addr (1 - b) + 16)
    omega
  intro d2 _ _ hm2
  have hb2 : BankLog L (V.mem d2) b seq log := hb1.congr_other fun x hx => by
    rw [hm2]
    refine Memory.program_of_outside ?_
    change x < L.addr (1 - b) ∨ L.addr (1 - b) + 16 ≤ x
    omega
  have hdst2 : (V.mem d2).Holds (L.addr (1 - b)) L.sectorSize (activeHdr (seq + 1)).bytes := by
    have hempty := Memory.Holds.erase (V.mem d) (L.addr (1 - b)) L.sectorSize
    have hroom : ([] : List UInt8).length + (activeHdr (seq + 1)).bytes.length ≤ L.sectorSize := by
      rw [hlen, List.length_nil]
      omega
    have hprogrammed := hempty.program_append (Nat.add_zero _).symm hroom
    rw [List.nil_append] at hprogrammed
    rw [hm2, hm1]
    exact hprogrammed
  obtain ⟨slack, hlog⟩ := hb2.logAt
  have hmig := migrateLoop_ensures hD hcount hcount hlog (ram_writeOffset L b seq log)
    (fun _ _ => rfl) hdst2 hlen (Nat.le_refl _) hb2.fits
  simp only [not_true_eq_false, if_false]
  refine Program.Ensures.bind hmig fun res d3 hd3 => ?_
  obtain ⟨hout3, hdone⟩ := hd3
  have hb3 : BankLog L (V.mem d3) b seq log := hb2.congr_other fun x hx => hout3 x (by omega)
  obtain ⟨st, dstOffset⟩ := res
  by_cases hst : st = .ok
  · subst hst
    obtain ⟨kept, hsub, hoff, hholds, hkeeps⟩ := hdone rfl
    obtain rfl : dstOffset = sectorHdrSize + logSize kept := hoff
    simp only [not_true_eq_false, if_false]
    refine hD.flashErase (hD.allowed (.eraseSector _) ⟨b, rfl⟩) ?_ ?_
    · intro st d4 hst hm4 _
      simp only [hst, not_false_eq_true, if_true]
      refine Program.Ensures.ret ⟨fun _ => ⟨rfl, ?_⟩, fun hok => absurd hok hst⟩
      rw [hm4]
      exact hb3
    · intro d4 hm4 hknow
      simp only [not_true_eq_false, if_false]
      refine Program.Ensures.ret ⟨fun hne => absurd rfl hne, fun _ => ⟨kept, ?_, hsub, ?_, ?_⟩⟩
      · rfl
      · rw [hm4]
        exact hholds.erase_disjoint hd
      · exact fun hk => (hkeeps (hknow hk)).retains
  · simp only [hst, not_false_eq_true, if_true]
    exact Program.Ensures.ret ⟨fun _ => ⟨rfl, hb3⟩, fun hok => absurd hok hst⟩

end Compact

section Append

variable {σ : Type} {L : BankLayout} {V : FlashView σ} {h : Handler FlashCall FlashCall.Reply σ}
  {guard : FlashCall → σ → Prop} {safe : FlashCall → Prop} {d : σ} {b : Fin 2} {seq : UInt32}
  {log : List NvsRecord} {key : UInt16} {data : List UInt8}

/-- The payload is programmed, and the padding behind it, on cells that accept them. -/
theorem writePayload_ensures (hD : FlashContract L V h guard safe) {a : Nat}
    (hlen : data.length < 2 ^ 16) (ha : L.addr b + sectorHdrSize ≤ a)
    (hfit : a + 8 + alignUp4 data.length ≤ L.addr b + L.sectorSize) :
    Program.Ensures h guard safe
      (fun st d' =>
        (∀ x, ¬ (a + 8 ≤ x ∧ x < a + 8 + alignUp4 data.length) → V.mem d' x = V.mem d x) ∧
        (st = .ok → (V.mem d).Accepts (a + 8) (bodyChunks data).flatten ∧
          (V.mem d').bytesAt (a + 8) data.length = data))
      (writePayload a data data.length (alignUp4 data.length)) d := by
  have hpad := padLength_eq hlen
  have hle := L.addr_le b
  rw [writePayload, bodyChunks]
  by_cases h0 : data.length > 0
  · have ha0 : u32 (a + recordHdrSize) = a + 8 := u32_of_lt (by rw [recordHdrSize]; omega)
    rw [if_pos h0, if_pos h0, List.take_length, ha0]
    refine hD.flashWrite (hD.allowed (.write _ _) ⟨b, Or.inl (by omega), by omega⟩) ?_ ?_
    · intro st d1 hst _ hout _
      simp only [ne_eq, hst, not_false_eq_true, if_true]
      exact Program.Ensures.ret ⟨fun x hx => hout x (by omega), fun hok => absurd hok hst⟩
    · intro d1 _ haccepts hm1
      have hdata1 : (V.mem d1).bytesAt (a + 8) data.length = data := by
        rw [hm1, haccepts.bytesAt_program]
      have hout1 : ∀ x, ¬ (a + 8 ≤ x ∧ x < a + 8 + alignUp4 data.length) →
          V.mem d1 x = V.mem d x := fun x hx => by
        rw [hm1, Memory.program_of_outside (by omega)]
      simp only [ne_eq, not_true_eq_false, if_false]
      by_cases h1 : alignUp4 data.length > data.length
      · have ha1 : u32 (a + recordHdrSize + data.length) = a + 8 + data.length :=
          u32_of_lt (by rw [recordHdrSize]; omega)
        have hpadlen : (List.replicate (padLength data) (0xFF : UInt8)).length = padLength data :=
          List.length_replicate
        rw [if_pos h1, if_pos h1, ha1]
        change Program.Ensures h guard safe _
          (flashWrite _ (List.replicate (padLength data) 0xFF) >>= Program.ret) d1
        refine hD.flashWrite (hD.allowed (.write _ _) ⟨b, Or.inl (by omega), by omega⟩) ?_ ?_
        · intro st d2 hst _ hout _
          refine Program.Ensures.ret ⟨fun x hx => ?_, fun hok => absurd hok hst⟩
          rw [hout x (by omega), hout1 x hx]
        · intro d2 _ haccepts2 hm2
          refine Program.Ensures.ret ⟨fun x hx => ?_, fun _ => ⟨?_, ?_⟩⟩
          · rw [hm2, Memory.program_of_outside (by omega), hout1 x hx]
          · -- the padding lies behind the payload
            rw [hm1] at haccepts2
            have hbehind : (V.mem d).Accepts (a + 8 + data.length)
                (List.replicate (padLength data) 0xFF) :=
              haccepts2.congr fun x hl _ => (Memory.program_of_outside (Or.inr hl)).symm
            rw [List.flatten_cons, List.flatten_singleton]
            exact Memory.accepts_append.mpr ⟨haccepts, hbehind⟩
          · rw [← hdata1]
            rw [Memory.bytesAt_length, hm2]
            exact Memory.bytesAt_congr fun x hl hr => Memory.program_of_outside (by omega)
      · rw [if_neg h1, if_neg h1]
        refine Program.Ensures.ret ⟨hout1, fun _ => ⟨?_, hdata1⟩⟩
        rw [List.flatten_singleton]
        exact haccepts
  · have hnil : data = [] := by simpa using h0
    subst hnil
    rw [if_neg h0, if_neg h0]
    exact Program.Ensures.ret ⟨fun _ _ => rfl, fun _ => ⟨Memory.accepts_nil, rfl⟩⟩

/-- A memory with the header of a value and the value behind it has a record, whatever the cells of
the padding are. -/
theorem exists_record {m : Memory} {a : Nat} (hkey : key ≠ fwNvsKeyEmpty)
    (hlen : data.length < 2 ^ 16) (hhdr : m.bytesAt a 8 = (valueHdr key data).bytes)
    (hdata : m.bytesAt (a + 8) data.length = data) :
    ∃ r : NvsRecord, r.hdr = valueHdr key data ∧ r.payload = data ∧
      r.size = 8 + alignUp4 data.length ∧ m.bytesAt a r.size = r.bytes := by
  have hlenr : (valueHdr key data).length.toNat = data.length := valueHdr_length hlen
  let r : NvsRecord :=
    { hdr := valueHdr key data
      body := m.bytesAt (a + 8) (alignUp4 data.length)
      body_length := by rw [Memory.bytesAt_length, hlenr]
      key_ne := hkey }
  have hsize : r.size = 8 + alignUp4 data.length := by
    rw [NvsRecord.size, NvsRecord.bytes, List.length_append, RecordHdr.bytes_length,
      Memory.bytesAt_length]
  refine ⟨r, rfl, ?_, hsize, ?_⟩
  · have hle := padLength_eq hlen
    change (m.bytesAt _ _).take (valueHdr key data).length.toNat = data
    rw [hlenr, Memory.bytesAt_take, Nat.min_eq_left (by omega)]
    exact hdata
  · rw [hsize, Memory.bytesAt_append, hhdr]
    rfl

/-- An append that fails leaves the log as it was, one that succeeds adds a record with
the key and the value, on cells that accepted it. -/
theorem appendRecord_ensures (hD : FlashContract L V h guard safe)
    (hb : BankLog L (V.mem d) b seq log) (hkey : key ≠ fwNvsKeyEmpty) (hlen : data.length < 2 ^ 16)
    (hroom : sectorHdrSize + logSize log + (8 + alignUp4 data.length) ≤ L.sectorSize) :
    Program.Ensures h guard safe
      (fun res d' =>
        (res.1 ≠ .ok → res.2 = ram L b seq log ∧ BankLog L (V.mem d') b seq log) ∧
        (res.1 = .ok →
          (V.mem d).Accepts (L.addr b + (sectorHdrSize + logSize log))
            (valueChunks key data).flatten ∧
          ∃ r : NvsRecord, r.hdr = valueHdr key data ∧ r.payload = data ∧
            res.2 = ram L b seq (log ++ [r]) ∧ BankLog L (V.mem d') b seq (log ++ [r])))
      (appendRecord (ram L b seq log) key data) d := by
  have hhdrlen : (valueHdr key data).bytes.length = 8 := RecordHdr.bytes_length _
  -- cells behind the log do not count
  have hframe : ∀ m', (∀ x, ¬ (L.addr b + (sectorHdrSize + logSize log) ≤ x ∧
      x < L.addr b + (sectorHdrSize + logSize log) + (8 + alignUp4 data.length)) →
      m' x = V.mem d x) → BankLog L m' b seq log := fun m' hm' =>
    hb.congr fun x hl hr => hm' x (by omega)
  rw [appendRecord_eq hlen hroom]
  refine hD.flashWrite (hD.allowed (.write _ _) ⟨b, Or.inl (by omega), ?_⟩) ?_ ?_
  · change L.addr b + (sectorHdrSize + logSize log) + 8 ≤ L.addr b + L.sectorSize
    omega
  · intro st d1 hst _ hout _
    simp only [ne_eq, hst, not_false_eq_true, if_true]
    refine Program.Ensures.ret ⟨fun _ => ⟨rfl, hframe _ fun x hx => hout x ?_⟩,
      fun hok => absurd hok hst⟩
    change ¬ (L.addr b + (sectorHdrSize + logSize log) ≤ x ∧
      x < L.addr b + (sectorHdrSize + logSize log) + 8)
    omega
  intro d1 _ haccepts hm1
  have hout1 : ∀ x, ¬ (L.addr b + (sectorHdrSize + logSize log) ≤ x ∧
      x < L.addr b + (sectorHdrSize + logSize log) + 8) → V.mem d1 x = V.mem d x := fun x hx => by
    rw [hm1]
    refine Memory.program_of_outside ?_
    change x < L.addr b + (sectorHdrSize + logSize log) ∨
      L.addr b + (sectorHdrSize + logSize log) + 8 ≤ x
    omega
  have hhdr1 : (V.mem d1).bytesAt (L.addr b + (sectorHdrSize + logSize log)) 8 =
      (valueHdr key data).bytes := by
    rw [hm1]
    exact haccepts.bytesAt_program
  simp only [ne_eq, not_true_eq_false, if_false]
  have hbody := writePayload_ensures (d := d1) hD hlen
    (by omega : L.addr b + sectorHdrSize ≤ L.addr b + (sectorHdrSize + logSize log)) (by omega)
  refine Program.Ensures.bind hbody fun st d2 hd2 => ?_
  obtain ⟨hout2, hdata2⟩ := hd2
  have hout : ∀ x, ¬ (L.addr b + (sectorHdrSize + logSize log) ≤ x ∧
      x < L.addr b + (sectorHdrSize + logSize log) + (8 + alignUp4 data.length)) →
      V.mem d2 x = V.mem d x := fun x hx => by
    rw [hout2 x (by omega), hout1 x (by omega)]
  by_cases hst : st = .ok
  · subst hst
    obtain ⟨hbehind, hdata2⟩ := hdata2 rfl
    simp only [not_true_eq_false, if_false]
    -- the payload lies behind the header
    have hall : (V.mem d).Accepts (L.addr b + (sectorHdrSize + logSize log))
        (valueChunks key data).flatten := by
      rw [hm1] at hbehind
      have hbody' : (V.mem d).Accepts (L.addr b + (sectorHdrSize + logSize log) + 8)
          (bodyChunks data).flatten :=
        hbehind.congr fun x hl _ => (Memory.program_of_outside (Or.inr hl)).symm
      rw [valueChunks, List.flatten_cons]
      exact Memory.accepts_append.mpr ⟨haccepts, by rw [hhdrlen]; exact hbody'⟩
    have hhdr2 : (V.mem d2).bytesAt (L.addr b + (sectorHdrSize + logSize log)) 8 =
        (valueHdr key data).bytes := by
      rw [← hhdr1]
      exact Memory.bytesAt_congr fun x hl hr => hout2 x (by omega)
    obtain ⟨r, hr, hpay, hsize, hbytes⟩ := exists_record hkey hlen hhdr2 hdata2
    refine Program.Ensures.ret ⟨fun hne => absurd rfl hne, fun _ =>
      ⟨hall, r, hr, hpay, ?_, ?_⟩⟩
    · simp only [ram, logSize_append, logSize_cons, logSize_nil, hsize, Nat.add_zero,
        Nat.add_assoc]
    · exact (hframe _ hout).append (by rw [hsize]; exact hroom) hbytes
  · simp only [hst, not_false_eq_true, if_true]
    exact Program.Ensures.ret ⟨fun _ => ⟨rfl, hframe _ hout⟩, fun hok => absurd hok hst⟩

end Append

end ZeroEmbedded.Nvs
