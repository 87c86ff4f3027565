import ZeroEmbedded.Foundation.Formatted
import ZeroEmbedded.Foundation.Slices
import ZeroEmbedded.Diag.LogLine
import ZeroEmbedded.Hal.CrashDump

/-!
# The report of a crash dump

`fw_crash_dump_format_report`. The causes of the fault are printed one behind
the other into `fault_cause`, and the report is printed into the buffer of the
caller.

## Implementation notes

A buffer is the list of its cells. A print past the end would make it longer.
-/

namespace ZeroEmbedded.CrashDump

open Foundation Foundation.Formatted Foundation.Slices

/-- `FW_CFSR_DIVBYZERO`. -/
def fwCfsrDivbyzero : BitVec 32 := 1#32 <<< 25

/-- `FW_CFSR_UNALIGN_TRP`. -/
def fwCfsrUnalignTrp : BitVec 32 := 1#32 <<< 24

/-- `FW_CFSR_UNDEFINSTR`. -/
def fwCfsrUndefinstr : BitVec 32 := 1#32 <<< 16

/-- `FW_CFSR_BFARVALID`. -/
def fwCfsrBfarvalid : BitVec 32 := 1#32 <<< 15

/-- `FW_CFSR_PRECISERR`. -/
def fwCfsrPreciserr : BitVec 32 := 1#32 <<< 9

/-- `FW_CFSR_MMARVALID`. -/
def fwCfsrMmarvalid : BitVec 32 := 1#32 <<< 7

/-- `FW_CFSR_IACCVIOL`. -/
def fwCfsrIaccviol : BitVec 32 := 1#32 <<< 1

/-- `FW_CFSR_DACCVIOL`. -/
def fwCfsrDaccviol : BitVec 32 := 1#32 <<< 0

/-- `dump->cfsr & mask` as a condition. -/
def FwCrashDump.flag (dump : FwCrashDump) (mask : BitVec 32) : Bool := dump.cfsr &&& mask != 0

def nul : Char := Char.ofNat 0

/-- `snprintf` to a place in a buffer: the cells after it, and its result. -/
def printAt (cells : List Char) (offset size : Nat) (text : List Char) : List Char × Int :=
  let (stored, written) := Log.snprintf size text
  (if size = 0 then cells else splice cells offset (stored ++ [nul]), written)

/-- `fault_cause` and `cause_len`. -/
structure FaultCause where
  faultCause : List Char
  causeLen : Nat

variable (T : Target)

/-- `cause_len += snprintf(fault_cause + cause_len, sizeof(fault_cause) - cause_len, ...)`. -/
def FaultCause.print (c : FaultCause) (text : List Char) : FaultCause :=
  let (cells, written) := printAt c.faultCause c.causeLen (T.sizeSub 256 c.causeLen) text
  ⟨cells, ((c.causeLen + written) % T.sizeMod).toNat⟩

/-- The tests of `cfsr` in their order, with what is printed when the flag is set. -/
def causeTests (dump : FwCrashDump) : List (Bool × List Piece) :=
  [(dump.flag fwCfsrDivbyzero, [.lit " [UsageFault: Divide-by-Zero]"]),
    (dump.flag fwCfsrUnalignTrp, [.lit " [UsageFault: Unaligned Access]"]),
    (dump.flag fwCfsrUndefinstr, [.lit " [UsageFault: Undefined Instruction]"]),
    (dump.flag fwCfsrPreciserr,
      if dump.flag fwCfsrBfarvalid then
        [.lit " [BusFault: Precise Data Access Error at 0x", .hex 8 dump.bfar.toNat, .lit "]"]
      else [.lit " [BusFault: Precise Data Access Error]"]),
    (dump.flag fwCfsrDaccviol,
      if dump.flag fwCfsrMmarvalid then
        [.lit " [MemManage: Data Access Violation at 0x", .hex 8 dump.mmar.toNat, .lit "]"]
      else [.lit " [MemManage: Data Access Violation]"]),
    (dump.flag fwCfsrIaccviol, [.lit " [MemManage: Instruction Access Violation]"])]

/-- What is printed when no test succeeds. -/
def unknownCause (dump : FwCrashDump) : List Piece :=
  [.lit " [Forced HardFault / Unknown (CFSR: 0x", .hex 8 dump.cfsr.toNat, .lit ")]"]

/-- One test after the other. -/
def FaultCause.printTests (c : FaultCause) (tests : List (Bool × List Piece)) : FaultCause :=
  tests.foldl (fun c test => if test.1 then c.print T (render test.2) else c) c

/-- The cells of `fault_cause` after all the tests. -/
def faultCauseOf (dump : FwCrashDump) : List Char :=
  let c := FaultCause.printTests T ⟨List.replicate 256 nul, 0⟩ (causeTests dump)
  if c.causeLen = 0 then (printAt c.faultCause 0 256 (render (unknownCause dump))).1
  else c.faultCause

/-- The format of the report with its arguments. -/
def report (faultCause : List Char) (dump : FwCrashDump) : List Piece :=
  [.lit "=== HARDFAULT CRASH DUMP ===\n  * Fault Root Cause: ", .str faultCause,
    .lit "\n  * Program Counter : 0x", .hex 8 dump.pc.toNat,
    .lit " (PC)\n  * Link Register   : 0x", .hex 8 dump.lr.toNat,
    .lit " (LR)\n  * Stack Pointer   : 0x", .hex 8 dump.sp.toNat,
    .lit " (SP)\n  * Status (xPSR)   : 0x", .hex 8 dump.xpsr.toNat,
    .lit "\n  * Registers R0..R3: [0x", .hex 8 dump.r0.toNat, .lit ", 0x", .hex 8 dump.r1.toNat,
    .lit ", 0x", .hex 8 dump.r2.toNat, .lit ", 0x", .hex 8 dump.r3.toNat,
    .lit "]\n  * Register R12    : 0x", .hex 8 dump.r12.toNat,
    .lit "\n  * HFSR / CFSR     : HFSR=0x", .hex 8 dump.hfsr.toNat,
    .lit ", CFSR=0x", .hex 8 dump.cfsr.toNat,
    .lit "\n  * Uptime at Crash : ", .dec dump.timestampMs.toNat,
    .lit " ms\n============================"]

/-- `fw_crash_dump_format_report`, with the cells of `out_str` after it. -/
def fwCrashDumpFormatReport (dump : Option FwCrashDump) (outStr : Option (List Char))
    (maxLen : Nat) : Nat × Option (List Char) :=
  match dump, outStr with
  | some dump, some out =>
      if maxLen = 0 then (0, some out)
      else
        let text := render (report (Log.cString (faultCauseOf T dump)) dump)
        let (cells, written) := printAt out 0 maxLen text
        (if written > 0 ∧ T.size written.toNat < maxLen then T.size written.toNat
          else T.sizeSub maxLen 1, some cells)
  | _, _ => (0, outStr)

/-- The causes that the fault status names, or that it names none. -/
def causeText (dump : FwCrashDump) : List Char :=
  let causes := (causeTests dump).flatMap fun test => if test.1 then render test.2 else []
  if causes = [] then render (unknownCause dump) else causes

/-- The whole report. -/
def reportText (dump : FwCrashDump) : List Char := render (report (causeText dump) dump)

/-- The address of a precise bus fault. -/
def busAddress (dump : FwCrashDump) : Option (BitVec 32) :=
  if dump.flag fwCfsrPreciserr ∧ dump.flag fwCfsrBfarvalid then some dump.bfar else none

/-- The address of a data access violation. -/
def memAddress (dump : FwCrashDump) : Option (BitVec 32) :=
  if dump.flag fwCfsrDaccviol ∧ dump.flag fwCfsrMmarvalid then some dump.mmar else none

/-- The registers that a report shows, and the addresses that the fault status vouches for. -/
def shown (dump : FwCrashDump) : List (BitVec 32) × Option (BitVec 32) × Option (BitVec 32) :=
  ([dump.pc, dump.lr, dump.sp, dump.xpsr, dump.r0, dump.r1, dump.r2, dump.r3, dump.r12,
    dump.hfsr, dump.cfsr, dump.timestampMs], busAddress dump, memAddress dump)

section Print

variable {T} {cells text texts : List Char} {offset size : Nat} {c : FaultCause}

/-- A short print into a buffer. -/
theorem printAt_of_lt (cells : List Char) (offset : Nat) (hsize : text.length < size)
    (hint : text.length < 2 ^ 31) :
    printAt cells offset size text =
      (splice cells offset (text ++ [nul]), (text.length : Int)) := by
  rw [printAt, Log.snprintf_of_lt hint, List.take_of_length_le (by omega)]
  dsimp only
  rw [if_neg (by omega)]

/-- The print behind a text in a cleared buffer. -/
theorem splice_cleared (text texts : List Char) {n : Nat} (h : text.length < n) :
    splice (texts ++ List.replicate n nul) texts.length (text ++ [nul]) =
      (texts ++ text) ++ List.replicate (n - text.length) nul := by
  have hcells : List.replicate (n - text.length) nul =
      nul :: List.replicate (n - (text.length + 1)) nul := by
    rw [← List.replicate_succ]
    congr 1
    omega
  rw [splice, List.take_left, List.drop_append, List.drop_eq_nil_of_le (by omega), List.nil_append,
    List.drop_replicate, List.length_append, List.length_singleton, Nat.add_sub_cancel_left, hcells]
  simp only [List.append_assoc, List.singleton_append]

/-- The buffer holds a text, and it is cleared behind it. -/
structure FaultCause.Holds (c : FaultCause) (texts : List Char) : Prop where
  cells : c.faultCause = texts ++ List.replicate (256 - texts.length) nul
  len : c.causeLen = texts.length

theorem FaultCause.Holds.print (h : c.Holds texts) (hfits : texts.length + text.length ≤ 255) :
    (c.print T text).Holds (texts ++ text) := by
  have hmod := T.sizeMod_ge
  have hsize : T.sizeSub 256 c.causeLen = 256 - texts.length := by
    rw [h.len]
    exact T.sizeSub_of_le (by omega) (by omega)
  rw [FaultCause.print, hsize, printAt_of_lt _ _ (by omega) (by omega), h.cells, h.len,
    splice_cleared text texts (by omega)]
  refine ⟨?_, ?_⟩
  · rw [List.length_append, Nat.sub_sub]
  · dsimp only
    rw [List.length_append, ← Nat.cast_add, ← Int.natCast_emod, Int.toNat_natCast,
      Nat.mod_eq_of_lt (by omega)]

/-- The tests print their texts behind each other, as long as there is room for all of them. -/
theorem FaultCause.Holds.printTests (h : c.Holds texts) (tests : List (Bool × List Piece))
    (hfits : texts.length + (tests.map fun test => (render test.2).length).sum ≤ 255) :
    (c.printTests T tests).Holds
      (texts ++ tests.flatMap fun test => if test.1 then render test.2 else []) := by
  rw [FaultCause.printTests]
  induction tests generalizing c texts with
  | nil =>
      rw [List.flatMap_nil, List.append_nil]
      exact h
  | cons test rest ih =>
      rw [List.map_cons, List.sum_cons] at hfits
      rw [List.foldl_cons, List.flatMap_cons, ← List.append_assoc]
      split
      · refine ih (h.print (by omega)) ?_
        rw [List.length_append]
        omega
      · rw [List.append_nil]
        exact ih h (by omega)

end Print

section Texts

variable {dump dump' : FwCrashDump} {marks : List Char} {ps : List Piece} {text : String}

/-- None of the marks is in the text. -/
def Avoids (marks text : List Char) : Prop := ∀ mark ∈ marks, mark ∉ text

instance instDecidableAvoids (marks text : List Char) : Decidable (Avoids marks text) :=
  List.decidableBAll (fun mark => mark ∉ text) marks

theorem avoids_render (h : ∀ p ∈ ps, Avoids marks p.text) : Avoids marks (render ps) := by
  intro mark hmark hin
  obtain ⟨p, hp, hin⟩ := List.mem_flatMap.mp hin
  exact h p hp mark hmark hin

theorem avoids_hex (hmarks : Avoids marks "0123456789ABCDEF".toList) (width n : Nat) :
    Avoids marks (Piece.hex width n).text :=
  fun mark hmark hin => hmarks mark hmark (mem_hexText hin)

theorem avoids_lit (h : Avoids marks text.toList) : Avoids marks (render [.lit text]) := by
  rw [render_cons]
  exact (List.append_nil text.toList).symm ▸ h

/-- What a test prints at an address. -/
theorem avoids_address {before after : String} (n : Nat) (hbefore : Avoids marks before.toList)
    (hhex : Avoids marks "0123456789ABCDEF".toList) (hafter : Avoids marks after.toList) :
    Avoids marks (render [.lit before, .hex 8 n, .lit after]) := by
  refine avoids_render ?_
  simp only [List.forall_mem_cons]
  exact ⟨hbefore, avoids_hex hhex 8 n, hafter, fun p hp => absurd hp List.not_mem_nil⟩

/-- The ends of a text and of a line. -/
def lineMarks : List Char := [nul, '\n']

theorem avoids_tests (dump : FwCrashDump) :
    ∀ test ∈ causeTests dump, Avoids lineMarks (render test.2) := by
  simp only [causeTests, List.forall_mem_cons]
  refine ⟨avoids_lit (by decide), avoids_lit (by decide),
    avoids_lit (by decide), ?_, ?_, avoids_lit (by decide),
    fun test htest => absurd htest List.not_mem_nil⟩
  · split
    · exact avoids_address _ (by decide) (by decide) (by decide)
    · exact avoids_lit (by decide)
  · split
    · exact avoids_address _ (by decide) (by decide) (by decide)
    · exact avoids_lit (by decide)

/-- The causes stand on one line. -/
theorem avoids_causeText (dump : FwCrashDump) : Avoids lineMarks (causeText dump) := by
  rw [causeText]
  split
  · exact avoids_address _ (by decide) (by decide) (by decide)
  · intro mark hmark hin
    obtain ⟨test, htest, hin⟩ := List.mem_flatMap.mp hin
    split at hin
    · exact avoids_tests dump test htest mark hmark hin
    · exact absurd hin List.not_mem_nil

/-- All causes together fit into `fault_cause`. -/
theorem causeTests_length (dump : FwCrashDump) :
    ((causeTests dump).map fun test => (render test.2).length).sum ≤ 239 := by
  have hbus : (render (if dump.flag fwCfsrBfarvalid = true then
      [.lit " [BusFault: Precise Data Access Error at 0x", .hex 8 dump.bfar.toNat, .lit "]"]
      else [.lit " [BusFault: Precise Data Access Error]"])).length ≤ 52 := by
    rw [render_length]
    split
    · exact Nat.le_of_eq rfl
    · exact Nat.le_of_ble_eq_true rfl
  have hmem : (render (if dump.flag fwCfsrMmarvalid = true then
      [.lit " [MemManage: Data Access Violation at 0x", .hex 8 dump.mmar.toNat, .lit "]"]
      else [.lit " [MemManage: Data Access Violation]"])).length ≤ 49 := by
    rw [render_length]
    split
    · exact Nat.le_of_eq rfl
    · exact Nat.le_of_ble_eq_true rfl
  have h1 : (render [.lit " [UsageFault: Divide-by-Zero]"]).length = 29 := rfl
  have h2 : (render [.lit " [UsageFault: Unaligned Access]"]).length = 31 := rfl
  have h3 : (render [.lit " [UsageFault: Undefined Instruction]"]).length = 36 := rfl
  have h4 : (render [.lit " [MemManage: Instruction Access Violation]"]).length = 42 := rfl
  simp only [causeTests, List.map_cons, List.map_nil, List.sum_cons, List.sum_nil]
  rw [h1, h2, h3, h4]
  omega

/-- The cells of `fault_cause` hold the causes, and the print stays in the buffer. -/
theorem faultCauseOf_eq (T : Target) (dump : FwCrashDump) :
    faultCauseOf T dump =
        causeText dump ++ List.replicate (256 - (causeText dump).length) nul ∧
      (causeText dump).length ≤ 255 := by
  have hlength := causeTests_length dump
  have hstart : FaultCause.Holds ⟨List.replicate 256 nul, 0⟩ [] := ⟨rfl, rfl⟩
  have hholds := hstart.printTests (T := T) (causeTests dump) (by rw [List.length_nil]; omega)
  have hunknown : (render (unknownCause dump)).length = 48 := render_length _
  have hcauses : ((causeTests dump).flatMap fun test =>
      if test.1 then render test.2 else []).length ≤ 239 := by
    rw [List.length_flatMap]
    refine Nat.le_trans (List.sum_le_sum fun test _ => ?_) hlength
    split
    · exact Nat.le_refl _
    · exact Nat.zero_le _
  rw [List.nil_append] at hholds
  rw [faultCauseOf, causeText, hholds.len, hholds.cells]
  simp only [List.length_eq_zero_iff]
  split
  · next hnone =>
      rw [hnone, printAt_of_lt _ _ (by omega) (by omega)]
      refine ⟨splice_cleared (render (unknownCause dump)) [] ?_, by omega⟩
      rw [List.length_nil]
      omega
  · exact ⟨rfl, by omega⟩

theorem cString_mark {text rest : List Char} (h : nul ∉ text) :
    Log.cString (text ++ nul :: rest) = text := by
  have hall : ∀ c ∈ text, decide (c ≠ nul) = true := by
    intro c hc
    exact decide_eq_true fun heq => h (heq ▸ hc)
  change (text ++ nul :: rest).takeWhile (fun c => decide (c ≠ nul)) = text
  rw [List.takeWhile_append_of_pos hall, List.takeWhile_cons_of_neg (by simp), List.append_nil]

theorem cString_faultCauseOf (T : Target) (dump : FwCrashDump) :
    Log.cString (faultCauseOf T dump) = causeText dump := by
  obtain ⟨hcells, hlength⟩ := faultCauseOf_eq T dump
  obtain ⟨n, hn⟩ := Nat.exists_eq_add_of_lt (Nat.lt_succ_of_le hlength)
  have hleft : 256 - (causeText dump).length = n + 1 := by omega
  rw [hcells, hleft, List.replicate_succ]
  exact cString_mark (avoids_causeText dump nul (by decide))

theorem report_sizes (cause : List Char) (dump : FwCrashDump) :
    (report cause dump).map Piece.size =
      [51, cause.length, 25, 8, 30, 8, 30, 8, 30, 8, 26, 8, 4, 8, 4, 8, 4, 8, 26, 8, 30, 8, 9, 8,
        23, (Nat.toDigits 10 dump.timestampMs.toNat).length, 32] := rfl

/-- The characters of a report. -/
theorem reportText_length (dump : FwCrashDump) :
    (reportText dump).length = (causeText dump).length +
      ((Nat.toDigits 10 dump.timestampMs.toNat).length + 412) := by
  rw [reportText, render_length, report_sizes]
  generalize (causeText dump).length = causes
  generalize (Nat.toDigits 10 dump.timestampMs.toNat).length = digits
  simp only [List.sum_cons, List.sum_nil]
  omega

theorem reportText_bounds (dump : FwCrashDump) :
    0 < (reportText dump).length ∧ (reportText dump).length ≤ 677 := by
  have hcause := (faultCauseOf_eq target32 dump).2
  have huptime : (Nat.toDigits 10 dump.timestampMs.toNat).length ≤ 10 := by
    refine (Nat.length_toDigits_le_iff (by decide) (by decide)).mpr ?_
    have hlt := dump.timestampMs.isLt
    omega
  rw [reportText_length]
  generalize (causeText dump).length = causes at hcause
  generalize (Nat.toDigits 10 dump.timestampMs.toNat).length = digits at huptime
  omega

/-- The characters that are stored, and the count that is returned. -/
theorem fwCrashDumpFormatReport_eq (T : Target) (dump : FwCrashDump) (out : List Char)
    {maxLen : Nat} (hpos : 0 < maxLen) (hsize : maxLen < T.sizeMod) :
    fwCrashDumpFormatReport T (some dump) (some out) maxLen =
      (min (reportText dump).length (maxLen - 1),
        some (splice out 0 ((reportText dump).take (maxLen - 1) ++ [nul]))) := by
  obtain ⟨hlength, hbound⟩ := reportText_bounds dump
  have hsmall : T.size (reportText dump).length = (reportText dump).length :=
    T.size_of_lt (by omega)
  have hprint : printAt out 0 maxLen (reportText dump) =
      (splice out 0 ((reportText dump).take (maxLen - 1) ++ [nul]),
        ((reportText dump).length : Int)) := by
    rw [printAt, Log.snprintf_of_lt (by omega)]
    dsimp only
    rw [if_neg (Nat.ne_of_gt hpos)]
  rw [fwCrashDumpFormatReport]
  dsimp only
  rw [if_neg (Nat.ne_of_gt hpos), cString_faultCauseOf, ← reportText, hprint]
  dsimp only
  rw [Int.toNat_natCast, hsmall, T.sizeSub_of_le hpos hsize]
  by_cases hfits : (reportText dump).length < maxLen
  · rw [if_pos ⟨Int.natCast_pos.mpr hlength, hfits⟩, Nat.min_eq_left (by omega)]
  · rw [if_neg fun h => hfits h.2, Nat.min_eq_right (by omega)]

/-- The registers of a report and its causes are read off its text. -/
theorem report_inj {cause cause' : List Char} (hcause : '\n' ∉ cause) (hcause' : '\n' ∉ cause') :
    render (report cause dump) = render (report cause' dump') ↔
      cause = cause' ∧ (shown dump).1 = (shown dump').1 := by
  have hhex : ∀ (x y : BitVec 32) (ps qs : List Piece),
      render (.hex 8 x.toNat :: ps) = render (.hex 8 y.toNat :: qs) ↔
        x = y ∧ render ps = render qs := by
    intro x y ps qs
    rw [render_hex_inj x.isLt y.isLt, BitVec.toNat_inj]
  have huptime : ∀ x y : BitVec 32,
      render [.dec x.toNat, .lit " ms\n============================"] =
        render [.dec y.toNat, .lit " ms\n============================"] ↔ x = y := by
    intro x y
    rw [render_dec_inj rfl rfl, BitVec.toNat_inj, and_iff_left rfl]
  rw [report, report, render_lit_inj, render_marked_inj rfl hcause hcause']
  simp only [hhex, render_lit_inj, huptime, shown, List.cons.injEq, and_true]
  rfl

theorem address_inj {before after : String} {x y : BitVec 32} :
    render [.lit before, .hex 8 x.toNat, .lit after] =
      render [.lit before, .hex 8 y.toNat, .lit after] ↔ x = y := by
  rw [render_lit_inj, render_hex_inj x.isLt y.isLt, BitVec.toNat_inj, and_iff_left rfl]

/-- An address is in the text of its test exactly when the status vouches for it. -/
theorem named_address_inj {named valid : Bool} {before after other : String} {x y : BitVec 32} :
    (named = true →
      render (if valid = true then [.lit before, .hex 8 x.toNat, .lit after] else [.lit other]) =
        render (if valid = true then [.lit before, .hex 8 y.toNat, .lit after]
          else [.lit other])) ↔
      (if named = true ∧ valid = true then some x else none) =
        if named = true ∧ valid = true then some y else none := by
  cases named with
  | false => simp
  | true =>
      cases valid with
      | false => simp
      | true => simp [address_inj]

/-- Tests with the same flags and texts of the same lengths. -/
def SameShape (tests tests' : List (Bool × List Piece)) : Prop :=
  List.Forall₂ (fun test test' =>
    test.1 = test'.1 ∧ (render test.2).length = (render test'.2).length) tests tests'

/-- The texts of such tests are read off their concatenation. -/
theorem SameShape.flatMap_inj {tests tests' : List (Bool × List Piece)}
    (h : SameShape tests tests') :
    (tests.flatMap fun test => if test.1 then render test.2 else []) =
        (tests'.flatMap fun test => if test.1 then render test.2 else []) ↔
      List.Forall₂ (fun test test' => test.1 = true → render test.2 = render test'.2)
        tests tests' := by
  induction h with
  | nil => exact iff_of_true rfl List.Forall₂.nil
  | @cons test test' rest rest' hhead _ ih =>
      obtain ⟨hflag, hlength⟩ := hhead
      rw [List.flatMap_cons, List.flatMap_cons, List.forall₂_cons, ← ih, ← hflag]
      cases test.1 with
      | false => simp
      | true =>
          rw [if_pos rfl, if_pos rfl, imp_iff_right rfl]
          constructor
          · exact fun htexts => List.append_inj htexts hlength
          · rintro ⟨htext, hrest⟩
            rw [htext, hrest]

theorem SameShape.flatMap_length {tests tests' : List (Bool × List Piece)}
    (h : SameShape tests tests') :
    (tests.flatMap fun test => if test.1 then render test.2 else []).length =
      (tests'.flatMap fun test => if test.1 then render test.2 else []).length := by
  induction h with
  | nil => rfl
  | @cons test test' rest rest' hhead _ ih =>
      obtain ⟨hflag, hlength⟩ := hhead
      rw [List.flatMap_cons, List.flatMap_cons, List.length_append, List.length_append, ih, ← hflag]
      cases test.1 with
      | false => rfl
      | true =>
          rw [if_pos rfl, if_pos rfl, hlength]

theorem address_length {valid : Bool} {before after other : String} (m n : Nat) :
    (render (if valid = true then [.lit before, .hex 8 m, .lit after] else [.lit other])).length =
      (render (if valid = true then [.lit before, .hex 8 n, .lit after]
        else [.lit other])).length := by
  rw [render_length, render_length]
  cases valid <;> rfl

theorem flag_congr (h : dump.cfsr = dump'.cfsr) (mask : BitVec 32) :
    dump'.flag mask = dump.flag mask := by
  rw [FwCrashDump.flag, FwCrashDump.flag, h]

theorem causeTests_sameShape (h : dump.cfsr = dump'.cfsr) :
    SameShape (causeTests dump) (causeTests dump') := by
  simp only [SameShape, causeTests, flag_congr h, List.forall₂_cons]
  exact ⟨⟨trivial, trivial⟩, ⟨trivial, trivial⟩, ⟨trivial, trivial⟩, ⟨trivial, address_length _ _⟩,
    ⟨trivial, address_length _ _⟩, ⟨trivial, trivial⟩, List.Forall₂.nil⟩

/-- With one fault status the causes tell the addresses that it vouches for. -/
theorem causeText_inj (h : dump.cfsr = dump'.cfsr) :
    causeText dump = causeText dump' ↔
      busAddress dump = busAddress dump' ∧ memAddress dump = memAddress dump' := by
  have hshape := causeTests_sameShape h
  have hunknown : unknownCause dump = unknownCause dump' := by
    rw [unknownCause, unknownCause, h]
  have hcauses : List.Forall₂ (fun test test' => test.1 = true → render test.2 = render test'.2)
      (causeTests dump) (causeTests dump') ↔
      busAddress dump = busAddress dump' ∧ memAddress dump = memAddress dump' := by
    simp only [causeTests, busAddress, memAddress, flag_congr h, List.forall₂_cons,
      named_address_inj, List.forall₂_nil_left_iff, implies_true, true_and, and_true]
  rw [← hcauses, ← hshape.flatMap_inj, causeText, causeText, hunknown]
  have hlength := hshape.flatMap_length
  by_cases hnone : (causeTests dump).flatMap (fun test => if test.1 then render test.2 else []) = []
  · have hnone' := List.length_eq_zero_iff.mp
      (hlength.symm.trans (List.length_eq_zero_iff.mpr hnone))
    rw [if_pos hnone, if_pos hnone', hnone, hnone']
    exact iff_of_true rfl rfl
  · have hsome' := fun hnone' => hnone
      (List.length_eq_zero_iff.mp (hlength.trans (List.length_eq_zero_iff.mpr hnone')))
    rw [if_neg hnone, if_neg hsome']

/-- A report tells the registers and the valid addresses, and nothing else. -/
theorem reportText_inj : reportText dump = reportText dump' ↔ shown dump = shown dump' := by
  have hline : ∀ dump, '\n' ∉ causeText dump := fun dump => avoids_causeText dump '\n' (by decide)
  rw [reportText, reportText, report_inj (hline dump) (hline dump')]
  have hcfsr : (shown dump).1 = (shown dump').1 → dump.cfsr = dump'.cfsr := by
    intro hregisters
    simp only [shown, List.cons.injEq] at hregisters
    exact hregisters.2.2.2.2.2.2.2.2.2.2.1
  constructor
  · rintro ⟨hcause, hregisters⟩
    obtain ⟨hbus, hmem⟩ := (causeText_inj (hcfsr hregisters)).mp hcause
    exact Prod.ext hregisters (Prod.ext hbus hmem)
  · intro hshown
    have hregisters := congrArg Prod.fst hshown
    refine ⟨(causeText_inj (hcfsr hregisters)).mpr ⟨?_, ?_⟩, hregisters⟩
    · exact congrArg (fun shown => shown.2.1) hshown
    · exact congrArg (fun shown => shown.2.2) hshown

/-- A report is text without a null. -/
theorem nul_notMem_reportText (dump : FwCrashDump) : nul ∉ reportText dump := by
  have hdigits : Avoids [nul] "0123456789ABCDEF".toList := by decide
  have hhex : ∀ n, nul ∉ (Piece.hex 8 n).text := fun n =>
    avoids_hex hdigits 8 n nul (List.mem_singleton_self nul)
  have hdec : ∀ n, nul ∉ (Piece.dec n).text := by
    intro n hin
    have hdigit := Nat.isDigit_of_mem_toDigits (by decide) (by decide) hin
    exact Bool.noConfusion hdigit
  have hcause : nul ∉ (Piece.str (causeText dump)).text :=
    avoids_causeText dump nul (by decide)
  have hall : ∀ p ∈ report (causeText dump) dump, nul ∉ p.text := by
    simp only [report, List.forall_mem_cons, hhex, hdec, hcause, not_false_eq_true, true_and]
    refine ⟨by decide, by decide, by decide, by decide, by decide, by decide, by decide, by decide,
      by decide, by decide, by decide, by decide, by decide, by decide, ?_⟩
    exact fun p hp => absurd hp List.not_mem_nil
  intro hin
  obtain ⟨p, hp, hin⟩ := List.mem_flatMap.mp hin
  exact hall p hp hin

/-- Of every dump the report is printed within the buffer of the caller, up to its end, and the
number of its characters is returned; the causes are printed within `fault_cause`. In a buffer
that holds all of it the report tells two dumps apart exactly when they differ in a register that
it shows or in an address that the fault status vouches for. -/
theorem fwCrashDumpFormatReport_tells (T : Target) (dump : FwCrashDump) (out : List Char)
    (maxLen : Nat) (hpos : 0 < maxLen) (hout : maxLen ≤ out.length) (hsize : maxLen < T.sizeMod) :
    (faultCauseOf T dump).length = 256 ∧ Log.cString (faultCauseOf T dump) = causeText dump ∧
      (∃ written cells, fwCrashDumpFormatReport T (some dump) (some out) maxLen =
          (written, some cells) ∧ written = min (reportText dump).length (maxLen - 1) ∧
        cells = (reportText dump).take written ++ nul :: out.drop (written + 1) ∧
        cells.length = out.length) ∧
      (678 ≤ maxLen → ∀ dump',
        (fwCrashDumpFormatReport T (some dump) (some out) maxLen =
            fwCrashDumpFormatReport T (some dump') (some out) maxLen ↔
          shown dump = shown dump')) := by
  have hcells : ∀ dump, splice out 0 ((reportText dump).take (maxLen - 1) ++ [nul]) =
      (reportText dump).take (min (reportText dump).length (maxLen - 1)) ++
        nul :: out.drop (min (reportText dump).length (maxLen - 1) + 1) := by
    intro dump
    rw [splice, List.take_zero, List.nil_append, Nat.zero_add, List.append_assoc,
      List.length_append, List.length_take, List.length_singleton, Nat.min_comm,
      List.take_eq_take_min, List.singleton_append, Nat.min_comm (maxLen - 1)]
  refine ⟨?_, cString_faultCauseOf T dump, ?_, ?_⟩
  · obtain ⟨hcause, hlength⟩ := faultCauseOf_eq T dump
    rw [hcause, List.length_append, List.length_replicate]
    omega
  · refine ⟨_, _, fwCrashDumpFormatReport_eq T dump out hpos hsize, rfl, hcells dump, ?_⟩
    rw [hcells, List.length_append, List.length_take, List.length_cons, List.length_drop]
    omega
  · intro hroom dump'
    have hwhole : ∀ dump, fwCrashDumpFormatReport T (some dump) (some out) maxLen =
        ((reportText dump).length, some (reportText dump ++
          nul :: out.drop ((reportText dump).length + 1))) := by
      intro dump
      have hbound := (reportText_bounds dump).2
      have hmin : min (reportText dump).length (maxLen - 1) = (reportText dump).length :=
        Nat.min_eq_left (by omega)
      rw [fwCrashDumpFormatReport_eq T dump out hpos hsize, hcells, hmin, List.take_length]
    rw [hwhole, hwhole, ← reportText_inj, Prod.mk.injEq, Option.some_inj,
      append_mark_inj (nul_notMem_reportText dump) (nul_notMem_reportText dump')]
    constructor
    · exact fun h => h.2.1
    · intro htext
      rw [htext]
      exact ⟨rfl, rfl, rfl⟩

/-- Two dumps of a bus fault that differ in its address. -/
theorem fwCrashDumpFormatReport_tells_sample :
    let dump : FwCrashDump := { zeroDump with cfsr := fwCfsrPreciserr ||| fwCfsrBfarvalid }
    let out := List.replicate 700 ' '
    (faultCauseOf target32 dump).length = 256 ∧
      fwCrashDumpFormatReport target32 (some dump) (some out) 700 ≠
        fwCrashDumpFormatReport target32 (some { dump with bfar := 1#32 }) (some out) 700 := by
  intro dump out
  have htells := fwCrashDumpFormatReport_tells target32 dump out 700 (by decide)
    (Nat.le_of_eq List.length_replicate.symm) (by decide)
  refine ⟨htells.1, fun heq => ?_⟩
  have hshown := (htells.2.2.2 (by decide) _).mp heq
  exact absurd hshown (by decide)

end Texts

end ZeroEmbedded.CrashDump
