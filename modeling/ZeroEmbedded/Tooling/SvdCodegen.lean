import ZeroEmbedded.Foundation.StructLayout

/-!
# The register map generator

`generate_peripheral` of `svd_codegen.py`: the fields of the structure that is
generated for a peripheral, with reserved fields for the gaps between registers.

## Implementation notes

The integers of a register element are given as `parse_int` has read them. The
rest of the header, which is the same for all register lists, is left out.
-/

namespace ZeroEmbedded.SvdCodegen

open Foundation.StructLayout

/-- A `register` element of the file. -/
structure RegisterElem where
  name : Option String
  addressOffset : Option Nat
  description : Option String
  size : Option Nat

/-- An entry of `registers`. -/
structure Register where
  name : String
  offset : Nat
  desc : String
  size : Nat
  deriving DecidableEq, Repr

/-- The entry of an element, with the defaults of `findtext`. -/
def RegisterElem.read (reg : RegisterElem) : Register :=
  { name := reg.name.getD "REG"
    offset := reg.addressOffset.getD 0
    desc := reg.description.getD ""
    size := reg.size.getD 32 }

/-- `size_bytes`. -/
def Register.sizeBytes (reg : Register) : Nat := max 1 (reg.size / 8)

inductive CType
  | uint8
  | uint16
  | uint32
  deriving DecidableEq, Repr

def CType.width : CType → Nat
  | .uint8 => 1
  | .uint16 => 2
  | .uint32 => 4

/-- `c_type`. -/
def Register.cType (reg : Register) : CType :=
  if reg.size = 32 then .uint32 else if reg.size = 16 then .uint16 else .uint8

/-- A line of `reg_lines`: a reserved field with its index, its dimension and the gap in its
comment, or the field of a register. -/
inductive RegLine
  | reserved (cType : CType) (idx : Nat) (dim : Option Nat) (gap : Nat) (gapEnd : Option Nat)
  | register (cType : CType) (reg : Register)
  deriving DecidableEq, Repr

/-- What the C compiler sees of a line. -/
def RegLine.member : RegLine → Member
  | .reserved cType _ dim _ _ => ⟨cType.width, dim.getD 1⟩
  | .register cType _ => ⟨cType.width, 1⟩

/-- The line that fills the gap up to the next register. -/
def gapLine (currentOffset offset reservedIdx : Nat) : RegLine :=
  let gap := offset - currentOffset
  let gapWords := gap / 4
  if gap % 4 = 0 ∧ gapWords > 0 then
    if gapWords = 1 then .reserved .uint32 reservedIdx none currentOffset none
    else .reserved .uint32 reservedIdx (some gapWords) currentOffset (some offset)
  else .reserved .uint8 reservedIdx (some gap) currentOffset none

/-- The loop over the sorted registers. -/
def regLines (currentOffset reservedIdx : Nat) : List Register → List RegLine
  | [] => []
  | reg :: regs =>
      if reg.offset > currentOffset then
        gapLine currentOffset reg.offset reservedIdx :: .register reg.cType reg ::
          regLines (reg.offset + reg.sizeBytes) (reservedIdx + 1) regs
      else .register reg.cType reg :: regLines (reg.offset + reg.sizeBytes) reservedIdx regs

/-- The registers sorted by address offset. -/
def sortedRegisters (elems : List RegisterElem) : List Register :=
  (elems.map RegisterElem.read).insertionSort fun x y => x.offset ≤ y.offset

/-- The fields that `generate_peripheral` emits. -/
def generatePeripheral (elems : List RegisterElem) : List RegLine :=
  regLines 0 0 (sortedRegisters elems)

/-- The registers with the offsets that the compiler gives to their fields. -/
def placedRegisters (placed : List (RegLine × Nat)) : List (Register × Nat) :=
  placed.filterMap fun field =>
    match field with
    | (.register _ reg, off) => some (reg, off)
    | _ => none

/-- Every register has a field, and every register field lies at its address offset. -/
def Faithful (elems : List RegisterElem) : Prop :=
  (placedRegisters (place RegLine.member 0 (generatePeripheral elems))).Perm
    ((elems.map RegisterElem.read).map fun reg => (reg, reg.offset))

/-- A register of 8, 16 or 32 bits at a multiple of its size. -/
structure Register.Natural (reg : Register) : Prop where
  size : reg.size = 8 ∨ reg.size = 16 ∨ reg.size = 32
  aligned : reg.size / 8 ∣ reg.offset

/-- The bytes of two registers do not overlap. -/
def Register.Disjoint (a b : Register) : Prop :=
  a.offset + a.size / 8 ≤ b.offset ∨ b.offset + b.size / 8 ≤ a.offset

/-- A gap of whole words begins at a word. -/
def GapsAligned (currentOffset : Nat) : List Register → Prop
  | [] => True
  | reg :: regs =>
      (currentOffset < reg.offset → 4 ∣ reg.offset - currentOffset → 4 ∣ currentOffset) ∧
        GapsAligned (reg.offset + reg.size / 8) regs

section Placement

variable {reg : Register} {regs : List Register} {current idx off : Nat}

theorem Register.Natural.sizeBytes_eq (h : reg.Natural) : reg.sizeBytes = reg.size / 8 := by
  rcases h.size with hsize | hsize | hsize <;> rw [Register.sizeBytes, hsize] <;> rfl

theorem Register.Natural.width_eq (h : reg.Natural) : reg.cType.width = reg.size / 8 := by
  rcases h.size with hsize | hsize | hsize <;> rw [Register.cType, hsize] <;> rfl

theorem Register.Natural.size_pos (h : reg.Natural) : 0 < reg.size / 8 := by
  rcases h.size with hsize | hsize | hsize <;> rw [hsize] <;> decide

/-- The field of a register that follows its address offset lies there. -/
theorem Register.Natural.placed (h : reg.Natural) :
    (RegLine.register reg.cType reg).member.start reg.offset = reg.offset ∧
      (RegLine.register reg.cType reg).member.finish reg.offset = reg.offset + reg.size / 8 := by
  have hwidth : (RegLine.register reg.cType reg).member.width = reg.size / 8 := h.width_eq
  have hstart : (RegLine.register reg.cType reg).member.start reg.offset = reg.offset := by
    apply Member.start_of_dvd
    · rw [hwidth]
      exact h.size_pos
    · rw [hwidth]
      exact h.aligned
  refine ⟨hstart, ?_⟩
  rw [Member.finish, hstart, hwidth]
  exact congrArg _ (Nat.mul_one _)

/-- The filler of an aligned gap ends at the next register. -/
theorem gapLine_finish (hlt : current < off) (haligned : 4 ∣ off - current → 4 ∣ current) :
    (gapLine current off idx).member.finish current = off := by
  have hstart : ∀ m : Member, m.width = 1 ∨ m.width = 4 ∧ 4 ∣ current →
      m.start current = current := by
    rintro m (hone | ⟨hfour, hdvd⟩)
    · exact Member.start_of_dvd (by omega) (by rw [hone]; exact Nat.one_dvd _)
    · exact Member.start_of_dvd (by omega) (by rwa [hfour])
  rw [gapLine]
  split
  · next hwords =>
      have hdvd := haligned (Nat.dvd_of_mod_eq_zero hwords.1)
      split
      · next hone =>
          rw [Member.finish, hstart _ (Or.inr ⟨rfl, hdvd⟩)]
          simp only [RegLine.member, CType.width, Option.getD_none]
          omega
      · rw [Member.finish, hstart _ (Or.inr ⟨rfl, hdvd⟩)]
        simp only [RegLine.member, CType.width, Option.getD_some]
        omega
  · rw [Member.finish, hstart _ (Or.inl rfl)]
    simp only [RegLine.member, CType.width, Option.getD_some]
    omega

/-- A gap of whole words that does not begin at a word is filled too far. -/
theorem gapLine_finish_gt (idx : Nat) (hlt : current < off) (hgap : 4 ∣ off - current)
    (hcurrent : ¬ 4 ∣ current) : off < (gapLine current off idx).member.finish current := by
  have hwords : (off - current) % 4 = 0 ∧ (off - current) / 4 > 0 := by omega
  have hmoved : ∀ m : Member, m.width = 4 → current < m.start current := fun m hfour =>
    Member.lt_start (by omega) (by rwa [hfour])
  rw [gapLine]
  rw [if_pos hwords]
  split
  · next hone =>
      have hstart := hmoved (RegLine.member (.reserved .uint32 idx none current none)) rfl
      rw [Member.finish]
      simp only [RegLine.member, CType.width, Option.getD_none] at hstart ⊢
      omega
  · have hstart := hmoved
      (RegLine.member (.reserved .uint32 idx (some ((off - current) / 4)) current (some off))) rfl
    rw [Member.finish]
    simp only [RegLine.member, CType.width, Option.getD_some] at hstart ⊢
    omega

/-- The filler is no register. -/
theorem placedRegisters_gapLine (place : Nat) (lines : List (RegLine × Nat)) :
    placedRegisters ((gapLine current off idx, place) :: lines) = placedRegisters lines := by
  rw [gapLine]
  split
  · split <;> rfl
  · rfl

theorem placedRegisters_register (cType : CType) (place : Nat) (lines : List (RegLine × Nat)) :
    placedRegisters ((.register cType reg, place) :: lines) =
      (reg, place) :: placedRegisters lines := rfl

/-- The registers follow each other without overlap. -/
def Ordered (currentOffset : Nat) : List Register → Prop
  | [] => True
  | reg :: regs => currentOffset ≤ reg.offset ∧ Ordered (reg.offset + reg.size / 8) regs

/-- When the gaps are aligned, every field lies at its address offset. -/
theorem placed_of_gapsAligned (hnatural : ∀ reg ∈ regs, reg.Natural)
    (hordered : Ordered current regs) (hgaps : GapsAligned current regs) :
    placedRegisters (place RegLine.member current (regLines current idx regs)) =
      regs.map fun reg => (reg, reg.offset) := by
  induction regs generalizing current idx with
  | nil => rfl
  | cons reg regs ih =>
      obtain ⟨hle, hordered⟩ := hordered
      obtain ⟨hgap, hgaps⟩ := hgaps
      have hreg := hnatural reg List.mem_cons_self
      have hrest := fun i => @ih _ i
        (fun r hr => hnatural r (List.mem_cons_of_mem _ hr)) hordered hgaps
      obtain ⟨hstart, hfinish⟩ := hreg.placed
      rw [regLines, hreg.sizeBytes_eq, List.map_cons]
      split
      · next hlt =>
          rw [place_cons, place_cons, placedRegisters_gapLine, placedRegisters_register,
            gapLine_finish hlt (hgap hlt), hstart, hfinish, hrest]
      · next hnlt =>
          obtain rfl : current = reg.offset := by omega
          rw [place_cons, placedRegisters_register, hstart, hfinish, hrest]

/-- When a gap is not aligned, the register behind it is displaced. -/
theorem misplaced_of_not_gapsAligned (hnatural : ∀ reg ∈ regs, reg.Natural)
    (hordered : Ordered current regs) (hgaps : ¬ GapsAligned current regs) :
    ∃ field ∈ placedRegisters (place RegLine.member current (regLines current idx regs)),
      field.2 ≠ field.1.offset := by
  induction regs generalizing current idx with
  | nil => exact absurd trivial hgaps
  | cons reg regs ih =>
      obtain ⟨hle, hordered⟩ := hordered
      have hreg := hnatural reg List.mem_cons_self
      obtain ⟨hstart, hfinish⟩ := hreg.placed
      rw [regLines, hreg.sizeBytes_eq]
      by_cases hgap : current < reg.offset → 4 ∣ reg.offset - current → 4 ∣ current
      · have hrest := fun i => @ih _ i
          (fun r hr => hnatural r (List.mem_cons_of_mem _ hr)) hordered fun h => hgaps ⟨hgap, h⟩
        split
        · next hlt =>
            obtain ⟨field, hmem, hne⟩ := hrest (idx + 1)
            rw [place_cons, place_cons, placedRegisters_gapLine, placedRegisters_register,
              gapLine_finish hlt (hgap hlt), hfinish]
            exact ⟨field, List.mem_cons_of_mem _ hmem, hne⟩
        · next hnlt =>
            obtain rfl : current = reg.offset := by omega
            obtain ⟨field, hmem, hne⟩ := hrest idx
            rw [place_cons, placedRegisters_register, hfinish]
            exact ⟨field, List.mem_cons_of_mem _ hmem, hne⟩
      · simp only [Classical.not_imp] at hgap
        obtain ⟨hlt, hdvd, hcurrent⟩ := hgap
        have hfar := gapLine_finish_gt idx hlt hdvd hcurrent
        have hpos : 0 < (RegLine.register reg.cType reg).member.width := by
          rw [RegLine.member, hreg.width_eq]
          exact hreg.size_pos
        rw [if_pos hlt, place_cons, place_cons, placedRegisters_gapLine, placedRegisters_register]
        refine ⟨_, List.mem_cons_self, Nat.ne_of_gt ?_⟩
        exact Nat.lt_of_lt_of_le hfar (Member.le_start hpos)

/-- Sorted registers that do not overlap follow each other. -/
theorem ordered_of_sorted (hnatural : ∀ reg ∈ regs, reg.Natural)
    (hsorted : regs.Pairwise fun x y => x.offset ≤ y.offset)
    (hdisjoint : regs.Pairwise Register.Disjoint) (hlow : ∀ reg ∈ regs, current ≤ reg.offset) :
    Ordered current regs := by
  induction regs generalizing current with
  | nil => trivial
  | cons reg regs ih =>
      obtain ⟨hle, hsorted⟩ := List.pairwise_cons.mp hsorted
      obtain ⟨hapart, hdisjoint⟩ := List.pairwise_cons.mp hdisjoint
      refine ⟨hlow reg List.mem_cons_self, ih (fun r hr => hnatural r (List.mem_cons_of_mem _ hr))
        hsorted hdisjoint fun r hr => ?_⟩
      have hfirst := hle r hr
      have hpos := (hnatural r (List.mem_cons_of_mem _ hr)).size_pos
      rcases hapart r hr with h | h <;> omega

end Placement

theorem Register.Disjoint.symm {a b : Register} (h : a.Disjoint b) : b.Disjoint a := Or.symm h

instance decidableGapsAligned (currentOffset : Nat) (regs : List Register) :
    Decidable (GapsAligned currentOffset regs) :=
  match regs with
  | [] => isTrue trivial
  | reg :: regs =>
      haveI := decidableGapsAligned (reg.offset + reg.size / 8) regs
      inferInstanceAs (Decidable (_ ∧ _))

/-- The register fields lie at their address offsets exactly when no gap of whole words begins
inside of a word. -/
theorem generatePeripheral_faithful_iff {elems : List RegisterElem}
    (hnatural : ∀ elem ∈ elems, elem.read.Natural)
    (hdisjoint : (elems.map RegisterElem.read).Pairwise Register.Disjoint) :
    Faithful elems ↔ GapsAligned 0 (sortedRegisters elems) := by
  have hperm : (sortedRegisters elems).Perm (elems.map RegisterElem.read) :=
    List.perm_insertionSort _ _
  have hnatural' : ∀ reg ∈ sortedRegisters elems, reg.Natural := by
    intro reg hreg
    obtain ⟨elem, helem, rfl⟩ := List.mem_map.mp (hperm.mem_iff.mp hreg)
    exact hnatural elem helem
  have hsorted : (sortedRegisters elems).Pairwise fun x y => x.offset ≤ y.offset :=
    haveI : Std.Total fun x y : Register => x.offset ≤ y.offset :=
      ⟨fun x y => Nat.le_total x.offset y.offset⟩
    haveI : IsTrans Register fun x y => x.offset ≤ y.offset := ⟨fun _ _ _ => Nat.le_trans⟩
    List.pairwise_insertionSort _ _
  have hordered : Ordered 0 (sortedRegisters elems) :=
    ordered_of_sorted hnatural' hsorted
      ((hperm.pairwise_iff Register.Disjoint.symm).mpr hdisjoint) fun _ _ => Nat.zero_le _
  rw [Faithful, generatePeripheral]
  constructor
  · intro hfaithful
    by_contra hgaps
    obtain ⟨field, hmem, hne⟩ := misplaced_of_not_gapsAligned hnatural' hordered hgaps
    obtain ⟨reg, -, rfl⟩ := List.mem_map.mp (hfaithful.mem_iff.mp hmem)
    exact hne rfl
  · intro hgaps
    rw [placed_of_gapsAligned hnatural' hordered hgaps]
    exact hperm.map _

/-- A status byte, a data word behind a gap and a control register between them in the file. -/
def sampleElems : List RegisterElem :=
  [⟨some "SR", some 0, none, some 8⟩, ⟨some "DR", some 8, none, none⟩,
    ⟨some "CR", some 2, none, some 16⟩]

theorem generatePeripheral_faithful_sample : Faithful sampleElems := by
  refine (generatePeripheral_faithful_iff ?_ ?_).mpr (by decide)
  · intro elem helem
    simp only [sampleElems, List.mem_cons, List.not_mem_nil, or_false] at helem
    rcases helem with rfl | rfl | rfl <;> exact ⟨by decide, by decide⟩
  · simp [sampleElems, RegisterElem.read, Register.Disjoint]

/-- Two byte registers four bytes apart: the word between them is aligned to offset 4, so that the
second one comes to lie at offset 8. -/
theorem generatePeripheral_misplaces :
    ¬ ∀ elems : List RegisterElem, (∀ elem ∈ elems, elem.read.Natural) →
      (elems.map RegisterElem.read).Pairwise Register.Disjoint → Faithful elems := by
  intro hclaim
  have hnatural : ∀ elem ∈ [RegisterElem.mk (some "A") (some 0) none (some 8),
      ⟨some "B", some 5, none, some 8⟩], elem.read.Natural := by
    intro elem helem
    simp only [List.mem_cons, List.not_mem_nil, or_false] at helem
    rcases helem with rfl | rfl <;> exact ⟨by decide, by decide⟩
  have hfaithful := hclaim _ hnatural (by simp [RegisterElem.read, Register.Disjoint])
  have hplaced : placedRegisters (place RegLine.member 0
      (generatePeripheral [⟨some "A", some 0, none, some 8⟩, ⟨some "B", some 5, none, some 8⟩])) =
      [(⟨"A", 0, "", 8⟩, 0), (⟨"B", 5, "", 8⟩, 8)] := by decide
  rw [Faithful, hplaced] at hfaithful
  exact absurd (hfaithful.mem_iff.mp (List.mem_cons_of_mem _ List.mem_cons_self)) (by decide)

end ZeroEmbedded.SvdCodegen
