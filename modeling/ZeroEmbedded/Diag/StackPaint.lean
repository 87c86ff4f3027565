import ZeroEmbedded.Diag.Monitor
import ZeroEmbedded.Foundation.ByteMemory
import ZeroEmbedded.Foundation.Intervals

/-!
# Painted stacks

The stack functions of `monitor.c`. A stack is filled with a canary pattern
before its task runs, and the words at its lower end that still show the pattern
have not been used. Tasks write to their own stacks, and after every slice the
peak is recorded in the table of the monitor.

## Implementation notes

A stack lies in the address space, so the addresses in it do not wrap around.
-/

namespace ZeroEmbedded.Monitor

open Foundation Foundation.ByteMemory Foundation.Intervals

/-- `FW_NULL`. -/
def fwNull : Nat := 0

/-- `FW_STACK_PAINT_CANARY`. -/
def fwStackPaintCanary : BitVec 32 := 0x5A5A5A5A#32

/-- The loop of `fw_task_stack_paint` over so many words. -/
def paintLoop (stackBase count : Nat) (m : ByteMemory) : ByteMemory :=
  (List.range count).foldl (fun m i => m.storeWord (stackBase + 4 * i) fwStackPaintCanary) m

/-- `fw_task_stack_paint`. -/
def fwTaskStackPaint (stackBase stackSize : Nat) (m : ByteMemory) : FwStatus × ByteMemory :=
  if stackBase = fwNull ∨ stackSize < 4 then (.errInvalidArg, m)
  else (.ok, paintLoop stackBase (stackSize / 4) m)

/-- The loop of `fw_task_stack_unused`, with the words left and `unused_words`. -/
def unusedLoop (m : ByteMemory) (stackBase : Nat) : Nat → Nat → Nat
  | 0, unusedWords => unusedWords
  | left + 1, unusedWords =>
      if m.loadWord (stackBase + 4 * unusedWords) = fwStackPaintCanary then
        unusedLoop m stackBase left (unusedWords + 1)
      else unusedWords

/-- `fw_task_stack_unused`. -/
def fwTaskStackUnused (stackBase stackSize : Nat) (m : ByteMemory) : Nat :=
  if stackBase = fwNull ∨ stackSize < 4 then 0
  else unusedLoop m stackBase (stackSize / 4) 0 * 4

/-- `fw_task_stack_peak`. -/
def fwTaskStackPeak (stackBase stackSize : Nat) (m : ByteMemory) : Nat :=
  let unused := fwTaskStackUnused stackBase stackSize m
  if unused ≥ stackSize then 0 else stackSize - unused

/-- A byte of the canary. -/
def canaryByte : UInt8 := 0x5A

section Peak

variable {base size w d offset : Nat} {m : ByteMemory}

/-- A word shows the pattern when its bytes do. -/
theorem loadWord_eq_canary_iff (m : ByteMemory) (a : Nat) :
    m.loadWord a = fwStackPaintCanary ↔ ∀ j < 4, m (a + j) = canaryByte := by
  have hlt : m.load a 4 < 2 ^ 32 := m.load_lt a 4
  have hword : m.loadWord a = fwStackPaintCanary ↔ m.load a 4 = 0x5A5A5A5A := by
    rw [ByteMemory.loadWord, ← BitVec.toNat_inj, BitVec.toNat_ofNat, Nat.mod_eq_of_lt hlt]
    rfl
  have hbyte : ∀ x, m x = canaryByte ↔ (m x).toNat = 0x5A := fun x => UInt8.toNat_inj.symm
  have h0 := (m a).toNat_lt
  have h1 := (m (a + 1)).toNat_lt
  have h2 := (m (a + 1 + 1)).toNat_lt
  have h3 := (m (a + 1 + 1 + 1)).toNat_lt
  rw [hword, load, load, load, load, load]
  constructor
  · intro hload j hj
    rw [hbyte]
    interval_cases j
    · rw [Nat.add_zero]
      omega
    · omega
    · change (m (a + 1 + 1)).toNat = 0x5A
      omega
    · change (m (a + 1 + 1 + 1)).toNat = 0x5A
      omega
  · intro hall
    have hb0 := (hbyte _).mp (hall 0 (by decide))
    have hb1 := (hbyte _).mp (hall 1 (by decide))
    have hb2 := (hbyte _).mp (hall 2 (by decide))
    have hb3 := (hbyte _).mp (hall 3 (by decide))
    change (m (a + 1 + 1)).toNat = 0x5A at hb2
    change (m (a + 1 + 1 + 1)).toNat = 0x5A at hb3
    rw [Nat.add_zero] at hb0
    omega

/-- The loop stops at the first word without the pattern. -/
theorem unusedLoop_spec (m : ByteMemory) (base left unused : Nat) :
    unused ≤ unusedLoop m base left unused ∧ unusedLoop m base left unused ≤ unused + left ∧
      (∀ i, unused ≤ i → i < unusedLoop m base left unused →
        m.loadWord (base + 4 * i) = fwStackPaintCanary) ∧
      (unusedLoop m base left unused < unused + left →
        m.loadWord (base + 4 * unusedLoop m base left unused) ≠ fwStackPaintCanary) := by
  induction left generalizing unused with
  | zero => exact ⟨Nat.le_refl _, Nat.le_refl _, fun i hle hlt => absurd hle (Nat.not_le.mpr hlt),
      fun hlt => absurd hlt (Nat.lt_irrefl _)⟩
  | succ left ih =>
      rw [unusedLoop]
      split
      · next hcanary =>
          obtain ⟨hle, hle', hbelow, hstop⟩ := ih (unused + 1)
          refine ⟨by omega, by omega, fun i hi hlt => ?_, fun hlt => hstop (by omega)⟩
          rcases Nat.eq_or_lt_of_le hi with rfl | hlt'
          · exact hcanary
          · exact hbelow i hlt' hlt
      · next hother =>
          exact ⟨Nat.le_refl _, by omega, fun i hle hlt => absurd hle (Nat.not_le.mpr hlt),
            fun _ => hother⟩

/-- The peak reaches from the first word without the pattern to the top of the stack. -/
structure IsPeak (base size : Nat) (m : ByteMemory) (peak : Nat) : Prop where
  tail_le : size % 4 ≤ peak
  word_le : ∀ i < size / 4, m.loadWord (base + 4 * i) ≠ fwStackPaintCanary → size - 4 * i ≤ peak
  least : ∀ d, size % 4 ≤ d →
    (∀ i < size / 4, m.loadWord (base + 4 * i) ≠ fwStackPaintCanary → size - 4 * i ≤ d) → peak ≤ d

theorem fwTaskStackPeak_isPeak (hnull : base ≠ fwNull) (size : Nat) (m : ByteMemory) :
    IsPeak base size m (fwTaskStackPeak base size m) := by
  by_cases hsmall : size < 4
  · have hunused : fwTaskStackUnused base size m = 0 := if_pos (Or.inr hsmall)
    have hpeak : fwTaskStackPeak base size m = size := by
      rw [fwTaskStackPeak, hunused]
      split <;> omega
    rw [hpeak]
    exact ⟨by omega, fun i hi _ => by omega, fun d hd _ => by omega⟩
  · have hunused : fwTaskStackUnused base size m = unusedLoop m base (size / 4) 0 * 4 :=
      if_neg (by tauto)
    obtain ⟨-, hle, hbelow, hstop⟩ := unusedLoop_spec m base (size / 4) 0
    generalize unusedLoop m base (size / 4) 0 = k at hunused hle hbelow hstop
    have hpeak : fwTaskStackPeak base size m = size - 4 * k := by
      rw [fwTaskStackPeak, hunused]
      split <;> omega
    rw [hpeak]
    refine ⟨by omega, fun i hi hword => ?_, fun d hd hall => ?_⟩
    · have hge : k ≤ i := Nat.le_of_not_lt fun hlt => hword (hbelow i (Nat.zero_le i) hlt)
      omega
    · rcases Nat.lt_or_ge k (size / 4) with hlt | hge
      · exact hall k hlt (hstop (by omega))
      · omega

theorem storeWord_outside {a x : Nat} {word : BitVec 32} (h : x < a ∨ a + 4 ≤ x) :
    m.storeWord a word x = m x := store_outside h

theorem paintLoop_succ (base count : Nat) (m : ByteMemory) :
    paintLoop base (count + 1) m =
      (paintLoop base count m).storeWord (base + 4 * count) fwStackPaintCanary := by
  rw [paintLoop, List.range_succ, List.foldl_append]
  rfl

theorem loadWord_paintLoop (base count : Nat) (m : ByteMemory) :
    ∀ i < count, (paintLoop base count m).loadWord (base + 4 * i) = fwStackPaintCanary := by
  induction count with
  | zero => exact fun i hi => absurd hi (Nat.not_lt_zero i)
  | succ count ih =>
      intro i hi
      rw [paintLoop_succ]
      rcases Nat.eq_or_lt_of_le (Nat.le_of_lt_succ hi) with rfl | hlt
      · exact loadWord_storeWord
      · refine Eq.trans (AgreeOn.loadWord_eq fun x _ hx => ?_) (ih i hlt)
        exact storeWord_outside (by omega)

theorem paintLoop_outside {a count : Nat} (ha : a < base ∨ base + 4 * count ≤ a) :
    paintLoop base count m a = m a := by
  induction count with
  | zero => rfl
  | succ count ih =>
      rw [paintLoop_succ, storeWord_outside (by omega)]
      exact ih (by omega)

/-- Painting fills the words of the stack and leaves the rest of the memory alone. -/
theorem fwTaskStackPaint_spec (hnull : base ≠ fwNull) (size : Nat) (m : ByteMemory) :
    (∀ x < 4 * (size / 4), (fwTaskStackPaint base size m).2 (base + x) = canaryByte) ∧
      ∀ a, a < base ∨ base + size ≤ a → (fwTaskStackPaint base size m).2 a = m a := by
  rw [fwTaskStackPaint]
  by_cases hsmall : size < 4
  · rw [if_pos (Or.inr hsmall)]
    exact ⟨fun x hx => by omega, fun a _ => rfl⟩
  rw [if_neg (by tauto)]
  refine ⟨fun x hx => ?_, fun a ha => paintLoop_outside (by omega)⟩
  have hword := loadWord_paintLoop base (size / 4) m (x / 4) (by omega)
  have hbyte := (loadWord_eq_canary_iff _ _).mp hword (x % 4) (Nat.mod_lt x (by decide))
  rwa [Nat.add_assoc, Nat.div_add_mod] at hbyte

end Peak

/-- A slice of the execution of a task, with its writes by their offsets in the stack. -/
structure ExecSlice where
  taskId : UInt32
  runtimeUs : UInt32
  writes : List (Nat × UInt8)

/-- The memory after writes to a stack. -/
def runWrites (base : Nat) (m : ByteMemory) (writes : List (Nat × UInt8)) : ByteMemory :=
  writes.foldl (fun m w => Function.update m (base + w.1) w.2) m

/-- A slice is executed, and the peak of its task reported. -/
def execute (stack : UInt32 → Nat × Nat) (s : ByteMemory × List TaskSlice) (slice : ExecSlice) :
    ByteMemory × List TaskSlice :=
  let m := runWrites (stack slice.taskId).1 s.1 slice.writes
  (m, s.2 ++ [⟨slice.taskId, slice.runtimeUs,
    fwTaskStackPeak (stack slice.taskId).1 (stack slice.taskId).2 m⟩])

def executeAll (stack : UInt32 → Nat × Nat) (m : ByteMemory) (slices : List ExecSlice) :
    ByteMemory × List TaskSlice :=
  slices.foldl (execute stack) (m, [])

/-- The stacks of the created tasks are painted. -/
def paintAll (stack : UInt32 → Nat × Nat) (created : List UInt32) (m : ByteMemory) : ByteMemory :=
  created.foldl (fun m id => (fwTaskStackPaint (stack id).1 (stack id).2 m).2) m

/-- The writes of a task. -/
def writesOf (slices : List ExecSlice) (taskId : UInt32) : List (Nat × UInt8) :=
  (slices.filter fun slice => slice.taskId = taskId).flatMap (·.writes)

/-- The bytes from the deepest written word to the top of the stack, or the bytes above its last
word. -/
def deepest (size : Nat) (writes : List (Nat × UInt8)) : Nat :=
  writes.foldr (fun w d => max (size - 4 * (w.1 / 4)) d) (size % 4)

/-- What is known of a stack after the writes of its task. -/
structure Used (base size : Nat) (writes : List (Nat × UInt8)) (m : ByteMemory) : Prop where
  inside : ∀ w ∈ writes, w.1 < size
  untouched : ∀ x < 4 * (size / 4), (∀ w ∈ writes, w.1 ≠ x) → m (base + x) = canaryByte
  touched : (∀ w ∈ writes, w.2 ≠ canaryByte) → ∀ w ∈ writes, m (base + w.1) ≠ canaryByte

section Depth

variable {base size : Nat} {writes more : List (Nat × UInt8)} {m m' : ByteMemory}

theorem le_deepest (size : Nat) (writes : List (Nat × UInt8)) :
    size % 4 ≤ deepest size writes ∧
      ∀ w ∈ writes, size - 4 * (w.1 / 4) ≤ deepest size writes := by
  induction writes with
  | nil => exact ⟨Nat.le_refl _, fun w hw => absurd hw List.not_mem_nil⟩
  | cons v rest ih =>
      obtain ⟨htail, hrest⟩ := ih
      change _ ≤ max _ (deepest size rest) ∧ ∀ w ∈ v :: rest, _ ≤ max _ (deepest size rest)
      refine ⟨Nat.le_trans htail (Nat.le_max_right _ _), fun w hw => ?_⟩
      rcases List.mem_cons.mp hw with rfl | hw
      · exact Nat.le_max_left _ _
      · exact Nat.le_trans (hrest w hw) (Nat.le_max_right _ _)

theorem deepest_le {d : Nat} (htail : size % 4 ≤ d)
    (hall : ∀ w ∈ writes, size - 4 * (w.1 / 4) ≤ d) : deepest size writes ≤ d := by
  induction writes with
  | nil => exact htail
  | cons v rest ih =>
      exact Nat.max_le.mpr ⟨hall v List.mem_cons_self,
        ih fun w hw => hall w (List.mem_cons_of_mem v hw)⟩

theorem deepest_append_le (size : Nat) (writes more : List (Nat × UInt8)) :
    deepest size writes ≤ deepest size (writes ++ more) := by
  obtain ⟨htail, hall⟩ := le_deepest size (writes ++ more)
  exact deepest_le htail fun w hw => hall w (List.mem_append_left more hw)

/-- The peak of a used stack is not above the deepest write, and reaches it when no byte of the
pattern was written. -/
theorem Used.peak (h : Used base size writes m) (hnull : base ≠ fwNull) :
    fwTaskStackPeak base size m ≤ deepest size writes ∧
      ((∀ w ∈ writes, w.2 ≠ canaryByte) →
        fwTaskStackPeak base size m = deepest size writes) := by
  have hpeak := fwTaskStackPeak_isPeak hnull size m
  obtain ⟨htail, hdeep⟩ := le_deepest size writes
  have hle : fwTaskStackPeak base size m ≤ deepest size writes := by
    refine hpeak.least _ htail fun i hi hword => ?_
    -- a byte of the word has been written
    obtain ⟨j, hj, hbyte⟩ : ∃ j < 4, m (base + 4 * i + j) ≠ canaryByte := by
      by_contra hnone
      push Not at hnone
      exact hword ((loadWord_eq_canary_iff m _).mpr hnone)
    obtain ⟨w, hw, hoffset⟩ : ∃ w ∈ writes, w.1 = 4 * i + j := by
      by_contra hnone
      push Not at hnone
      rw [Nat.add_assoc] at hbyte
      exact hbyte (h.untouched (4 * i + j) (by omega) hnone)
    have hdepth := hdeep w hw
    rw [hoffset] at hdepth
    omega
  refine ⟨hle, fun hother => Nat.le_antisymm hle (deepest_le hpeak.tail_le fun w hw => ?_)⟩
  have hbyte := h.touched hother w hw
  have hinside := h.inside w hw
  by_cases hword : w.1 < 4 * (size / 4)
  · refine hpeak.word_le (w.1 / 4) (by omega) fun hcanary => hbyte ?_
    have hall := (loadWord_eq_canary_iff m _).mp hcanary (w.1 % 4) (Nat.mod_lt _ (by decide))
    rwa [Nat.add_assoc, Nat.div_add_mod] at hall
  · have htop := hpeak.tail_le
    omega

/-- A write of the task itself. -/
theorem Used.write (h : Used base size writes m) {w : Nat × UInt8} (hw : w.1 < size) :
    Used base size (writes ++ [w]) (Function.update m (base + w.1) w.2) where
  inside v hv := by
    rcases List.mem_append.mp hv with hv | hv
    · exact h.inside v hv
    · rwa [List.mem_singleton.mp hv]
  untouched x hx hnone := by
    have hne : w.1 ≠ x := hnone w (List.mem_append_right _ List.mem_cons_self)
    rw [Function.update_of_ne (by omega)]
    exact h.untouched x hx fun v hv => hnone v (List.mem_append_left _ hv)
  touched hother v hv := by
    by_cases heq : v.1 = w.1
    · rw [heq, Function.update_self]
      exact hother w (List.mem_append_right _ List.mem_cons_self)
    · rw [Function.update_of_ne (by omega)]
      rcases List.mem_append.mp hv with hv | hv
      · exact h.touched (fun v hv => hother v (List.mem_append_left _ hv)) v hv
      · exact absurd (congrArg Prod.fst (List.mem_singleton.mp hv)) heq

theorem Used.runWrites (h : Used base size writes m) (hmore : ∀ w ∈ more, w.1 < size) :
    Used base size (writes ++ more) (runWrites base m more) := by
  induction more generalizing writes m with
  | nil => rwa [List.append_nil]
  | cons w rest ih =>
      have hstep := ih (h.write (hmore w List.mem_cons_self))
        fun v hv => hmore v (List.mem_cons_of_mem w hv)
      rwa [List.append_assoc] at hstep

/-- Writes elsewhere leave a stack as it is. -/
theorem Used.agree (h : Used base size writes m) (hagree : AgreeOn m m' base (base + size)) :
    Used base size writes m' where
  inside := h.inside
  untouched x hx hnone := by
    rw [← hagree (base + x) (by omega) (by omega)]
    exact h.untouched x hx hnone
  touched hother w hw := by
    have hinside := h.inside w hw
    rw [← hagree (base + w.1) (by omega) (by omega)]
    exact h.touched hother w hw

theorem runWrites_outside {a : Nat} (hmore : ∀ w ∈ more, w.1 < size)
    (ha : a < base ∨ base + size ≤ a) : runWrites base m more a = m a := by
  induction more generalizing m with
  | nil => rfl
  | cons w rest ih =>
      have hw := hmore w List.mem_cons_self
      refine (ih fun v hv => hmore v (List.mem_cons_of_mem w hv)).trans ?_
      exact Function.update_of_ne (by omega) _ _

end Depth

section Tasks

variable {stack : UInt32 → Nat × Nat} {created : List UInt32} {slices : List ExecSlice}
  {id : UInt32} {m : ByteMemory}

/-- A painted stack has not been used. -/
theorem paintAll_used (hapart : ∀ a b, a ≠ b → Apart (stack a) (stack b))
    (hnull : ∀ id ∈ created, (stack id).1 ≠ fwNull) (m : ByteMemory) :
    ∀ id ∈ created, Used (stack id).1 (stack id).2 [] (paintAll stack created m) := by
  induction created using List.reverseRecOn with
  | nil => exact fun id hid => absurd hid List.not_mem_nil
  | append_singleton created last ih =>
      have hlast := hnull last (List.mem_append_right _ List.mem_cons_self)
      intro id hid
      rw [paintAll, List.foldl_append, List.foldl_cons, List.foldl_nil]
      obtain ⟨hpainted, houtside⟩ := fwTaskStackPaint_spec hlast (stack last).2
        (created.foldl (fun m id => (fwTaskStackPaint (stack id).1 (stack id).2 m).2) m)
      by_cases heq : id = last
      · subst heq
        exact ⟨fun w hw => absurd hw List.not_mem_nil, fun x hx _ => hpainted x hx,
          fun _ w hw => absurd hw List.not_mem_nil⟩
      · have hbefore : id ∈ created := by
          rcases List.mem_append.mp hid with hid | hid
          · exact hid
          · exact absurd (List.mem_singleton.mp hid) heq
        refine (ih (fun id hid => hnull id (List.mem_append_left _ hid)) id hbefore).agree ?_
        intro a hle hlt
        have hdisjoint := hapart id last heq
        rw [Apart] at hdisjoint
        exact (houtside a (by omega)).symm

theorem writesOf_concat (slices : List ExecSlice) (slice : ExecSlice) (id : UInt32) :
    writesOf (slices ++ [slice]) id =
      writesOf slices id ++ if slice.taskId = id then slice.writes else [] := by
  rw [writesOf, List.filter_append, List.flatMap_append, ← writesOf]
  by_cases heq : slice.taskId = id
  · rw [if_pos heq, List.filter_singleton, decide_eq_true heq]
    simp
  · rw [if_neg heq, List.filter_singleton, decide_eq_false heq]
    simp

/-- What the reports say about the stack of a task. -/
structure Reported (stack : UInt32 → Nat × Nat) (id : UInt32) (slices : List ExecSlice)
    (reports : List TaskSlice) : Prop where
  ids : reports.map (·.taskId) = slices.map (·.taskId)
  le : ∀ r ∈ reports, r.taskId = id →
    r.peakStack ≤ deepest (stack id).2 (writesOf slices id)
  reached : (∀ w ∈ writesOf slices id, w.2 ≠ canaryByte) → id ∈ slices.map (·.taskId) →
    ∃ r ∈ reports, r.taskId = id ∧ r.peakStack = deepest (stack id).2 (writesOf slices id)

/-- Along the slices the stack of a task is used by its own writes only, and reported so. -/
theorem executeAll_reported (hapart : ∀ a b, a ≠ b → Apart (stack a) (stack b))
    (hnull : (stack id).1 ≠ fwNull) (hpainted : Used (stack id).1 (stack id).2 [] m)
    (hinside : ∀ s ∈ slices, ∀ w ∈ s.writes, w.1 < (stack s.taskId).2) :
    Used (stack id).1 (stack id).2 (writesOf slices id) (executeAll stack m slices).1 ∧
      Reported stack id slices (executeAll stack m slices).2 := by
  induction slices using List.reverseRecOn with
  | nil =>
      exact ⟨hpainted, rfl, fun r hr => absurd hr List.not_mem_nil,
        fun _ hid => absurd hid List.not_mem_nil⟩
  | append_singleton slices slice ih =>
      obtain ⟨hused, hreported⟩ := ih fun s hs => hinside s (List.mem_append_left _ hs)
      have hwrites := hinside slice (List.mem_append_right _ List.mem_cons_self)
      rw [executeAll, List.foldl_append, List.foldl_cons, List.foldl_nil, ← executeAll]
      generalize executeAll stack m slices = now at hused hreported
      rw [writesOf_concat, execute]
      dsimp only
      have hids : (now.2 ++ [(⟨slice.taskId, slice.runtimeUs, fwTaskStackPeak
          (stack slice.taskId).1 (stack slice.taskId).2
          (runWrites (stack slice.taskId).1 now.1 slice.writes)⟩ : TaskSlice)]).map (·.taskId) =
          (slices ++ [slice]).map (·.taskId) := by
        rw [List.map_append, List.map_append, hreported.ids]
        rfl
      by_cases heq : slice.taskId = id
      · subst heq
        rw [if_pos rfl]
        have hnext := hused.runWrites hwrites
        obtain ⟨hle, hexact⟩ := hnext.peak hnull
        refine ⟨hnext, hids, fun r hr hid => ?_, fun hother _ => ?_⟩
        · rw [writesOf_concat, if_pos rfl]
          rcases List.mem_append.mp hr with hr | hr
          · exact Nat.le_trans (hreported.le r hr hid) (deepest_append_le _ _ _)
          · rw [List.mem_singleton.mp hr]
            exact hle
        · rw [writesOf_concat, if_pos rfl] at hother ⊢
          exact ⟨_, List.mem_append_right _ List.mem_cons_self, rfl, hexact hother⟩
      · rw [if_neg heq, List.append_nil]
        refine ⟨hused.agree fun a hle hlt => ?_, hids, fun r hr hid => ?_, fun hother hid => ?_⟩
        · have hdisjoint := hapart slice.taskId id heq
          rw [Apart] at hdisjoint
          exact (runWrites_outside hwrites (by omega)).symm
        · rw [writesOf_concat, if_neg heq, List.append_nil]
          rcases List.mem_append.mp hr with hr | hr
          · exact hreported.le r hr hid
          · rw [List.mem_singleton.mp hr] at hid
            exact absurd hid heq
        · rw [writesOf_concat, if_neg heq, List.append_nil] at hother ⊢
          have hbefore : id ∈ slices.map (·.taskId) := by
            rw [List.map_append] at hid
            rcases List.mem_append.mp hid with hid | hid
            · exact hid
            · exact absurd (List.mem_singleton.mp hid).symm heq
          obtain ⟨r, hr, hrid, hpeak⟩ := hreported.reached hother hbefore
          exact ⟨r, List.mem_append_left _ hr, hrid, hpeak⟩

/-- For the first sixteen tasks, whatever slices they run in what order, the recorded peak is never
above the deepest write of the task, and it is the deepest write when no byte of the pattern was
written. -/
theorem fwTaskMonitor_tracksStacks (hapart : ∀ a b, a ≠ b → Apart (stack a) (stack b))
    (hnull : ∀ id ∈ created, (stack id).1 ≠ fwNull) (m : ByteMemory)
    (hinside : ∀ s ∈ slices, ∀ w ∈ s.writes, w.1 < (stack s.taskId).2) (hid : id ∈ created)
    (hentry : AmongFirst fwMonitorMaxTasks (slices.map (·.taskId)) id) :
    ∃ metric, fwTaskMonitorGet id
        (recordAll (executeAll stack (paintAll stack created m) slices).2) = .ok metric ∧
      metric.stackPeakBytes ≤ deepest (stack id).2 (writesOf slices id) ∧
      ((∀ w ∈ writesOf slices id, w.2 ≠ canaryByte) →
        metric.stackPeakBytes = deepest (stack id).2 (writesOf slices id)) := by
  have hpainted := paintAll_used hapart hnull m id hid
  obtain ⟨-, hreported⟩ := executeAll_reported hapart (hnull id hid) hpainted hinside
  generalize (executeAll stack (paintAll stack created m) slices).2 = reports at hreported
  have hhas : HasEntry reports id := by
    rw [HasEntry, hreported.ids]
    exact hentry
  obtain ⟨metric, hget, -, -, -, hgreatest⟩ := fwTaskMonitorGet_entry hhas
  obtain ⟨⟨r, hr, hpeak⟩, hupper⟩ := hgreatest
  have hmem := List.mem_filter.mp hr
  have hle := hreported.le r hmem.1 (of_decide_eq_true hmem.2)
  rw [hpeak] at hle
  refine ⟨metric, hget, hle, fun hother => Nat.le_antisymm hle ?_⟩
  obtain ⟨r', hr', hrid, hreached⟩ := hreported.reached hother hentry.mem
  rw [← hreached]
  exact hupper ⟨r', List.mem_filter.mpr ⟨hr', decide_eq_true hrid⟩, rfl⟩

/-- Stacks for two tasks. -/
def twoStacks (id : UInt32) : Nat × Nat :=
  if id = 1 then (100, 16) else if id = 2 then (200, 8) else (0, 0)

def threeSlices : List ExecSlice := [⟨1, 50, [(12, 7)]⟩, ⟨2, 20, [(3, 1)]⟩, ⟨1, 30, [(5, 9)]⟩]

theorem twoStacks_apart (a b : UInt32) (hne : a ≠ b) : Apart (twoStacks a) (twoStacks b) := by
  simp only [Apart, twoStacks]
  split_ifs
  all_goals first | omega | exact absurd (by simp_all) hne

/-- The first task has used all but the lowest word of its stack. -/
theorem fwTaskMonitor_tracksStacks_sample :
    deepest (twoStacks 1).2 (writesOf threeSlices 1) = 12 ∧
      ∃ metric, fwTaskMonitorGet 1
          (recordAll (executeAll twoStacks (paintAll twoStacks [1, 2] fun _ => 0) threeSlices).2) =
            .ok metric ∧
        metric.stackPeakBytes ≤ deepest (twoStacks 1).2 (writesOf threeSlices 1) ∧
        ((∀ w ∈ writesOf threeSlices 1, w.2 ≠ canaryByte) →
          metric.stackPeakBytes = deepest (twoStacks 1).2 (writesOf threeSlices 1)) :=
  ⟨by decide, fwTaskMonitor_tracksStacks twoStacks_apart
    (List.forall_mem_cons.mpr ⟨by decide, List.forall_mem_singleton.mpr (by decide)⟩)
    (fun _ => 0) (by decide) List.mem_cons_self ⟨[], [2, 1], rfl, List.not_mem_nil, by decide⟩⟩

end Tasks

end ZeroEmbedded.Monitor
