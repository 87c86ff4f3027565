import ZeroEmbedded.Foundation.KeyedFold
import ZeroEmbedded.Types

/-!
# The task monitor

The table of `monitor.c` with the metrics of the tasks. A slice of runtime is
added to the entry of its task, and the first slices of a task make the entry
while there is room.

## Implementation notes

The table ends at `s_metric_count`. The pointer that `fw_task_monitor_get` writes
to is not null.
-/

namespace ZeroEmbedded.Monitor

open Foundation

/-- `FW_MONITOR_MAX_TASKS`. -/
def fwMonitorMaxTasks : Nat := 16

/-- `fw_task_metric_t`. -/
structure FwTaskMetric where
  taskId : UInt32
  totalRuntimeUs : UInt32
  executionCount : UInt32
  stackSize : Nat
  stackPeakBytes : Nat
  deriving DecidableEq, Repr

/-- The arguments of `fw_task_monitor_record`. -/
structure TaskSlice where
  taskId : UInt32
  runtimeUs : UInt32
  peakStack : Nat
  deriving DecidableEq, Repr

/-- The entry of a task with one more slice. -/
def FwTaskMetric.add (m : FwTaskMetric) (slice : TaskSlice) : FwTaskMetric :=
  { m with
    totalRuntimeUs := m.totalRuntimeUs + slice.runtimeUs
    executionCount := m.executionCount + 1
    stackPeakBytes :=
      if slice.peakStack > m.stackPeakBytes then slice.peakStack else m.stackPeakBytes }

/-- The entry that a first slice makes. -/
def FwTaskMetric.first (slice : TaskSlice) : FwTaskMetric :=
  ⟨slice.taskId, slice.runtimeUs, 1, 0, slice.peakStack⟩

/-- The loop of `fw_task_monitor_record`: the table with the slice added, if the task has an
entry. -/
def recordLoop (slice : TaskSlice) : List FwTaskMetric → Option (List FwTaskMetric)
  | [] => none
  | m :: rest =>
      if m.taskId = slice.taskId then some (m.add slice :: rest)
      else (recordLoop slice rest).map (m :: ·)

/-- `fw_task_monitor_record`. -/
def fwTaskMonitorRecord (slice : TaskSlice) (metrics : List FwTaskMetric) :
    FwStatus × List FwTaskMetric :=
  match recordLoop slice metrics with
  | some updated => (.ok, updated)
  | none =>
      if metrics.length ≥ fwMonitorMaxTasks then (.errBufferOverflow, metrics)
      else (.ok, metrics ++ [.first slice])

/-- `fw_task_monitor_get`. -/
def fwTaskMonitorGet (taskId : UInt32) (metrics : List FwTaskMetric) :
    Except FwStatus FwTaskMetric :=
  match metrics.find? fun m => m.taskId = taskId with
  | some m => .ok m
  | none => .error .errNotFound

/-- `fw_task_monitor_reset`. -/
def fwTaskMonitorReset : List FwTaskMetric := []

/-- The table after a reset and these slices. -/
def recordAll (slices : List TaskSlice) : List FwTaskMetric :=
  slices.foldl (fun metrics slice => (fwTaskMonitorRecord slice metrics).2) fwTaskMonitorReset

section Totals

/-- The task is one of the first that were recorded, as many as there is room for. -/
def HasEntry (slices : List TaskSlice) (taskId : UInt32) : Prop :=
  AmongFirst fwMonitorMaxTasks (slices.map (·.taskId)) taskId

/-- The slices of a task. -/
def slicesOf (slices : List TaskSlice) (taskId : UInt32) : List TaskSlice :=
  slices.filter fun slice => slice.taskId = taskId

def runtimeOf (slices : List TaskSlice) (taskId : UInt32) : Nat :=
  ((slicesOf slices taskId).map fun slice => slice.runtimeUs.toNat).sum

/-- The totals of a task, whatever their size. -/
structure Totals (slices : List TaskSlice) (taskId : UInt32) (m : FwTaskMetric) : Prop where
  task : m.taskId = taskId
  runtime : m.totalRuntimeUs.toNat = runtimeOf slices taskId
  count : m.executionCount.toNat = (slicesOf slices taskId).length
  peak : IsGreatest {bytes | ∃ slice ∈ slicesOf slices taskId, slice.peakStack = bytes}
    m.stackPeakBytes

/-- The first tasks have their totals in the table, the others are not found, and a slice is refused
exactly when it is of a new task and as many tasks as there is room for have been recorded. -/
structure Faithful (slices : List TaskSlice) : Prop where
  totals : ∀ taskId, HasEntry slices taskId →
    ∃ m, fwTaskMonitorGet taskId (recordAll slices) = .ok m ∧ Totals slices taskId m
  others : ∀ taskId, ¬ HasEntry slices taskId →
    fwTaskMonitorGet taskId (recordAll slices) = .error .errNotFound
  overflow : ∀ slice,
    fwTaskMonitorRecord slice (recordAll slices) = (.errBufferOverflow, recordAll slices) ↔
      ¬ HasEntry slices slice.taskId ∧
        fwMonitorMaxTasks ≤ (slices.map (·.taskId)).toFinset.card

end Totals

section Table

/-- The metrics as accumulators by tasks. -/
def taskFold : KeyedFold TaskSlice UInt32 FwTaskMetric where
  key := TaskSlice.taskId
  entryKey := FwTaskMetric.taskId
  start := FwTaskMetric.first
  add := FwTaskMetric.add
  entryKey_start _ := rfl
  entryKey_add _ _ := rfl

variable {slices : List TaskSlice} {taskId : UInt32} {m : FwTaskMetric}

theorem recordLoop_eq (slice : TaskSlice) (metrics : List FwTaskMetric) :
    recordLoop slice metrics = taskFold.addToEntry slice metrics := by
  induction metrics with
  | nil => rfl
  | cons m rest ih =>
      rw [recordLoop, KeyedFold.addToEntry, ih]
      rfl

theorem fwTaskMonitorRecord_metrics (slice : TaskSlice) (metrics : List FwTaskMetric) :
    (fwTaskMonitorRecord slice metrics).2 = taskFold.record fwMonitorMaxTasks slice metrics := by
  rw [fwTaskMonitorRecord, KeyedFold.record, recordLoop_eq]
  cases taskFold.addToEntry slice metrics with
  | some updated => rfl
  | none =>
      dsimp only
      split
      · rfl
      · rfl

theorem recordAll_tabulates (slices : List TaskSlice) :
    taskFold.Tabulates fwMonitorMaxTasks slices (recordAll slices) := by
  rw [recordAll]
  simp only [fwTaskMonitorRecord_metrics]
  exact KeyedFold.tabulates_foldl fwMonitorMaxTasks slices

theorem FwTaskMetric.add_peak (m : FwTaskMetric) (slice : TaskSlice) :
    (m.add slice).stackPeakBytes = max m.stackPeakBytes slice.peakStack := by
  rw [FwTaskMetric.add]
  dsimp only
  split <;> omega

theorem isGreatest_peaks_concat {peak : Nat} (slice : TaskSlice)
    (h : IsGreatest {bytes | ∃ other ∈ slices, other.peakStack = bytes} peak) :
    IsGreatest {bytes | ∃ other ∈ slices ++ [slice], other.peakStack = bytes}
      (max peak slice.peakStack) := by
  have hpeaks : {bytes | ∃ other ∈ slices ++ [slice], other.peakStack = bytes} =
      insert slice.peakStack {bytes | ∃ other ∈ slices, other.peakStack = bytes} := by
    ext bytes
    constructor
    · rintro ⟨other, hother, rfl⟩
      rcases List.mem_append.mp hother with hother | hother
      · exact Or.inr ⟨other, hother, rfl⟩
      · rw [List.mem_singleton.mp hother]
        exact Or.inl rfl
    · rintro (rfl | ⟨other, hother, rfl⟩)
      · exact ⟨slice, List.mem_append_right _ List.mem_cons_self, rfl⟩
      · exact ⟨other, List.mem_append_left _ hother, rfl⟩
  rw [hpeaks, max_comm]
  exact h.insert slice.peakStack

/-- The entry for some slices has their totals modulo the width of its counters. -/
theorem tally_totals {slices : List TaskSlice} (htally : taskFold.tally slices = some m) :
    m.totalRuntimeUs.toNat = (slices.map fun slice => slice.runtimeUs.toNat).sum % 2 ^ 32 ∧
      m.executionCount.toNat = slices.length % 2 ^ 32 ∧
      IsGreatest {bytes | ∃ slice ∈ slices, slice.peakStack = bytes} m.stackPeakBytes := by
  induction slices using List.reverseRecOn generalizing m with
  | nil => cases htally
  | append_singleton slices slice ih =>
      rw [KeyedFold.tally_concat] at htally
      rw [List.map_append, List.sum_append, List.map_singleton, List.sum_singleton,
        List.length_append, List.length_singleton]
      cases hbefore : taskFold.tally slices with
      | none =>
          rw [hbefore] at htally
          obtain rfl : slices = [] := KeyedFold.tally_eq_none_iff.mp hbefore
          obtain rfl : FwTaskMetric.first slice = m := Option.some_inj.mp htally
          rw [List.map_nil, List.sum_nil, Nat.zero_add]
          refine ⟨(Nat.mod_eq_of_lt slice.runtimeUs.toNat_lt).symm, rfl,
            ⟨slice, List.mem_cons_self, rfl⟩, ?_⟩
          rintro bytes ⟨other, hother, rfl⟩
          rw [List.mem_singleton.mp hother]
          exact Nat.le_refl _
      | some before =>
          rw [hbefore] at htally
          obtain rfl : before.add slice = m := Option.some_inj.mp htally
          obtain ⟨hruntime, hcount, hpeak⟩ := ih hbefore
          have hone : (1 : UInt32).toNat = 1 := rfl
          refine ⟨?_, ?_, ?_⟩
          · rw [FwTaskMetric.add, UInt32.toNat_add, hruntime, Nat.mod_add_mod]
          · rw [FwTaskMetric.add, UInt32.toNat_add, hcount, hone, Nat.mod_add_mod]
          · rw [FwTaskMetric.add_peak]
            exact isGreatest_peaks_concat slice hpeak

theorem fwTaskMonitorGet_of_mem (hmem : m ∈ recordAll slices) :
    fwTaskMonitorGet m.taskId (recordAll slices) = .ok m := by
  have hnodup := (recordAll_tabulates slices).nodup
  cases hfind : (recordAll slices).find? fun other => other.taskId = m.taskId with
  | none =>
      exact absurd (decide_eq_true rfl) (List.find?_eq_none.mp hfind m hmem)
  | some other =>
      have hfound := List.find?_some hfind
      have hsame : other.taskId = m.taskId := of_decide_eq_true hfound
      have hother : other ∈ recordAll slices := List.mem_of_find?_eq_some hfind
      rw [fwTaskMonitorGet, hfind, List.inj_on_of_nodup_map hnodup hother hmem hsame]

theorem fwTaskMonitorGet_of_not_mem (hnew : taskId ∉ (recordAll slices).map (·.taskId)) :
    fwTaskMonitorGet taskId (recordAll slices) = .error .errNotFound := by
  have hfind : ((recordAll slices).find? fun m => m.taskId = taskId) = none := by
    apply List.find?_eq_none.mpr
    intro m hm heq
    exact hnew (List.mem_map.mpr ⟨m, hm, of_decide_eq_true heq⟩)
  rw [fwTaskMonitorGet, hfind]

/-- The entry of a task has its totals modulo the width of the counters. -/
theorem fwTaskMonitorGet_entry (h : HasEntry slices taskId) :
    ∃ m, fwTaskMonitorGet taskId (recordAll slices) = .ok m ∧ m.taskId = taskId ∧
      m.totalRuntimeUs.toNat = runtimeOf slices taskId % 2 ^ 32 ∧
      m.executionCount.toNat = (slicesOf slices taskId).length % 2 ^ 32 ∧
      IsGreatest {bytes | ∃ slice ∈ slicesOf slices taskId, slice.peakStack = bytes}
        m.stackPeakBytes := by
  have htable := recordAll_tabulates slices
  obtain ⟨m, hm, rfl⟩ := List.mem_map.mp ((htable.keys taskId).mpr h)
  exact ⟨m, fwTaskMonitorGet_of_mem hm, rfl, tally_totals (htable.entry m hm)⟩

theorem fwTaskMonitorRecord_overflow_iff (slices : List TaskSlice) (slice : TaskSlice) :
    fwTaskMonitorRecord slice (recordAll slices) = (.errBufferOverflow, recordAll slices) ↔
      ¬ HasEntry slices slice.taskId ∧
        fwMonitorMaxTasks ≤ (slices.map (·.taskId)).toFinset.card := by
  have htable := recordAll_tabulates slices
  have hlength : (recordAll slices).length =
      min fwMonitorMaxTasks (slices.map (·.taskId)).toFinset.card := htable.length
  rw [fwTaskMonitorRecord, recordLoop_eq]
  cases hadd : taskFold.addToEntry slice (recordAll slices) with
  | some updated =>
      obtain ⟨before, m, after, hsplit, hm, -⟩ := KeyedFold.addToEntry_some hadd
      have hmem : m ∈ recordAll slices := hsplit ▸ List.mem_append_right _ List.mem_cons_self
      have hentry : HasEntry slices slice.taskId :=
        (htable.keys _).mp (List.mem_map.mpr ⟨m, hmem, hm⟩)
      exact iff_of_false (fun heq => nomatch congrArg Prod.fst heq) fun hnew => hnew.1 hentry
  | none =>
      have hnew : ¬ HasEntry slices slice.taskId := fun hentry =>
        KeyedFold.addToEntry_none hadd ((htable.keys _).mpr hentry)
      dsimp only
      split
      · exact iff_of_true rfl ⟨hnew, by omega⟩
      · exact iff_of_false (fun heq => nomatch congrArg Prod.fst heq) fun hfull => by omega

/-- The monitor is faithful for some slices if and only if no total of a task with an entry exceeds
its counter. -/
theorem fwTaskMonitor_faithful_iff (slices : List TaskSlice) :
    Faithful slices ↔ ∀ taskId, HasEntry slices taskId →
      runtimeOf slices taskId < 2 ^ 32 ∧ (slicesOf slices taskId).length < 2 ^ 32 := by
  constructor
  · intro h taskId hentry
    obtain ⟨m, -, htotals⟩ := h.totals taskId hentry
    rw [← htotals.runtime, ← htotals.count]
    exact ⟨m.totalRuntimeUs.toNat_lt, m.executionCount.toNat_lt⟩
  · intro hbound
    constructor
    · intro taskId hentry
      obtain ⟨m, hget, htask, hruntime, hcount, hpeak⟩ := fwTaskMonitorGet_entry hentry
      obtain ⟨hruntimeLt, hcountLt⟩ := hbound taskId hentry
      rw [Nat.mod_eq_of_lt hruntimeLt] at hruntime
      rw [Nat.mod_eq_of_lt hcountLt] at hcount
      exact ⟨m, hget, htask, hruntime, hcount, hpeak⟩
    · intro taskId hother
      apply fwTaskMonitorGet_of_not_mem
      exact fun hmem => hother (((recordAll_tabulates slices).keys taskId).mp hmem)
    · exact fwTaskMonitorRecord_overflow_iff slices

/-- Two slices of a task that together reach `2 ^ 32` microseconds, about 72 minutes. -/
def longSlices : List TaskSlice := [⟨1, 0xFFFFFFFF, 64⟩, ⟨1, 1, 32⟩]

/-- The total of the task is lost. -/
theorem fwTaskMonitor_total_wraps : ¬ ∀ slices, Faithful slices := by
  intro hclaim
  have hentry : HasEntry longSlices 1 := ⟨[], [1], rfl, List.not_mem_nil, by decide⟩
  obtain ⟨m, hget, htotals⟩ := (hclaim longSlices).totals 1 hentry
  have hreported : fwTaskMonitorGet 1 (recordAll longSlices) = .ok ⟨1, 0, 2, 0, 64⟩ := rfl
  rw [hreported] at hget
  obtain rfl := Except.ok.inj hget
  exact absurd htotals.runtime (by decide)

end Table

end ZeroEmbedded.Monitor
