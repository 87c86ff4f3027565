import ZeroEmbedded.Foundation.Selection

/-!
# Filters for sensor samples

The functions of `filter.h` and `filter.c`: the moving averages with a right
shift, the medians of three and of five samples, and the debouncer.

## Implementation notes

The differences of the averages are integers, and their right shift rounds
toward minus infinity. The pointer to a debouncer is not null.
-/

namespace ZeroEmbedded.Filter

open Foundation

section MovingAverage

variable {α : Type}

/-- `current + ((sample - current) >> shift)`, in front of the narrowing cast. -/
def emaValue (current sample : Int) (alphaShift : Nat) : Int :=
  current + (sample - current) >>> alphaShift

/-- `fw_filter_ema_u16`. -/
def fwFilterEmaU16 (currentEma newSample : UInt16) (alphaShift : UInt8) : UInt16 :=
  UInt16.ofInt (emaValue currentEma.toNat newSample.toNat alphaShift.toNat)

/-- `fw_filter_ema_i32`. -/
def fwFilterEmaI32 (currentEma newSample : Int32) (alphaShift : UInt8) : Int32 :=
  Int32.ofInt (emaValue currentEma.toInt newSample.toInt alphaShift.toNat)

/-- A sample and a shift that C defines for `int32_t`. -/
structure EmaInput (α : Type) where
  sample : α
  alphaShift : UInt8
  alphaShift_le : alphaShift.toNat ≤ 31

/-- The output of an average after these inputs. -/
def emaRun (step : α → α → UInt8 → α) (initial : α) (inputs : List (EmaInput α)) : α :=
  inputs.foldl (fun ema input => step ema input.sample input.alphaShift) initial

/-- The number is not outside the least and the greatest of these values. -/
def Between (value : α → Int) (seen : List α) (y : Int) : Prop :=
  (∃ low ∈ seen, value low ≤ y) ∧ ∃ high ∈ seen, y ≤ value high

/-- The average stays between the values seen, the arithmetic in the wider type with this many bits
besides the sign is exact, the cast keeps the value, and an update is monotone. -/
structure EmaSound (value : α → Int) (bits : Nat) (step : α → α → UInt8 → α) : Prop where
  between : ∀ initial (inputs : List (EmaInput α)),
    Between value (initial :: inputs.map (·.sample)) (value (emaRun step initial inputs))
  exact : ∀ current (input : EmaInput α), ∀ z ∈ [value input.sample - value current,
    emaValue (value current) (value input.sample) input.alphaShift.toNat],
      -2 ^ bits ≤ z ∧ z < 2 ^ bits
  narrowing : ∀ current (input : EmaInput α), value (step current input.sample input.alphaShift) =
    emaValue (value current) (value input.sample) input.alphaShift.toNat
  monotone : ∀ {current current' sample sample'} {alphaShift : UInt8}, alphaShift.toNat ≤ 31 →
    value current ≤ value current' → value sample ≤ value sample' →
    value (step current sample alphaShift) ≤ value (step current' sample' alphaShift)

theorem emaValue_eq (current sample : Int) (alphaShift : Nat) :
    emaValue current sample alphaShift = current + (sample - current) / 2 ^ alphaShift := by
  rw [emaValue, Int.shiftRight_eq_div_pow, Int.natCast_pow]
  rfl

/-- The average moves toward the sample and not beyond it. -/
theorem emaValue_between (current sample : Int) (alphaShift : Nat) :
    min current sample ≤ emaValue current sample alphaShift ∧
      emaValue current sample alphaShift ≤ max current sample := by
  rw [emaValue_eq]
  have hpos : (0 : Int) < 2 ^ alphaShift := Int.pow_pos (by decide)
  rcases Int.le_total current sample with hle | hle
  · have hdiff : 0 ≤ sample - current := Int.sub_nonneg_of_le hle
    have hlow := Int.ediv_nonneg hdiff (Int.le_of_lt hpos)
    have hhigh := Int.ediv_le_self (2 ^ alphaShift) hdiff
    omega
  · have hdiff : sample - current ≤ 0 := Int.sub_nonpos_of_le hle
    have hlow : sample - current ≤ (sample - current) / 2 ^ alphaShift := by
      apply (Int.le_ediv_iff_mul_le hpos).mpr
      calc
        (sample - current) * 2 ^ alphaShift ≤ (sample - current) * 1 :=
          Int.mul_le_mul_of_nonpos_left hdiff hpos
        _ = sample - current := Int.mul_one _
    have hhigh := Int.ediv_le_ediv hpos hdiff
    rw [Int.zero_ediv] at hhigh
    omega

theorem emaValue_mono {current current' sample sample' : Int} (hcurrent : current ≤ current')
    (hsample : sample ≤ sample') (alphaShift : Nat) :
    emaValue current sample alphaShift ≤ emaValue current' sample' alphaShift := by
  rw [emaValue_eq, emaValue_eq]
  have hpos : (0 : Int) < 2 ^ alphaShift := Int.pow_pos (by decide)
  -- a greater previous value loses at most what it gains
  have hstep : (sample - current) / 2 ^ alphaShift ≤
      (sample' - current') / 2 ^ alphaShift + (current' - current) := by
    rw [← Int.add_mul_ediv_right _ _ (Int.ne_of_gt hpos)]
    apply Int.ediv_le_ediv hpos
    have hgain : (current' - current) * 1 ≤ (current' - current) * 2 ^ alphaShift :=
      Int.mul_le_mul_of_nonneg_left hpos (Int.sub_nonneg_of_le hcurrent)
    omega
  omega

/-- A number between a value seen before and a new one is between the values seen now. -/
theorem Between.concat {value : α → Int} {seen : List α} {y z : Int} {sample : α}
    (h : Between value seen y) (hlow : min y (value sample) ≤ z)
    (hhigh : z ≤ max y (value sample)) : Between value (seen ++ [sample]) z := by
  obtain ⟨⟨low, hmemLow, hy⟩, high, hmemHigh, hy'⟩ := h
  have hnew : sample ∈ seen ++ [sample] := List.mem_append_right _ List.mem_cons_self
  constructor
  · rcases min_le_iff.mp hlow with hle | hle
    · exact ⟨low, List.mem_append_left _ hmemLow, hy.trans hle⟩
    · exact ⟨sample, hnew, hle⟩
  · rcases le_max_iff.mp hhigh with hle | hle
    · exact ⟨high, List.mem_append_left _ hmemHigh, hle.trans hy'⟩
    · exact ⟨sample, hnew, hle⟩

theorem emaRun_concat (step : α → α → UInt8 → α) (initial : α) (inputs : List (EmaInput α))
    (next : EmaInput α) : emaRun step initial (inputs ++ [next]) =
      step (emaRun step initial inputs) next.sample next.alphaShift :=
  List.foldl_append

/-- An average is sound when its cast keeps the value and the wider type has room for a
difference. -/
theorem EmaSound.of_narrowing {value : α → Int} {bits : Nat} {step : α → α → UInt8 → α}
    {bound : Int} (hvalue : ∀ x, -bound ≤ value x ∧ value x < bound) (hbits : 2 * bound ≤ 2 ^ bits)
    (hcast : ∀ current sample (alphaShift : UInt8), value (step current sample alphaShift) =
      emaValue (value current) (value sample) alphaShift.toNat) : EmaSound value bits step := by
  constructor
  · intro initial inputs
    induction inputs using List.reverseRecOn with
    | nil => exact ⟨⟨initial, List.mem_cons_self, le_rfl⟩, initial, List.mem_cons_self, le_rfl⟩
    | append_singleton inputs next ih =>
        obtain ⟨hlow, hhigh⟩ := emaValue_between (value (emaRun step initial inputs))
          (value next.sample) next.alphaShift.toNat
        rw [emaRun_concat, hcast, List.map_append]
        exact ih.concat hlow hhigh
  · intro current input z hz
    obtain ⟨hlow, hhigh⟩ := emaValue_between (value current) (value input.sample)
      input.alphaShift.toNat
    have hcurrent := hvalue current
    have hsample := hvalue input.sample
    rcases List.mem_cons.mp hz with rfl | hz
    · omega
    · rw [List.mem_singleton.mp hz]
      omega
  · exact fun current input => hcast current input.sample input.alphaShift
  · intro current current' sample sample' alphaShift _ hcurrent hsample
    rw [hcast, hcast]
    exact emaValue_mono hcurrent hsample _

theorem toNat_ofInt_of_between {z : Int} (hlow : 0 ≤ z) (hhigh : z < 2 ^ 16) :
    ((UInt16.ofInt z).toNat : Int) = z := by
  rw [UInt16.ofInt, UInt16.toNat_ofNat', Int.emod_eq_of_lt hlow hhigh]
  omega

/-- Both averages stay in range, and are monotone. -/
theorem fwFilterEma_sound : EmaSound (fun x : UInt16 => (x.toNat : Int)) 31 fwFilterEmaU16 ∧
    EmaSound Int32.toInt 63 fwFilterEmaI32 := by
  constructor
  · have hvalue : ∀ x : UInt16, -(2 ^ 16 : Int) ≤ x.toNat ∧ (x.toNat : Int) < 2 ^ 16 := by
      intro x
      have hx := x.toNat_lt
      omega
    refine EmaSound.of_narrowing hvalue (by decide) fun current sample alphaShift => ?_
    obtain ⟨hlow, hhigh⟩ := emaValue_between current.toNat sample.toNat alphaShift.toNat
    have hcurrent := hvalue current
    have hsample := hvalue sample
    exact toNat_ofInt_of_between (by omega) (by omega)
  · have hvalue : ∀ x : Int32, -(2 ^ 31 : Int) ≤ x.toInt ∧ x.toInt < 2 ^ 31 := fun x =>
      ⟨x.le_toInt, x.toInt_lt⟩
    refine EmaSound.of_narrowing hvalue (by decide) fun current sample alphaShift => ?_
    obtain ⟨hlow, hhigh⟩ := emaValue_between current.toInt sample.toInt alphaShift.toNat
    have hcurrent := hvalue current
    have hsample := hvalue sample
    exact Int32.toInt_ofInt_of_le (by omega) (by omega)

/-- A difference below zero moves the average by at least one. -/
example : fwFilterEmaU16 1000 2000 1 = 1500 ∧ fwFilterEmaU16 1000 999 31 = 999 ∧
    fwFilterEmaU16 999 1000 31 = 999 ∧ fwFilterEmaI32 0 (-5) 1 = -3 := by decide

end MovingAverage

section Median

instance instLinearOrderUInt16 : LinearOrder UInt16 where
  le_refl := UInt16.le_refl
  le_trans _ _ _ := UInt16.le_trans
  le_antisymm _ _ := UInt16.le_antisymm
  le_total := UInt16.le_total
  lt_iff_le_not_ge a b := by
    rw [UInt16.lt_iff_toNat_lt, UInt16.le_iff_toNat_le, UInt16.le_iff_toNat_le]
    omega
  toDecidableLE := inferInstance

/-- `fw_filter_median3_u16`. -/
def fwFilterMedian3U16 (a b c : UInt16) : UInt16 :=
  if a ≤ b ∧ b ≤ c then b
  else if a ≤ c ∧ c ≤ b then c
  else if b ≤ a ∧ a ≤ c then a
  else if b ≤ c ∧ c ≤ a then c
  else if c ≤ a ∧ a ≤ b then a
  else b

/-- `SWAP_IF_GREATER`. -/
def swapIfGreater (a b : UInt16) : UInt16 × UInt16 := if a > b then (b, a) else (a, b)

/-- `fw_filter_median5_u16`. -/
def fwFilterMedian5U16 (s0 s1 s2 s3 s4 : UInt16) : UInt16 :=
  let (s0, s1) := swapIfGreater s0 s1
  let (s2, s3) := swapIfGreater s2 s3
  let (s0, s2) := swapIfGreater s0 s2
  let (s1, s3) := swapIfGreater s1 s3
  let (s1, s2) := swapIfGreater s1 s2
  let (_s0, s4) := swapIfGreater s0 s4
  let (_s1, s4) := swapIfGreater s1 s4
  let (s2, _s4) := swapIfGreater s2 s4
  let (s2, _s3) := swapIfGreater s2 s3
  s2

/-- The wires that `fw_filter_median5_u16` compares. -/
def medianNetwork : List (Comparator 5) :=
  [⟨0, 1⟩, ⟨2, 3⟩, ⟨0, 2⟩, ⟨1, 3⟩, ⟨1, 2⟩, ⟨0, 4⟩, ⟨1, 4⟩, ⟨2, 4⟩, ⟨2, 3⟩]

/-- The filter takes the element of a rank. So its result is a sample, it does not depend on the
order, and it stays between the samples that are not replaced when few are. -/
structure RankFilter {n : ℕ} (filter : (Fin n → UInt16) → UInt16) (rank : Fin n) : Prop where
  exact : ∀ v, filter v = orderStatistic v rank
  mem : ∀ v : Fin n → UInt16, ∃ i, filter v = v i
  perm : ∀ v (σ : Equiv.Perm (Fin n)), filter (v ∘ σ) = filter v
  robust : ∀ (v v' : Fin n → UInt16) (replaced : Finset (Fin n)), replaced.card ≤ rank →
    (∀ i ∉ replaced, v' i = v i) → (∃ i ∉ replaced, v i ≤ filter v') ∧
      ∃ i ∉ replaced, filter v' ≤ v i

/-- A filter in the middle of its samples. -/
theorem RankFilter.of_exact {n : ℕ} {filter : (Fin n → UInt16) → UInt16} {rank : Fin n}
    (hmiddle : (rank : ℕ) + rank < n) (hexact : ∀ v, filter v = orderStatistic v rank) :
    RankFilter filter rank := by
  constructor
  · exact hexact
  · exact fun v => ⟨Tuple.sort v rank, hexact v⟩
  · intro v σ
    rw [hexact, hexact, orderStatistic_perm]
  · intro v v' replaced hcard hsame
    rw [hexact]
    exact ⟨exists_le_orderStatistic hcard hsame,
      exists_orderStatistic_le (by omega) hsame⟩

theorem fwFilterMedian3U16_eq (v : Fin 3 → UInt16) :
    fwFilterMedian3U16 (v 0) (v 1) (v 2) = orderStatistic v 1 := by
  apply eq_orderStatistic
  intro t
  have hrank : ((1 : Fin 3) : ℕ) = 1 := rfl
  rw [Finset.card_filter, Fin.sum_univ_three, fwFilterMedian3U16, hrank]
  simp only [UInt16.le_iff_toNat_le]
  split_ifs <;> omega

theorem swapIfGreater_eq (a b : UInt16) : swapIfGreater a b = (min a b, max a b) := by
  rw [swapIfGreater]
  split
  · next hgt => rw [min_eq_right (le_of_lt hgt), max_eq_left (le_of_lt hgt)]
  · next hle =>
      have hle := not_lt.mp hle
      rw [min_eq_left hle, max_eq_right hle]

theorem medianNetwork_bits (b : Fin 5 → Bool) : runNetwork medianNetwork b 2 = false ↔
    ((2 : Fin 5) : ℕ) < (Finset.univ.filter fun i => b i = false).card := by
  revert b
  decide +kernel

theorem fwFilterMedian5U16_eq (v : Fin 5 → UInt16) :
    fwFilterMedian5U16 (v 0) (v 1) (v 2) (v 3) (v 4) = orderStatistic v 2 := by
  have hnetwork : fwFilterMedian5U16 (v 0) (v 1) (v 2) (v 3) (v 4) =
      runNetwork medianNetwork v 2 := by
    simp only [fwFilterMedian5U16, swapIfGreater_eq]
    rfl
  exact hnetwork.trans (runNetwork_selects medianNetwork_bits v)

/-- The medians take the second smallest of three and the third smallest of five samples. -/
theorem fwFilterMedian_exact :
    RankFilter (fun v : Fin 3 → UInt16 => fwFilterMedian3U16 (v 0) (v 1) (v 2)) 1 ∧
      RankFilter (fun v : Fin 5 → UInt16 =>
        fwFilterMedian5U16 (v 0) (v 1) (v 2) (v 3) (v 4)) 2 :=
  ⟨.of_exact (by decide) fwFilterMedian3U16_eq, .of_exact (by decide) fwFilterMedian5U16_eq⟩

end Median

section Debounce

/-- `fw_debounce_t`. -/
structure FwDebounce where
  counter : UInt16
  threshold : UInt16
  debouncedState : Bool
  deriving DecidableEq, Repr

/-- `fw_debounce_init`. -/
def fwDebounceInit (threshold : UInt16) (initialState : Bool) : FwDebounce :=
  ⟨0, if threshold > 0 then threshold else 1, initialState⟩

/-- `fw_debounce_update`. -/
def fwDebounceUpdate (db : FwDebounce) (rawSample : Bool) : Bool × FwDebounce :=
  if rawSample = db.debouncedState then (false, { db with counter := 0 })
  else if db.counter + 1 ≥ db.threshold then
    (true, { db with debouncedState := rawSample, counter := 0 })
  else (false, { db with counter := db.counter + 1 })

/-- A sample and the result of its update. -/
structure DebounceEvent where
  sample : Bool
  flipped : Bool
  deriving DecidableEq, Repr

/-- The updates for these samples, and the debouncer behind them. -/
def debounceRun (db : FwDebounce) (samples : List Bool) : List DebounceEvent × FwDebounce :=
  samples.foldl (fun run sample =>
    (run.1 ++ [⟨sample, (fwDebounceUpdate run.2 sample).1⟩], (fwDebounceUpdate run.2 sample).2))
    ([], db)

/-- The last `window` samples, the next one among them, differ from the state, and come behind the
last flip. -/
def Confirmed (window : Nat) (state : Bool) (history : List DebounceEvent) (next : Bool) : Prop :=
  next ≠ state ∧ ∃ earlier recent, history = earlier ++ recent ∧ recent.length + 1 = window ∧
    ∀ e ∈ recent, e.sample ≠ state ∧ e.flipped = false

/-- The last samples that differ from the state. -/
def streak (state : Bool) (history : List DebounceEvent) : List DebounceEvent :=
  history.rtakeWhile fun e => e.sample ≠ state

/-- The counter is the length of the streak, in which no update flipped the state. -/
structure Counts (window : Nat) (history : List DebounceEvent) (db : FwDebounce) : Prop where
  threshold : db.threshold.toNat = window
  counter : db.counter.toNat = (streak db.debouncedState history).length
  below : db.counter.toNat < window
  steady : ∀ e ∈ streak db.debouncedState history, e.flipped = false

variable {window : Nat} {state next : Bool} {db : FwDebounce}
  {history recent : List DebounceEvent}

theorem sample_ne_of_mem_streak {e : DebounceEvent} (he : e ∈ streak state history) :
    e.sample ≠ state :=
  of_decide_eq_true (List.mem_rtakeWhile_imp (p := fun e : DebounceEvent => e.sample ≠ state) he)

theorem streak_concat_self (history : List DebounceEvent) (state flipped : Bool) :
    streak state (history ++ [⟨state, flipped⟩]) = [] :=
  List.rtakeWhile_concat_neg _ _ _ (by simp)

theorem streak_concat_of_ne {flipped : Bool} (hnext : next ≠ state) :
    streak state (history ++ [⟨next, flipped⟩]) = streak state history ++ [⟨next, flipped⟩] :=
  List.rtakeWhile_concat_pos _ _ _ (decide_eq_true hnext)

/-- Samples at the end that differ from the state are in the streak. -/
theorem suffix_streak (earlier : List DebounceEvent) (hrecent : ∀ e ∈ recent, e.sample ≠ state) :
    recent <:+ streak state (earlier ++ recent) := by
  induction recent using List.reverseRecOn with
  | nil => exact List.nil_suffix
  | append_singleton recent e ih =>
      have hlast : e.sample ≠ state := hrecent e (List.mem_append_right _ List.mem_cons_self)
      have hrest := ih fun e he => hrecent e (List.mem_append_left _ he)
      rw [← List.append_assoc, streak_concat_of_ne hlast]
      obtain ⟨front, hfront⟩ := hrest
      exact ⟨front, by rw [← hfront, List.append_assoc]⟩

/-- The window is confirmed when the streak and the next sample fill it. -/
theorem Counts.confirmed_iff (h : Counts window history db) :
    Confirmed window db.debouncedState history next ↔
      next ≠ db.debouncedState ∧ window = db.counter.toNat + 1 := by
  have hbelow := h.below
  constructor
  · rintro ⟨hnext, earlier, recent, rfl, hlength, hrecent⟩
    have hle := (suffix_streak earlier fun e he => (hrecent e he).1).length_le
    rw [← h.counter] at hle
    exact ⟨hnext, by omega⟩
  · rintro ⟨hnext, hwindow⟩
    obtain ⟨earlier, hearlier⟩ := List.rtakeWhile_suffix (l := history)
      (p := fun e : DebounceEvent => e.sample ≠ db.debouncedState)
    refine ⟨hnext, earlier, streak db.debouncedState history, hearlier.symm, ?_, ?_⟩
    · rw [← h.counter, hwindow]
    · exact fun e he => ⟨sample_ne_of_mem_streak he, h.steady e he⟩

theorem fwDebounceInit_counts (threshold : UInt16) (initialState : Bool) :
    Counts (max threshold.toNat 1) [] (fwDebounceInit threshold initialState) := by
  have hzero : (0 : UInt16).toNat = 0 := rfl
  refine ⟨?_, rfl, ?_, fun e he => absurd he List.not_mem_nil⟩
  · rw [fwDebounceInit]
    dsimp only
    split
    · next hpos =>
        have hpos' := UInt16.lt_iff_toNat_lt.mp hpos
        omega
    · next hnot =>
        have hle := UInt16.le_iff_toNat_le.mp (UInt16.not_lt.mp hnot)
        have hone : (1 : UInt16).toNat = 1 := rfl
        omega
  · exact Nat.lt_of_lt_of_le Nat.zero_lt_one (Nat.le_max_right _ _)

/-- The counter stays below the largest value of its type. -/
theorem Counts.counter_lt (h : Counts window history db) : db.counter.toNat + 1 < 2 ^ 16 := by
  have hbelow := h.below
  have hthreshold := db.threshold.toNat_lt
  rw [h.threshold] at hthreshold
  omega

theorem Counts.toNat_counter_add_one (h : Counts window history db) :
    (db.counter + 1).toNat = db.counter.toNat + 1 := by
  rw [UInt16.toNat_add]
  exact Nat.mod_eq_of_lt h.counter_lt

/-- An update flips the state exactly when it completes the window. -/
theorem Counts.update_eq (h : Counts window history db) (next : Bool) :
    fwDebounceUpdate db next =
      if next = db.debouncedState then (false, { db with counter := 0 })
      else if window = db.counter.toNat + 1 then
        (true, { db with debouncedState := next, counter := 0 })
      else (false, { db with counter := db.counter + 1 }) := by
  have hfull : db.counter + 1 ≥ db.threshold ↔ window = db.counter.toNat + 1 := by
    have hbelow := h.below
    rw [ge_iff_le, UInt16.le_iff_toNat_le, h.toNat_counter_add_one, h.threshold]
    omega
  rw [fwDebounceUpdate]
  simp only [hfull]

/-- A sample that is the state of the debouncer behind it ends the streak. -/
theorem counts_restart (hthreshold : db.threshold.toNat = window) (hpos : 0 < window)
    (history : List DebounceEvent) (flipped : Bool) :
    Counts window (history ++ [⟨state, flipped⟩])
      { db with debouncedState := state, counter := 0 } := by
  refine ⟨hthreshold, ?_, hpos, ?_⟩
  · rw [streak_concat_self]
    rfl
  · rw [streak_concat_self]
    exact fun e he => absurd he List.not_mem_nil

theorem Counts.update (h : Counts window history db) (next : Bool) :
    Counts window (history ++ [⟨next, (fwDebounceUpdate db next).1⟩])
      (fwDebounceUpdate db next).2 := by
  have hpos : 0 < window := Nat.zero_lt_of_lt h.below
  rw [h.update_eq]
  by_cases hsame : next = db.debouncedState
  · rw [if_pos hsame, hsame]
    exact counts_restart h.threshold hpos history false
  · rw [if_neg hsame]
    by_cases hfull : window = db.counter.toNat + 1
    · rw [if_pos hfull]
      exact counts_restart h.threshold hpos history true
    · rw [if_neg hfull]
      have hbelow := h.below
      refine ⟨h.threshold, ?_, ?_, ?_⟩
      · rw [streak_concat_of_ne hsame, List.length_append, List.length_singleton, ← h.counter]
        exact h.toNat_counter_add_one
      · dsimp only
        rw [h.toNat_counter_add_one]
        omega
      · rw [streak_concat_of_ne hsame]
        intro e he
        rcases List.mem_append.mp he with he | he
        · exact h.steady e he
        · rw [List.mem_singleton.mp he]

theorem debounceRun_concat (db : FwDebounce) (samples : List Bool) (next : Bool) :
    debounceRun db (samples ++ [next]) =
      ((debounceRun db samples).1 ++ [⟨next, (fwDebounceUpdate (debounceRun db samples).2 next).1⟩],
        (fwDebounceUpdate (debounceRun db samples).2 next).2) :=
  List.foldl_append

theorem debounceRun_samples (db : FwDebounce) (samples : List Bool) :
    (debounceRun db samples).1.map (·.sample) = samples := by
  induction samples using List.reverseRecOn with
  | nil => rfl
  | append_singleton samples next ih => rw [debounceRun_concat, List.map_append, ih]; rfl

theorem debounceRun_counts (threshold : UInt16) (initialState : Bool) (samples : List Bool) :
    Counts (max threshold.toNat 1) (debounceRun (fwDebounceInit threshold initialState) samples).1
      (debounceRun (fwDebounceInit threshold initialState) samples).2 := by
  induction samples using List.reverseRecOn with
  | nil => exact fwDebounceInit_counts threshold initialState
  | append_singleton samples next ih =>
      rw [debounceRun_concat]
      exact ih.update next

/-- In every run an update flips the state to the sample exactly when the window is confirmed. The
last samples that differ from the state always come behind the last flip, and the counter does not
wrap. -/
theorem fwDebounceUpdate_confirms (threshold : UInt16) (initialState : Bool) (samples : List Bool)
    (next : Bool) :
    let run := debounceRun (fwDebounceInit threshold initialState) samples
    let update := fwDebounceUpdate run.2 next
    run.1.map (·.sample) = samples ∧
      (update.1 = true ↔
        Confirmed (max threshold.toNat 1) run.2.debouncedState run.1 next) ∧
      update.2.debouncedState = (if update.1 then next else run.2.debouncedState) ∧
      (∀ earlier recent, run.1 = earlier ++ recent →
        (∀ e ∈ recent, e.sample ≠ run.2.debouncedState) → ∀ e ∈ recent, e.flipped = false) ∧
      run.2.counter.toNat + 1 < 2 ^ 16 := by
  intro run update
  have hcounts : Counts (max threshold.toNat 1) run.1 run.2 :=
    debounceRun_counts threshold initialState samples
  have hupdate : update = _ := hcounts.update_eq next
  refine ⟨debounceRun_samples _ samples, ?_, ?_, ?_, hcounts.counter_lt⟩
  · rw [hcounts.confirmed_iff, hupdate]
    split
    · next hsame => exact iff_of_false Bool.false_ne_true fun hne => hne.1 hsame
    · next hne =>
        split
        · next hfull => exact iff_of_true rfl ⟨hne, hfull⟩
        · next hnot => exact iff_of_false Bool.false_ne_true fun hfull => hnot hfull.2
  · rw [hupdate]
    split
    · rfl
    · split
      · rfl
      · rfl
  · intro earlier recent hhistory hrecent e he
    have hsuffix := suffix_streak earlier hrecent
    rw [← hhistory] at hsuffix
    exact hcounts.steady e (hsuffix.subset he)

end Debounce

end ZeroEmbedded.Filter
