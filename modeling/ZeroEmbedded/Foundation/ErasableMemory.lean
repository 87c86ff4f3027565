import Mathlib

/-!
# Byte memory with erase and program

Erasing sets cells to `0xFF`. Programming only clears bits, so an erased cell
takes the programmed byte. A region that is written from its start upwards is
described by its content: every cell past the content is still erased.
-/

namespace ZeroEmbedded.Foundation

/-- The byte of every cell. -/
abbrev Memory := Nat → UInt8

namespace Memory

/-- The `n` cells from address `a`. -/
def bytesAt (m : Memory) (a n : Nat) : List UInt8 :=
  (List.range n).map fun i => m (a + i)

/-- Set `n` cells from `a` to `0xFF`. -/
def erase (m : Memory) (a n : Nat) : Memory := fun x =>
  if a ≤ x ∧ x < a + n then 0xFF else m x

/-- Programming clears the bits that are zero in the data. -/
def program (m : Memory) (a : Nat) (data : List UInt8) : Memory := fun x =>
  if a ≤ x ∧ x < a + data.length then m x &&& data.getD (x - a) 0xFF else m x

/-- The region starts with `content` and is erased behind it. -/
structure Holds (m : Memory) (base size : Nat) (content : List UInt8) : Prop where
  fits : content.length ≤ size
  cell : ∀ i < size, m (base + i) = content.getD i 0xFF

@[simp] theorem bytesAt_length (m : Memory) (a n : Nat) : (m.bytesAt a n).length = n := by
  simp [bytesAt]

@[simp] theorem bytesAt_zero (m : Memory) (a : Nat) : m.bytesAt a 0 = [] := rfl

theorem getElem?_bytesAt (m : Memory) (a n i : Nat) :
    (m.bytesAt a n)[i]? = if i < n then some (m (a + i)) else none := by
  split
  · next h => simp [bytesAt, h]
  · next h => simp [bytesAt, h]

/-- Where two memories differ in at most `k` neighbouring cells, their bytes do. -/
theorem bytesAt_window {m m' : Memory} {p n a k j : Nat}
    (hchange : ∀ x, p ≤ x → x < p + n → m' x ≠ m x → a ≤ x ∧ x < a + k)
    (hj : (m.bytesAt p n)[j]? ≠ (m'.bytesAt p n)[j]?) : a - p ≤ j ∧ j < a - p + k := by
  rw [getElem?_bytesAt, getElem?_bytesAt] at hj
  split at hj
  · have hx := hchange (p + j) (by omega) (by omega) fun heq => hj (congrArg some heq.symm)
    omega
  · exact absurd rfl hj

/-- Two memories differ in at most two neighbouring bytes. -/
theorem bytesAt_burst {m m' : Memory} {p n a j : Nat}
    (hchange : ∀ x, p ≤ x → x < p + n → m' x ≠ m x → x = a ∨ x = a + 1)
    (hj : (m.bytesAt p n)[j]? ≠ (m'.bytesAt p n)[j]?) : j = a - p ∨ j = a - p + 1 := by
  have hwindow : ∀ x, p ≤ x → x < p + n → m' x ≠ m x → a ≤ x ∧ x < a + 2 := by
    intro x hlo hhi hx
    have htwo := hchange x hlo hhi hx
    omega
  have hin := bytesAt_window hwindow hj
  omega

@[simp] theorem getElem_bytesAt (m : Memory) (a n i : Nat) (h : i < (m.bytesAt a n).length) :
    (m.bytesAt a n)[i] = m (a + i) := by
  simp [bytesAt]

theorem bytesAt_take (m : Memory) (a n k : Nat) :
    (m.bytesAt a n).take k = m.bytesAt a (min k n) := by
  apply List.ext_getElem <;> simp

theorem bytesAt_drop (m : Memory) (a n k : Nat) :
    (m.bytesAt a n).drop k = m.bytesAt (a + k) (n - k) := by
  apply List.ext_getElem
  · simp
  · intro i _ _
    simp [Nat.add_assoc]

theorem bytesAt_append (m : Memory) (a n k : Nat) :
    m.bytesAt a (n + k) = m.bytesAt a n ++ m.bytesAt (a + n) k := by
  conv_lhs => rw [← List.take_append_drop n (m.bytesAt a (n + k))]
  rw [bytesAt_take, bytesAt_drop, Nat.min_eq_left (Nat.le_add_right n k), Nat.add_sub_cancel_left]

theorem bytesAt_congr {m m' : Memory} {a n : Nat}
    (h : ∀ x, a ≤ x → x < a + n → m x = m' x) : m.bytesAt a n = m'.bytesAt a n := by
  apply List.ext_getElem
  · simp
  · intro i hi _
    have hn : i < n := by simpa using hi
    simpa using h (a + i) (by omega) (by omega)

theorem erase_of_outside {m : Memory} {a n x : Nat} (h : x < a ∨ a + n ≤ x) :
    m.erase a n x = m x := by
  have hx : ¬ (a ≤ x ∧ x < a + n) := by omega
  simp only [erase, if_neg hx]

/-- An erase that covers only the start of a range. -/
theorem bytesAt_erase_start (m : Memory) (a k n : Nat) :
    (m.erase a k).bytesAt a n = List.replicate (min k n) 0xFF ++ (m.bytesAt a n).drop k := by
  apply List.ext_getElem
  · simp only [bytesAt_length, List.length_append, List.length_replicate, List.length_drop]
    omega
  · intro i hi _
    have hin : i < n := by simpa using hi
    rw [getElem_bytesAt, List.getElem_append]
    by_cases hk : i < k
    · have hx : a ≤ a + i ∧ a + i < a + k := by omega
      have hmin : i < min k n := by omega
      simp [erase, hx, hmin]
    · have hmin : ¬ i < min k n := by omega
      rw [erase_of_outside (by omega)]
      simp only [List.length_replicate, hmin, dif_neg, not_false_eq_true, List.getElem_drop,
        getElem_bytesAt]
      congr 1
      omega

theorem program_of_outside {m : Memory} {a x : Nat} {data : List UInt8}
    (h : x < a ∨ a + data.length ≤ x) : m.program a data x = m x := by
  have hx : ¬ (a ≤ x ∧ x < a + data.length) := by omega
  simp only [program, if_neg hx]

@[simp] theorem program_nil (m : Memory) (a : Nat) : m.program a [] = m := by
  funext x
  exact program_of_outside (by simp; omega)

theorem program_of_erased {m : Memory} {a i : Nat} {data : List UInt8}
    (hm : m (a + i) = 0xFF) (hi : i < data.length) :
    m.program a data (a + i) = data.getD i 0xFF := by
  have hx : a ≤ a + i ∧ a + i < a + data.length := by omega
  have hand : (0xFF : UInt8) &&& data.getD i 0xFF = data.getD i 0xFF := UInt8.neg_one_and
  simpa only [program, if_pos hx, hm, Nat.add_sub_cancel_left] using hand

theorem getD_append_erased (content : List UInt8) (n i : Nat) :
    (content ++ List.replicate n 0xFF).getD i 0xFF = content.getD i 0xFF := by
  simp only [List.getD_eq_getElem?_getD, List.getElem?_append]
  split
  · rfl
  · rw [List.getElem?_eq_none (by omega : content.length ≤ i), List.getElem?_replicate]
    split <;> rfl

namespace Holds

variable {m m' : Memory} {base size : Nat} {content : List UInt8}

/-- A freshly erased region holds nothing. -/
theorem erase (m : Memory) (base size : Nat) : Holds (m.erase base size) base size [] where
  fits := by simp
  cell := by
    intro i hi
    have hx : base ≤ base + i ∧ base + i < base + size := by omega
    simp [Memory.erase, hx]

/-- A region holds its own bytes. -/
theorem bytesAt (m : Memory) (base size : Nat) : Holds m base size (m.bytesAt base size) where
  fits := Nat.le_of_eq (bytesAt_length m base size)
  cell := by
    intro i hi
    have hlen : i < (m.bytesAt base size).length := by simpa using hi
    simp [List.getD_eq_getElem?_getD, List.getElem?_eq_getElem hlen]

/-- The content survives any change outside the region. -/
theorem congr (h : Holds m base size content)
    (he : ∀ x, base ≤ x → x < base + size → m' x = m x) : Holds m' base size content where
  fits := h.fits
  cell := by
    intro i hi
    rw [he (base + i) (by omega) (by omega), h.cell i hi]

theorem erase_disjoint (h : Holds m base size content) {a n : Nat}
    (hd : a + n ≤ base ∨ base + size ≤ a) : Holds (m.erase a n) base size content :=
  h.congr fun _ hl hr => erase_of_outside (by omega)

/-- Programming right behind the content extends it. -/
theorem program_append (h : Holds m base size content) {a : Nat} {data : List UInt8}
    (ha : a = base + content.length) (hfit : content.length + data.length ≤ size) :
    Holds (m.program a data) base size (content ++ data) where
  fits := by simpa using hfit
  cell := by
    subst ha
    intro i hi
    by_cases hold : i < content.length
    · rw [program_of_outside (by omega), h.cell i hi]
      simp [List.getD_eq_getElem?_getD, List.getElem?_append_left hold]
    · have hge : content.length ≤ i := by omega
      have hff : m (base + content.length + (i - content.length)) = 0xFF := by
        have hidx : base + content.length + (i - content.length) = base + i := by omega
        rw [hidx, h.cell i hi]
        simp [List.getD_eq_getElem?_getD, List.getElem?_eq_none hge]
      have hidx : base + i = base + content.length + (i - content.length) := by omega
      have hright : (content ++ data).getD i 0xFF = data.getD (i - content.length) 0xFF := by
        simp [List.getD_eq_getElem?_getD, List.getElem?_append_right hge]
      rw [hright, hidx]
      by_cases hnew : i - content.length < data.length
      · exact program_of_erased hff hnew
      · rw [program_of_outside (by omega), hff]
        simp [List.getD_eq_getElem?_getD, List.getElem?_eq_none (Nat.le_of_not_lt hnew)]

/-- Erased cells may be counted as content. -/
theorem append_erased (h : Holds m base size content) {n : Nat}
    (hfit : content.length + n ≤ size) :
    Holds m base size (content ++ List.replicate n 0xFF) where
  fits := by simpa using hfit
  cell := fun i hi => by rw [h.cell i hi, getD_append_erased]

/-- Reading a slice of the region returns the slice of the content. -/
theorem bytesAt_eq (h : Holds m base size content) {off n : Nat} (hn : off + n ≤ size) :
    m.bytesAt (base + off) n = (List.range n).map fun i => content.getD (off + i) 0xFF := by
  apply List.ext_getElem
  · simp
  · intro i hi _
    have hin : i < n := by simpa using hi
    have hidx : base + off + i = base + (off + i) := by omega
    simp [hidx, h.cell (off + i) (by omega)]

theorem bytesAt_mid {pre mid post : List UInt8} (h : Holds m base size (pre ++ mid ++ post))
    {a n : Nat} (ha : a = base + pre.length) (hn : n = mid.length) : m.bytesAt a n = mid := by
  subst ha hn
  have hfit := h.fits
  simp only [List.length_append] at hfit
  rw [h.bytesAt_eq (by omega)]
  apply List.ext_getElem
  · simp
  · intro i _ hi
    have hge : pre.length ≤ pre.length + i := by omega
    simp [List.getD_eq_getElem?_getD, List.append_assoc, List.getElem?_append_right hge,
      List.getElem?_append_left hi, hi]

/-- The start of the region is the content and then erased bytes. -/
theorem bytesAt_start (h : Holds m base size content) {n : Nat} (hc : content.length ≤ n)
    (hn : n ≤ size) :
    m.bytesAt base n = content ++ List.replicate (n - content.length) 0xFF := by
  have hall := h.append_erased (n := n - content.length) (by omega)
  rw [← List.append_nil (content ++ _), ← List.nil_append (content ++ _)] at hall
  refine hall.bytesAt_mid rfl ?_
  rw [List.length_append, List.length_replicate]
  omega

theorem bytesAt_erased (h : Holds m base size content) {a n off : Nat}
    (ha : a = base + off) (hoff : content.length ≤ off) (hn : off + n ≤ size) :
    m.bytesAt a n = List.replicate n 0xFF := by
  subst ha
  rw [h.bytesAt_eq hn]
  apply List.ext_getElem
  · simp
  · intro i hi _
    have hge : content.length ≤ off + i := by omega
    simp [List.getD_eq_getElem?_getD, List.getElem?_eq_none hge]

end Holds

section Chunks

/-- Program chunks one behind the other. -/
def programAll (m : Memory) (a : Nat) : List (List UInt8) → Memory
  | [] => m
  | c :: cs => programAll (m.program a c) (a + c.length) cs

@[simp] theorem programAll_nil (m : Memory) (a : Nat) : m.programAll a [] = m := rfl

@[simp] theorem programAll_cons (m : Memory) (a : Nat) (c : List UInt8) (cs : List (List UInt8)) :
    m.programAll a (c :: cs) = (m.program a c).programAll (a + c.length) cs := rfl

theorem programAll_append (m : Memory) (a : Nat) (cs ds : List (List UInt8)) :
    m.programAll a (cs ++ ds) = (m.programAll a cs).programAll (a + cs.flatten.length) ds := by
  induction cs generalizing m a with
  | nil => simp
  | cons c cs ih => simp [ih, Nat.add_assoc]

theorem programAll_of_outside {m : Memory} {a x : Nat} {cs : List (List UInt8)}
    (h : x < a ∨ a + cs.flatten.length ≤ x) : m.programAll a cs x = m x := by
  induction cs generalizing m a with
  | nil => rfl
  | cons c cs ih =>
      simp only [List.flatten_cons, List.length_append] at h
      rw [programAll_cons, ih (by omega), program_of_outside (by omega)]

/-- Programming chunks behind the content extends it by their concatenation. -/
theorem Holds.programAll_append {m : Memory} {base size : Nat} {content : List UInt8}
    (h : Holds m base size content) {a : Nat} {cs : List (List UInt8)}
    (ha : a = base + content.length) (hfit : content.length + cs.flatten.length ≤ size) :
    Holds (m.programAll a cs) base size (content ++ cs.flatten) := by
  induction cs generalizing m a content with
  | nil => simpa using h
  | cons c cs ih =>
      simp only [List.flatten_cons, List.length_append] at hfit
      have hc := h.program_append ha (by omega : content.length + c.length ≤ size)
      have hnext : a + c.length = base + (content ++ c).length := by
        rw [ha, List.length_append, Nat.add_assoc]
      have hroom : (content ++ c).length + cs.flatten.length ≤ size := by
        rw [List.length_append]
        omega
      simpa only [List.append_assoc, List.flatten_cons, programAll_cons] using ih hc hnext hroom

/-- Cut a list into pieces of `n + 1` bytes, the last one possibly shorter. -/
def chunksOf (n : Nat) (data : List UInt8) : List (List UInt8) :=
  if data = [] then [] else data.take (n + 1) :: chunksOf n (data.drop (n + 1))
termination_by data.length
decreasing_by
  have : data.length ≠ 0 := by simpa using ‹¬ data = []›
  simp only [List.length_drop]
  omega

@[simp] theorem chunksOf_nil (n : Nat) : chunksOf n [] = [] := by
  rw [chunksOf, if_pos rfl]

theorem chunksOf_of_ne_nil (n : Nat) {data : List UInt8} (h : data ≠ []) :
    chunksOf n data = data.take (n + 1) :: chunksOf n (data.drop (n + 1)) := by
  rw [chunksOf, if_neg h]

/-- The pieces put together are the whole list. -/
theorem chunksOf_flatten (n : Nat) (data : List UInt8) : (chunksOf n data).flatten = data := by
  induction data using chunksOf.induct n with
  | case1 => simp
  | case2 data h ih => rw [chunksOf_of_ne_nil n h, List.flatten_cons, ih, List.take_append_drop]

/-- The first `j` pieces hold the first `j * (n + 1)` bytes. -/
theorem chunksOf_take_flatten (n : Nat) (data : List UInt8) (j : Nat) :
    ((chunksOf n data).take j).flatten = data.take ((n + 1) * j) := by
  induction data using chunksOf.induct n generalizing j with
  | case1 => simp
  | case2 data h ih =>
      cases j with
      | zero => simp
      | succ j =>
          have hlen : (n + 1) * (j + 1) = (n + 1) + (n + 1) * j := by
            rw [Nat.mul_succ, Nat.add_comm]
          rw [chunksOf_of_ne_nil n h, List.take_succ_cons, List.flatten_cons, ih, hlen]
          exact List.take_add.symm

end Chunks

section Accepts

variable {m m' : Memory} {a : Nat} {x : UInt8} {xs ys data : List UInt8}

/-- Every bit that is set in the data is still set in its cell. -/
def Accepts (m : Memory) (a : Nat) (data : List UInt8) : Prop :=
  ∀ i (hi : i < data.length), m (a + i) &&& data[i] = data[i]

instance (m : Memory) (a : Nat) (data : List UInt8) : Decidable (m.Accepts a data) :=
  inferInstanceAs (Decidable (∀ i (hi : i < data.length), m (a + i) &&& data[i] = data[i]))

/-- Program the bytes one by one up to the first that its cell does not accept. -/
def norProgram (m : Memory) (a : Nat) : List UInt8 → Bool × Memory
  | [] => (true, m)
  | x :: xs => if m a &&& x = x then norProgram (m.program a [x]) (a + 1) xs else (false, m)

@[simp] theorem accepts_nil : m.Accepts a [] := fun _ hi => absurd hi (Nat.not_lt_zero _)

theorem accepts_cons : m.Accepts a (x :: xs) ↔ m a &&& x = x ∧ m.Accepts (a + 1) xs := by
  constructor
  · intro h
    refine ⟨h 0 (Nat.zero_lt_succ _), fun i hi => ?_⟩
    have hcell : a + 1 + i = a + (i + 1) := by omega
    rw [hcell]
    exact h (i + 1) (Nat.succ_lt_succ hi)
  · rintro ⟨hx, h⟩ i hi
    cases i with
    | zero => exact hx
    | succ i =>
        have hcell : a + (i + 1) = a + 1 + i := by omega
        rw [hcell]
        exact h i (Nat.lt_of_succ_lt_succ hi)

theorem accepts_append :
    m.Accepts a (xs ++ ys) ↔ m.Accepts a xs ∧ m.Accepts (a + xs.length) ys := by
  induction xs generalizing a with
  | nil => simp
  | cons x xs ih =>
      rw [List.cons_append, accepts_cons, accepts_cons, ih, and_assoc, List.length_cons,
        Nat.add_assoc, Nat.add_comm 1]

theorem Accepts.congr (h : m.Accepts a data)
    (he : ∀ x, a ≤ x → x < a + data.length → m' x = m x) : m'.Accepts a data := by
  intro i hi
  rw [he (a + i) (by omega) (by omega)]
  exact h i hi

theorem accepts_erased (h : ∀ i < data.length, m (a + i) = 0xFF) : m.Accepts a data := by
  intro i hi
  rw [h i hi]
  exact UInt8.neg_one_and

theorem program_cons (m : Memory) (a : Nat) (x : UInt8) (xs : List UInt8) :
    m.program a (x :: xs) = (m.program a [x]).program (a + 1) xs := by
  funext y
  by_cases hy : a ≤ y ∧ y < a + (x :: xs).length
  · obtain ⟨hl, hr⟩ := hy
    rw [List.length_cons] at hr
    by_cases h0 : y = a
    · subst h0
      rw [program_of_outside (m := m.program y [x]) (by omega)]
      simp [program]
    · have hin : a + 1 ≤ y ∧ y < a + 1 + xs.length := by omega
      have hout : m.program a [x] y = m y :=
        program_of_outside (by rw [List.length_singleton]; omega)
      obtain ⟨k, rfl⟩ : ∃ k, y = a + 1 + k := ⟨y - (a + 1), by omega⟩
      have hk : a + 1 + k - a = k + 1 := by omega
      rw [program, if_pos ⟨hl, by rw [List.length_cons]; omega⟩, program, if_pos hin, hout, hk,
        Nat.add_sub_cancel_left, List.getD_cons_succ]
  · rw [List.length_cons] at hy
    rw [program_of_outside (by rw [List.length_cons]; omega), program_of_outside (by omega),
      program_of_outside (by rw [List.length_singleton]; omega)]

/-- Accepting cells take the data. -/
theorem Accepts.bytesAt_program (h : m.Accepts a data) :
    (m.program a data).bytesAt a data.length = data := by
  apply List.ext_getElem
  · exact bytesAt_length _ _ _
  · intro i hi hi'
    have hx : a ≤ a + i ∧ a + i < a + data.length := by omega
    rw [getElem_bytesAt, program, if_pos hx, Nat.add_sub_cancel_left,
      List.getD_eq_getElem?_getD, List.getElem?_eq_getElem hi']
    exact h i hi'

/-- Cells that hold the data after the program have accepted it. -/
theorem accepts_of_bytesAt_program (h : (m.program a data).bytesAt a data.length = data) :
    m.Accepts a data := by
  intro i hi
  have hx : a ≤ a + i ∧ a + i < a + data.length := by omega
  have hget := congrArg (·[i]?) h
  simp only [getElem?_bytesAt, if_pos hi, List.getElem?_eq_getElem hi, Option.some.injEq] at hget
  rw [program, if_pos hx, Nat.add_sub_cancel_left, List.getD_eq_getElem?_getD,
    List.getElem?_eq_getElem hi] at hget
  exact hget

/-- The bytes of a list are taken one by one, so a shorter program takes fewer. -/
theorem accepts_of_program_byte (h : m.Accepts (a + 1) xs) :
    (m.program a [x]).Accepts (a + 1) xs :=
  h.congr fun y hl _ => program_of_outside (by rw [List.length_singleton]; omega)

theorem norProgram_of_accepts (h : m.Accepts a data) :
    m.norProgram a data = (true, m.program a data) := by
  induction data generalizing m a with
  | nil => rw [norProgram, program_nil]
  | cons x xs ih =>
      obtain ⟨hx, hrest⟩ := accepts_cons.mp h
      rw [norProgram, if_pos hx, ih (accepts_of_program_byte hrest), ← program_cons]

theorem accepts_of_norProgram (h : (m.norProgram a data).1 = true) : m.Accepts a data := by
  induction data generalizing m a with
  | nil => exact accepts_nil
  | cons x xs ih =>
      rw [norProgram] at h
      by_cases hx : m a &&& x = x
      · rw [if_pos hx] at h
        refine accepts_cons.mpr ⟨hx, (ih h).congr fun y hl _ => ?_⟩
        exact (program_of_outside (by rw [List.length_singleton]; omega)).symm
      · rw [if_neg hx] at h
        exact Bool.noConfusion h

theorem norProgram_of_outside {y : Nat} (h : y < a ∨ a + data.length ≤ y) :
    (m.norProgram a data).2 y = m y := by
  induction data generalizing m a with
  | nil => rfl
  | cons x xs ih =>
      rw [List.length_cons] at h
      rw [norProgram]
      split
      · rw [ih (by omega), program_of_outside (by rw [List.length_singleton]; omega)]
      · rfl

/-- The cells behind the content accept whatever fits. -/
theorem Holds.accepts {base size : Nat} {content : List UInt8} (h : Holds m base size content)
    (ha : a = base + content.length) (hfit : content.length + data.length ≤ size) :
    m.Accepts a data := by
  subst ha
  refine accepts_erased fun i hi => ?_
  have hbehind : content.length ≤ content.length + i := Nat.le_add_right _ _
  rw [Nat.add_assoc, h.cell _ (by omega), List.getD_eq_getElem?_getD,
    List.getElem?_eq_none hbehind]
  rfl

/-- A region whose end was programmed holds the longer content. -/
theorem Holds.of_programmed {base size : Nat} {content : List UInt8} (h : Holds m base size content)
    (hfit : content.length + data.length ≤ size)
    (hout : ∀ x, ¬ (base + content.length ≤ x ∧ x < base + content.length + data.length) →
      m' x = m x)
    (hdata : m'.bytesAt (base + content.length) data.length = data) :
    Holds m' base size (content ++ data) where
  fits := by simpa using hfit
  cell := by
    intro i hi
    by_cases hin : content.length ≤ i ∧ i < content.length + data.length
    · obtain ⟨k, rfl⟩ : ∃ k, i = content.length + k := ⟨i - content.length, by omega⟩
      have hk : k < (m'.bytesAt (base + content.length) data.length).length := by
        rw [bytesAt_length]
        omega
      have hcell : (m'.bytesAt (base + content.length) data.length)[k] =
          m' (base + content.length + k) := getElem_bytesAt _ _ _ _ hk
      have hk' : k < data.length := by omega
      rw [← Nat.add_assoc, ← hcell]
      simp only [hdata]
      simp [List.getD_eq_getElem?_getD, hk']
    · rw [hout (base + i) (by omega), h.cell i hi]
      simp only [List.getD_eq_getElem?_getD]
      by_cases hlt : i < content.length
      · rw [List.getElem?_append_left hlt]
      · rw [List.getElem?_eq_none (by omega), List.getElem?_eq_none]
        rw [List.length_append]
        omega

end Accepts

end Memory

end ZeroEmbedded.Foundation
