import ZeroEmbedded.Foundation.Interleaving
import ZeroEmbedded.Foundation.PowerOfTwo

/-!
# Ring buffers with free-running counters

A ring stores the elements of a queue in slots that are taken modulo its
capacity. The two counters run freely and wrap at a multiple of the capacity,
so that a full ring differs from an empty one. The producer fills free slots
and then publishes them by its counter; the consumer reads slots and then
releases them by its own.

## Implementation notes

`Holds` relates a ring to the queue it stores. What a thread knows between two
of its steps (`Staged`, `Front`) is stable under the steps of the other thread.
-/

namespace ZeroEmbedded.Foundation

/-- The number of slots and the modulus of the counters. -/
structure RingSize where
  capacity : Nat
  modulus : Nat
  capacity_pos : 0 < capacity
  capacity_lt : capacity < modulus
  dvd : capacity ∣ modulus

/-- The slots and the two counters. -/
structure RingBuffer (α : Type) where
  slots : List α
  head : Nat
  tail : Nat

namespace RingSize

variable (Z : RingSize)

/-- Wrapped difference of two counters. -/
def distance (head tail : Nat) : Nat := (head + Z.modulus - tail) % Z.modulus

/-- A counter after `n` more steps. -/
def advance (counter n : Nat) : Nat := (counter + n) % Z.modulus

theorem modulus_pos : 0 < Z.modulus := Nat.lt_trans Z.capacity_pos Z.capacity_lt

theorem distance_advance {tail n : Nat} (ht : tail < Z.modulus) (hn : n < Z.modulus) :
    Z.distance (Z.advance tail n) tail = n := by
  rw [distance, advance]
  by_cases hwrap : tail + n < Z.modulus
  · rw [Nat.mod_eq_of_lt hwrap, show tail + n + Z.modulus - tail = n + Z.modulus by omega,
      Nat.add_mod_right, Nat.mod_eq_of_lt hn]
  · have hrest : (tail + n - Z.modulus) % Z.modulus = tail + n - Z.modulus :=
      Nat.mod_eq_of_lt (by omega)
    rw [Nat.mod_eq_sub_mod (Nat.not_lt.mp hwrap), hrest,
      show tail + n - Z.modulus + Z.modulus - tail = n by omega, Nat.mod_eq_of_lt hn]

/-- A counter selects the same slot before and after it wraps. -/
theorem advance_mod (counter n : Nat) :
    Z.advance counter n % Z.capacity = (counter + n) % Z.capacity :=
  Nat.mod_mod_of_dvd _ Z.dvd

theorem advance_add_mod (counter m n : Nat) :
    (Z.advance counter m + n) % Z.capacity = (counter + m + n) % Z.capacity := by
  rw [Nat.add_mod, advance_mod, ← Nat.add_mod]

theorem advance_advance (counter m n : Nat) :
    Z.advance (Z.advance counter m) n = Z.advance counter (m + n) := by
  rw [advance, advance, advance, Nat.mod_add_mod, Nat.add_assoc]

theorem advance_lt (counter n : Nat) : Z.advance counter n < Z.modulus :=
  Nat.mod_lt _ Z.modulus_pos

/-- Counters that are less than a turn apart select different slots. -/
theorem slot_ne {counter i j : Nat} (hlt : i < j) (hturn : j < i + Z.capacity) :
    (counter + i) % Z.capacity ≠ (counter + j) % Z.capacity := by
  intro heq
  have hdvd : Z.capacity ∣ j - i := by
    have hzero := Nat.sub_mod_eq_zero_of_mod_eq heq.symm
    rw [Nat.add_sub_add_left] at hzero
    exact Nat.dvd_of_mod_eq_zero hzero
  have hle := Nat.le_of_dvd (by omega) hdvd
  omega

/-- Behind a slot the following counters select the following slots up to the end. -/
theorem slot_add {counter i : Nat} (hend : counter % Z.capacity + i < Z.capacity) :
    (counter + i) % Z.capacity = counter % Z.capacity + i := by
  rw [Nat.add_mod, Nat.mod_eq_of_lt (by omega : i < Z.capacity), Nat.mod_eq_of_lt hend]

/-- Behind the last slot the first one follows. -/
theorem slot_wrap {counter i : Nat} (hend : counter % Z.capacity + i = Z.capacity) :
    (counter + i) % Z.capacity = 0 := by
  rw [← Nat.mod_add_mod, hend, Nat.mod_self]

section PowerOfTwo

variable {capacity modulus : Nat}

/-- A capacity and counters that are powers of two. -/
def ofPow (hcapacity : ∃ k, capacity = 2 ^ k) (hmodulus : ∃ w, modulus = 2 ^ w)
    (hlt : capacity < modulus) : RingSize where
  capacity := capacity
  modulus := modulus
  capacity_pos := by
    obtain ⟨k, rfl⟩ := hcapacity
    exact Nat.two_pow_pos k
  capacity_lt := hlt
  dvd := PowerOfTwo.dvd_of_lt hcapacity hmodulus hlt

end PowerOfTwo

end RingSize

namespace RingBuffer

/-- Replace the slots from `idx` on. -/
def writeAt {α : Type} (slots : List α) (idx : Nat) (items : List α) : List α :=
  slots.take idx ++ items ++ slots.drop (idx + items.length)

variable {α : Type} {Z : RingSize} {r r' : RingBuffer α} {q q' items : List α}

theorem writeAt_length {slots : List α} {idx : Nat} (h : idx + items.length ≤ slots.length) :
    (writeAt slots idx items).length = slots.length := by
  rw [writeAt, List.length_append, List.length_append, List.length_take, List.length_drop]
  omega

theorem getElem?_writeAt {slots : List α} {idx : Nat} (h : idx + items.length ≤ slots.length)
    (i : Nat) : (writeAt slots idx items)[i]? =
      if idx ≤ i ∧ i < idx + items.length then items[i - idx]? else slots[i]? := by
  have htake : (slots.take idx).length = idx := List.length_take_of_le (by omega)
  rw [writeAt, List.append_assoc]
  split
  · next hin =>
      rw [List.getElem?_append_right (by omega), htake, List.getElem?_append_left (by omega)]
  · next hout =>
      by_cases hlow : i < idx
      · rw [List.getElem?_append_left (by omega), List.getElem?_take_of_lt hlow]
      · rw [List.getElem?_append_right (by omega), htake,
          List.getElem?_append_right (by omega), List.getElem?_drop]
        congr 1
        omega

/-- The ring stores the queue. -/
structure Holds (Z : RingSize) (r : RingBuffer α) (q : List α) : Prop where
  slots_length : r.slots.length = Z.capacity
  tail_lt : r.tail < Z.modulus
  head_eq : r.head = Z.advance r.tail q.length
  length_le : q.length ≤ Z.capacity
  slot : ∀ i < q.length, r.slots[(r.tail + i) % Z.capacity]? = q[i]?

/-- The difference of the counters is the length of the queue. -/
theorem Holds.distance (h : Holds Z r q) : Z.distance r.head r.tail = q.length := by
  rw [h.head_eq]
  exact Z.distance_advance h.tail_lt (Nat.lt_of_le_of_lt h.length_le Z.capacity_lt)

/-- The counters meet exactly when the queue is empty. -/
theorem Holds.empty_iff (h : Holds Z r q) : r.tail = r.head ↔ q = [] := by
  constructor
  · intro heq
    apply List.eq_nil_of_length_eq_zero
    rw [← h.distance, ← heq, RingSize.distance, Nat.add_sub_cancel_left, Nat.mod_self]
  · rintro rfl
    rw [h.head_eq]
    exact (Nat.mod_eq_of_lt h.tail_lt).symm

theorem Holds.unique (h : Holds Z r q) (h' : Holds Z r q') : q = q' := by
  have hlen : q.length = q'.length := h.distance.symm.trans h'.distance
  apply List.ext_getElem? 
  intro i
  by_cases hi : i < q.length
  · rw [← h.slot i hi, ← h'.slot i (hlen ▸ hi)]
  · rw [List.getElem?_eq_none (Nat.not_lt.mp hi),
      List.getElem?_eq_none (hlen ▸ Nat.not_lt.mp hi)]

/-- Counters and slots of a ring that stores a queue. -/
structure Fits (Z : RingSize) (r : RingBuffer α) : Prop where
  slots_length : r.slots.length = Z.capacity
  head_lt : r.head < Z.modulus
  tail_lt : r.tail < Z.modulus
  distance_le : Z.distance r.head r.tail ≤ Z.capacity

/-- The queue that the ring stores. -/
def content (Z : RingSize) (r : RingBuffer α) : List α :=
  (r.slots.rotate (r.tail % Z.capacity)).take (Z.distance r.head r.tail)

theorem Fits.holds (h : Fits Z r) : Holds Z r (content Z r) := by
  have hrotate : (r.slots.rotate (r.tail % Z.capacity)).length = Z.capacity :=
    (List.length_rotate ..).trans h.slots_length
  have hlen : (content Z r).length = Z.distance r.head r.tail := by
    apply List.length_take_of_le
    rw [hrotate]
    exact h.distance_le
  refine ⟨h.slots_length, h.tail_lt, ?_, hlen ▸ h.distance_le, ?_⟩
  · have hhead := h.head_lt
    have htail := h.tail_lt
    rw [hlen, RingSize.advance, RingSize.distance, Nat.add_mod_mod,
      show r.tail + (r.head + Z.modulus - r.tail) = r.head + Z.modulus by omega,
      Nat.add_mod_right, Nat.mod_eq_of_lt hhead]
  · intro i hi
    have hcap : i < r.slots.length := by
      rw [h.slots_length]
      exact Nat.lt_of_lt_of_le (hlen ▸ hi) h.distance_le
    rw [content, List.getElem?_take_of_lt (hlen ▸ hi), List.getElem?_rotate hcap,
      h.slots_length, Nat.add_mod_mod, Nat.add_comm]

theorem Holds.fits (h : Holds Z r q) : Fits Z r where
  slots_length := h.slots_length
  head_lt := by
    rw [h.head_eq]
    exact Z.advance_lt _ _
  tail_lt := h.tail_lt
  distance_le := by
    rw [h.distance]
    exact h.length_le

theorem Holds.content_eq (h : Holds Z r q) : content Z r = q := h.fits.holds.unique h

/-- A ring whose counters are zero is empty. -/
theorem holds_empty {slots : List α} (h : slots.length = Z.capacity) :
    Holds Z ⟨slots, 0, 0⟩ [] where
  slots_length := h
  tail_lt := Z.modulus_pos
  head_eq := (Nat.zero_mod _).symm
  length_le := Nat.zero_le _
  slot i hi := absurd hi (Nat.not_lt_zero i)

theorem fits_empty {slots : List α} (h : slots.length = Z.capacity) :
    Fits Z ⟨slots, 0, 0⟩ ∧ content Z ⟨slots, 0, 0⟩ = [] :=
  ⟨(holds_empty h).fits, (holds_empty h).content_eq⟩

section Producer

/-- The producer has filled the slots behind the queue with `items`, and `n` slots are free. -/
structure Staged (Z : RingSize) (h n : Nat) (items : List α) (r : RingBuffer α) : Prop where
  head_eq : r.head = h
  fits : ∀ q, Holds Z r q → q.length + n ≤ Z.capacity
  slot : ∀ i < items.length, r.slots[(h + i) % Z.capacity]? = items[i]?

variable {h n idx : Nat} {chunk : List α}

/-- At first nothing is staged, and the slots that the queue leaves are free. -/
theorem Holds.staged (hr : Holds Z r q) : Staged Z r.head (Z.capacity - q.length) [] r where
  head_eq := rfl
  fits q' hq' := by
    have hle := hr.length_le
    rw [hq'.unique hr]
    omega
  slot i hi := absurd hi (Nat.not_lt_zero i)

/-- A slot behind the queue and the staged items is not one of theirs. -/
theorem slot_outside {counter m i k : Nat} (hidx : idx = (counter + m) % Z.capacity)
    (hend : idx + chunk.length ≤ Z.capacity) (hi : i < m)
    (hturn : m + chunk.length ≤ i + Z.capacity) (hk : k < chunk.length) :
    (counter + i) % Z.capacity ≠ idx + k := by
  have hslot : (counter + m + k) % Z.capacity = (counter + m) % Z.capacity + k :=
    Z.slot_add (by omega)
  rw [← hidx] at hslot
  rw [← hslot, Nat.add_assoc]
  exact Z.slot_ne (by omega) (by omega)

/-- Writing a chunk behind the staged items stages it too and leaves the queue alone. -/
theorem Holds.fill (hr : Holds Z r q) (hs : Staged Z h n items r)
    (hfree : items.length + chunk.length ≤ n) (hidx : idx = (h + items.length) % Z.capacity)
    (hend : idx + chunk.length ≤ Z.capacity) :
    Holds Z { r with slots := writeAt r.slots idx chunk } q ∧
      Staged Z h n (items ++ chunk) { r with slots := writeAt r.slots idx chunk } := by
  have hfits := hs.fits q hr
  have hin : idx + chunk.length ≤ r.slots.length := by rw [hr.slots_length]; exact hend
  have hhead : r.head = h := hs.head_eq
  -- a slot of an earlier counter keeps its element
  have hkeep : ∀ (counter m i : Nat), idx = (counter + m) % Z.capacity → i < m →
      m + chunk.length ≤ i + Z.capacity →
      (writeAt r.slots idx chunk)[(counter + i) % Z.capacity]? =
        r.slots[(counter + i) % Z.capacity]? := by
    intro counter m i hidx' hi hturn
    rw [getElem?_writeAt hin, if_neg]
    rintro ⟨hge, hlt⟩
    have hk : (counter + i) % Z.capacity - idx < chunk.length := by omega
    exact slot_outside hidx' hend hi hturn hk (by omega)
  have hqueue : idx = (r.tail + (q.length + items.length)) % Z.capacity := by
    rw [hidx, ← hhead, hr.head_eq, Z.advance_add_mod, Nat.add_assoc]
  constructor
  · refine ⟨(writeAt_length hin).trans hr.slots_length, hr.tail_lt, hr.head_eq, hr.length_le, ?_⟩
    intro i hi
    rw [← hr.slot i hi]
    exact hkeep r.tail (q.length + items.length) i hqueue (by omega) (by omega)
  · refine ⟨hhead, ?_, ?_⟩
    · intro q' hq'
      have hlen : q'.length = q.length := by
        rw [← hq'.distance, ← hr.distance]
      rw [hlen]
      exact hfits
    · intro i hi
      rw [List.length_append] at hi
      by_cases hold : i < items.length
      · rw [List.getElem?_append_left hold, ← hs.slot i hold]
        exact hkeep h items.length i hidx hold (by omega)
      · obtain ⟨k, rfl⟩ := Nat.exists_eq_add_of_le (Nat.not_lt.mp hold)
        have hslot : (h + (items.length + k)) % Z.capacity = idx + k := by
          rw [← Nat.add_assoc, hidx]
          exact Z.slot_add (by omega)
        rw [List.getElem?_append_right (by omega), hslot]
        change (writeAt r.slots idx chunk)[idx + k]? = _
        rw [getElem?_writeAt hin, if_pos ⟨by omega, by omega⟩]
        congr 1
        omega

/-- Moving the head behind the staged items appends them to the queue. -/
theorem Holds.publish (hr : Holds Z r q) (hs : Staged Z h n items r) (hn : items.length ≤ n) :
    Holds Z { r with head := Z.advance h items.length } (q ++ items) := by
  have hfits := hs.fits q hr
  refine ⟨hr.slots_length, hr.tail_lt, ?_, ?_, ?_⟩
  · rw [← hs.head_eq, hr.head_eq, Z.advance_advance, List.length_append]
  · rw [List.length_append]
    omega
  · intro i hi
    rw [List.length_append] at hi
    by_cases hold : i < q.length
    · rw [List.getElem?_append_left hold]
      exact hr.slot i hold
    · obtain ⟨k, rfl⟩ := Nat.exists_eq_add_of_le (Nat.not_lt.mp hold)
      rw [List.getElem?_append_right (by omega), Nat.add_sub_cancel_left,
        ← hs.slot k (by omega), ← hs.head_eq, hr.head_eq, Z.advance_add_mod, Nat.add_assoc]

end Producer

section Consumer

/-- The consumer knows that the queue starts with `items`. -/
structure Front (Z : RingSize) (t : Nat) (items : List α) (r : RingBuffer α) : Prop where
  tail_eq : r.tail = t
  front : ∀ q, Holds Z r q → items <+: q

variable {t n idx : Nat}

/-- Every prefix of the queue is known. -/
theorem Holds.front (hr : Holds Z r q) (n : Nat) : Front Z r.tail (q.take n) r where
  tail_eq := rfl
  front q' hq' := by
    rw [hq'.unique hr]
    exact List.take_prefix n q

/-- Reading slots of known items gives these items. -/
theorem Holds.read (hr : Holds Z r q) (hf : Front Z t items r) {j : Nat}
    (hn : j + n ≤ items.length) (hidx : idx = (t + j) % Z.capacity)
    (hend : idx + n ≤ Z.capacity) :
    (r.slots.drop idx).take n = (items.drop j).take n := by
  obtain ⟨rest, hq⟩ := hf.front q hr
  apply List.ext_getElem?
  intro k
  by_cases hk : k < n
  · have hlen : items.length ≤ q.length := by rw [← hq, List.length_append]; omega
    have hslot : (t + (j + k)) % Z.capacity = idx + k := by
      rw [← Nat.add_assoc, hidx]
      exact Z.slot_add (by omega)
    rw [List.getElem?_take_of_lt hk, List.getElem?_take_of_lt hk, List.getElem?_drop,
      List.getElem?_drop, ← hslot, ← hf.tail_eq, hr.slot (j + k) (by omega), ← hq,
      List.getElem?_append_left (by omega)]
  · rw [List.getElem?_take_eq_none (Nat.not_lt.mp hk),
      List.getElem?_take_eq_none (Nat.not_lt.mp hk)]

/-- Moving the tail behind known items removes them from the queue. -/
theorem Holds.release (hr : Holds Z r (items ++ q)) (ht : r.tail = t) :
    Holds Z { r with tail := Z.advance t items.length } q := by
  have hle := hr.length_le
  rw [List.length_append] at hle
  refine ⟨hr.slots_length, Z.advance_lt _ _, ?_, by omega, ?_⟩
  · change r.head = _
    rw [hr.head_eq, ht, Z.advance_advance, List.length_append]
  · intro i hi
    have hslot := hr.slot (items.length + i) (by rw [List.length_append]; omega)
    rw [List.getElem?_append_right (by omega), Nat.add_sub_cancel_left, ht] at hslot
    rw [← hslot]
    change r.slots[(Z.advance t items.length + i) % Z.capacity]? = _
    rw [Z.advance_add_mod, Nat.add_assoc]

end Consumer

end RingBuffer

end ZeroEmbedded.Foundation
