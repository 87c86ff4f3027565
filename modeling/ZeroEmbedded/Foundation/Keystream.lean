import Mathlib

/-!
# Keystreams that are made block by block

A cipher adds the bytes of a keystream to the data. The keystream comes in
blocks, and every piece of data begins with a new block. A byte of the data is
then treated with the byte of the keystream at its position: the number of the
block and the index in the block.
-/

namespace ZeroEmbedded.Foundation.Keystream

section Xor

variable {data k k' : List UInt8}

/-- The data with a keystream added. -/
def add (data k : List UInt8) : List UInt8 := List.zipWith (· ^^^ ·) data k

@[simp] theorem add_nil_left (k : List UInt8) : add [] k = [] := rfl

@[simp] theorem add_cons (x y : UInt8) (data k : List UInt8) :
    add (x :: data) (y :: k) = (x ^^^ y) :: add data k := rfl

theorem length_add (h : data.length = k.length) : (add data k).length = data.length := by
  rw [add, List.length_zipWith, h, Nat.min_self]

theorem add_append {data' k' : List UInt8} (h : data.length = k.length) :
    add (data ++ data') (k ++ k') = add data k ++ add data' k' :=
  List.zipWith_append h

/-- More of the keystream than there is data is not used. -/
theorem add_take {n : Nat} (h : data.length ≤ n) : add data (k.take n) = add data k := by
  calc
    add data (k.take n) = add (data.take n) (k.take n) := by rw [List.take_of_length_le h]
    _ = (add data k).take n := List.take_zipWith.symm
    _ = add data k := by
      apply List.take_of_length_le
      rw [add, List.length_zipWith]
      omega

/-- Adding two keystreams gives back the data exactly when they are the same. -/
theorem add_add_eq_iff (h : data.length = k.length) (h' : data.length = k'.length) :
    add (add data k) k' = data ↔ k = k' := by
  induction data generalizing k k' with
  | nil =>
      rw [List.eq_nil_of_length_eq_zero h.symm, List.eq_nil_of_length_eq_zero h'.symm]
      exact Iff.intro (fun _ => rfl) (fun _ => rfl)
  | cons x data ih =>
      match k, k', h, h' with
      | y :: k, y' :: k', h, h' =>
          have hrest := ih (Nat.succ_inj.mp h) (Nat.succ_inj.mp h')
          have hbyte : x ^^^ y ^^^ y' = x ↔ y = y' := by
            rw [UInt8.xor_assoc]
            constructor
            · intro heq
              have hzero : x ^^^ (x ^^^ (y ^^^ y')) = x ^^^ x := congrArg _ heq
              rw [← UInt8.xor_assoc, UInt8.xor_self, UInt8.zero_xor] at hzero
              exact UInt8.xor_eq_zero_iff.mp hzero
            · rintro rfl
              rw [UInt8.xor_self, UInt8.xor_zero]
          rw [add_cons, add_cons, List.cons.injEq, List.cons.injEq, hbyte, hrest]

end Xor

variable (size : Nat)

/-- The positions of a piece that begins with block `b`. -/
def piece (b len : Nat) : List (Nat × Nat) :=
  (List.range len).map fun i => (b + i / size, i % size)

/-- Later blocks have the same positions. -/
theorem piece_add (b n len : Nat) :
    piece size (b + n) len = (piece size b len).map fun p => (p.1 + n, p.2) := by
  rw [piece, piece, List.map_map]
  apply List.map_congr_left
  intro i _
  rw [Function.comp_apply, Nat.add_right_comm]

/-- The number of blocks that a piece uses. -/
def blocks (len : Nat) : Nat := (len + (size - 1)) / size

/-- The positions of pieces that follow each other, the first of which begins with block `b`. -/
def positions (b : Nat) : List Nat → List (Nat × Nat)
  | [] => []
  | len :: lens => piece size b len ++ positions (b + blocks size len) lens

theorem positions_add (b n : Nat) (lens : List Nat) :
    positions size (b + n) lens = (positions size b lens).map fun p => (p.1 + n, p.2) := by
  induction lens generalizing b with
  | nil => rfl
  | cons len lens ih =>
      rw [positions, positions, List.map_append, ← piece_add, ← ih, Nat.add_right_comm]

/-- The position of the next byte lies behind it in the block or begins the next block. -/
def Follows (p q : Nat × Nat) : Prop :=
  q = (p.1, p.2 + 1) ∧ p.2 + 1 < size ∨ q = (p.1 + 1, 0)

variable {size} {b len : Nat} {lens lens' : List Nat}

@[simp] theorem length_piece : (piece size b len).length = len := by
  rw [piece, List.length_map, List.length_range]

@[simp] theorem length_positions : (positions size b lens).length = lens.sum := by
  induction lens generalizing b with
  | nil => rfl
  | cons len lens ih => rw [positions, List.length_append, length_piece, ih, List.sum_cons]

theorem blocks_zero (hsize : 0 < size) : blocks size 0 = 0 :=
  Nat.div_eq_of_lt (by omega)

/-- A block is used for as many bytes as it has, or for all that remain. -/
theorem blocks_succ (hsize : 0 < size) (hlen : 0 < len) :
    blocks size len = 1 + blocks size (len - size) := by
  rw [blocks, blocks]
  rcases Nat.lt_or_ge size len with hlt | hge
  · rw [show len + (size - 1) = len - size + (size - 1) + size by omega,
      Nat.add_div_right _ hsize, Nat.add_comm]
  · rw [Nat.sub_eq_zero_of_le hge, Nat.zero_add, Nat.div_eq_of_lt (show size - 1 < size by omega),
      show len + (size - 1) = len - 1 + size by omega, Nat.add_div_right _ hsize,
      Nat.div_eq_of_lt (by omega)]

/-- The bytes of the first block of a piece, and the rest of the piece. -/
theorem piece_eq_append (hsize : 0 < size) (len : Nat) :
    piece size b len =
      (List.range (min size len)).map (fun i => (b, i)) ++ piece size (b + 1) (len - size) := by
  have hsplit : len = min size len + (len - size) := by omega
  rw [piece, piece, hsplit, List.range_add, List.map_append, List.map_map, ← hsplit]
  congr 1
  · apply List.map_congr_left
    intro i hi
    have hlt := List.mem_range.mp hi
    rw [Nat.div_eq_of_lt (by omega), Nat.mod_eq_of_lt (by omega), Nat.add_zero]
  · apply List.map_congr_left
    intro i hi
    have hmin : min size len = size := by
      have hlt := List.mem_range.mp hi
      omega
    rw [Function.comp_apply, hmin, Nat.add_div_left _ hsize, Nat.add_mod_left]
    congr 1
    omega

theorem piece_chain (hsize : 0 < size) : List.IsChain (Follows size) (piece size b len) := by
  rw [piece, List.isChain_map, List.isChain_range]
  intro i _
  have hdiv := Nat.div_add_mod i size
  have hlt := Nat.mod_lt i hsize
  by_cases hlast : i % size + 1 < size
  · left
    refine ⟨?_, hlast⟩
    rw [Nat.succ_eq_add_one, show i + 1 = i % size + 1 + size * (i / size) by omega,
      Nat.add_mul_div_left _ _ hsize, Nat.add_mul_mod_self_left, Nat.div_eq_of_lt hlast,
      Nat.mod_eq_of_lt hlast, Nat.zero_add]
  · right
    have hmul : size * (i / size + 1) = size * (i / size) + size := Nat.mul_succ _ _
    rw [Nat.succ_eq_add_one, show i + 1 = size * (i / size + 1) by omega,
      Nat.mul_div_cancel_left _ hsize, Nat.mul_mod_right]
    rfl

/-- The first piece begins at the start of a block. -/
theorem positions_head {p : Nat × Nat} (hsize : 0 < size)
    (hp : p ∈ (positions size b lens).head?) : p = (b, 0) := by
  induction lens generalizing b with
  | nil => cases hp
  | cons len lens ih =>
      cases len with
      | zero =>
          rw [positions, blocks_zero hsize] at hp
          exact ih hp
      | succ len =>
          rw [positions, piece, List.range_succ_eq_map] at hp
          simp only [List.map_cons, List.cons_append, List.head?_cons, Option.mem_some_iff,
            Nat.zero_div, Nat.zero_mod, Nat.add_zero] at hp
          exact hp.symm

theorem positions_chain (hsize : 0 < size) :
    List.IsChain (Follows size) (positions size b lens) := by
  induction lens generalizing b with
  | nil => exact List.isChain_nil
  | cons len lens ih =>
      rw [positions, List.isChain_append]
      refine ⟨piece_chain hsize, ih, ?_⟩
      intro p hp q hq
      right
      rw [positions_head hsize hq]
      cases len with
      | zero => cases hp
      | succ len =>
          rw [piece, List.getLast?_map, List.getLast?_range, if_neg (Nat.succ_ne_zero len)] at hp
          obtain rfl := Option.some.inj hp
          rw [blocks, show len + 1 + (size - 1) = len + size by omega, Nat.add_div_right _ hsize]
          rfl

/-- Where two sequences of positions part, one of them goes on in a block that the other leaves. -/
theorem exists_fork {p : Nat × Nat} {l l' : List (Nat × Nat)}
    (hl : List.IsChain (Follows size) (p :: l)) (hl' : List.IsChain (Follows size) (p :: l'))
    (hlen : l.length = l'.length) (hne : l ≠ l') :
    ∃ j b i : Nat, i + 1 < size ∧ ((l[j]? = some (b, i + 1) ∧ l'[j]? = some (b + 1, 0)) ∨
      (l[j]? = some (b + 1, 0) ∧ l'[j]? = some (b, i + 1))) := by
  induction l generalizing p l' with
  | nil => exact absurd (List.eq_nil_of_length_eq_zero hlen.symm).symm hne
  | cons q l ih =>
      match l', hlen with
      | q' :: l', hlen =>
          obtain ⟨hq, hl⟩ := List.isChain_cons_cons.mp hl
          obtain ⟨hq', hl'⟩ := List.isChain_cons_cons.mp hl'
          by_cases heq : q = q'
          · subst heq
            have hrest : l ≠ l' := fun h => hne (by rw [h])
            obtain ⟨j, b, i, hi, hfork⟩ := ih hl hl' (Nat.succ_inj.mp hlen) hrest
            exact ⟨j + 1, b, i, hi, hfork⟩
          · rcases hq with ⟨rfl, hi⟩ | rfl
            · rcases hq' with ⟨rfl, -⟩ | rfl
              · exact absurd rfl heq
              · exact ⟨0, p.1, p.2, hi, Or.inl ⟨rfl, rfl⟩⟩
            · rcases hq' with ⟨rfl, hi⟩ | rfl
              · exact ⟨0, p.1, p.2, hi, Or.inr ⟨rfl, rfl⟩⟩
              · exact absurd rfl heq

/-- Two ways to cut the same data into pieces that do not give the same positions. -/
theorem positions_fork (hsize : 0 < size) (hsum : lens.sum = lens'.sum)
    (hne : positions size 0 lens ≠ positions size 0 lens') :
    ∃ j b i : Nat, i + 1 < size ∧
      (((positions size 0 lens)[j]? = some (b, i + 1) ∧
        (positions size 0 lens')[j]? = some (b + 1, 0)) ∨
      ((positions size 0 lens)[j]? = some (b + 1, 0) ∧
        (positions size 0 lens')[j]? = some (b, i + 1))) := by
  have hchain : List.IsChain (Follows size) (positions size 0 lens) := positions_chain hsize
  have hchain' : List.IsChain (Follows size) (positions size 0 lens') := positions_chain hsize
  have hhead : ∀ p ∈ (positions size 0 lens).head?, p = (0, 0) := fun _ => positions_head hsize
  have hhead' : ∀ p ∈ (positions size 0 lens').head?, p = (0, 0) := fun _ => positions_head hsize
  have hlen : (positions size 0 lens).length = (positions size 0 lens').length := by
    rw [length_positions, length_positions, hsum]
  generalize positions size 0 lens = l at *
  generalize positions size 0 lens' = l' at *
  match l, l', hlen with
  | [], [], _ => exact absurd rfl hne
  | p :: l, p' :: l', hlen =>
      obtain rfl := hhead p rfl
      obtain rfl := hhead' p' rfl
      have hrest : l ≠ l' := fun h => hne (by rw [h])
      obtain ⟨j, b, i, hi, hfork⟩ := exists_fork hchain hchain' (Nat.succ_inj.mp hlen) hrest
      exact ⟨j + 1, b, i, hi, hfork⟩

end ZeroEmbedded.Foundation.Keystream
