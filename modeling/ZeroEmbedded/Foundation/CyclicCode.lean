import Mathlib

/-!
# Cyclic redundancy codes

A register of `w` bits is shifted bit by bit, and the generator is added for
every bit that leaves it. Symbols of `m` bits are added at the upper end. The
register is then the remainder of the data by the generator, and symbols that
fit into it can be recovered from it.
-/

namespace ZeroEmbedded.Foundation.CyclicCode

variable {w m : Nat}

/-- Shift the register by one bit, and add the generator for a bit that leaves it. -/
def round (g a : BitVec w) : BitVec w :=
  (a <<< 1) ^^^ (if a.msb then g else 0#w)

/-- A symbol at the upper end of the register. -/
def top (w : Nat) (b : BitVec m) : BitVec w := b.setWidth w <<< (w - m)

/-- Add one symbol and shift it through. -/
def step (g a : BitVec w) (b : BitVec m) : BitVec w :=
  (round g)^[m] (a ^^^ top w b)

theorem round_xor (g a b : BitVec w) : round g (a ^^^ b) = round g a ^^^ round g b := by
  rw [round, round, round, BitVec.shiftLeft_xor_distrib, BitVec.msb_xor]
  cases a.msb <;> cases b.msb
  · simp
  · simp [BitVec.xor_assoc]
  · simp only [Bool.true_xor, Bool.not_false, if_true, Bool.false_eq_true, if_false,
      BitVec.xor_zero]
    ac_rfl
  · -- the generator is added on both sides
    simp only [Bool.true_xor, Bool.not_true, Bool.false_eq_true, if_false, if_true,
      BitVec.xor_zero]
    calc a <<< 1 ^^^ b <<< 1 = a <<< 1 ^^^ b <<< 1 ^^^ (g ^^^ g) := by simp
      _ = a <<< 1 ^^^ g ^^^ (b <<< 1 ^^^ g) := by ac_rfl

theorem round_eq_zero {g a : BitVec w} (hg : g.getLsbD 0 = true) (h : round g a = 0#w) :
    a = 0#w := by
  have hmsb : a.msb = false := by
    have hlow := congrArg (fun x => BitVec.getLsbD x 0) h
    simp only [round, BitVec.getLsbD_xor, BitVec.getLsbD_shiftLeft, BitVec.getLsbD_zero] at hlow
    cases hm : a.msb with
    | false => rfl
    | true => simp [hm, hg] at hlow
  have hshift : a <<< 1 = 0#w := by simpa [round, hmsb] using h
  refine BitVec.eq_of_getLsbD_eq fun i hi => ?_
  rw [BitVec.getLsbD_zero]
  rcases Nat.lt_or_ge (i + 1) w with hlt | hge
  · have hbit := congrArg (fun x => BitVec.getLsbD x (i + 1)) hshift
    rw [BitVec.getLsbD_shiftLeft, BitVec.getLsbD_zero] at hbit
    simpa only [hlt, decide_true, Bool.true_and, Nat.lt_one_iff, Nat.succ_ne_zero, decide_false,
      Bool.not_false, Nat.add_sub_cancel] using hbit
  · rw [BitVec.msb_eq_getLsbD_last] at hmsb
    rwa [show i = w - 1 by omega]

theorem round_injective {g : BitVec w} (hg : g.getLsbD 0 = true) :
    Function.Injective (round g) := by
  intro a b h
  have hzero : round g (a ^^^ b) = 0#w := by rw [round_xor, h, BitVec.xor_self]
  exact BitVec.xor_eq_zero_iff.mp (round_eq_zero hg hzero)

theorem iterate_round_xor (g : BitVec w) (n : Nat) (a b : BitVec w) :
    (round g)^[n] (a ^^^ b) = (round g)^[n] a ^^^ (round g)^[n] b := by
  induction n generalizing a b with
  | zero => rfl
  | succ n ih => rw [Function.iterate_succ_apply, round_xor, ih]; rfl

/-- Without a bit that leaves the register, the rounds are a shift. -/
theorem iterate_round_of_top_zero {g : BitVec w} (n : Nat) {a : BitVec w}
    (h : ∀ i, w - n ≤ i → a.getLsbD i = false) : (round g)^[n] a = a <<< n := by
  induction n generalizing a with
  | zero => simp
  | succ n ih =>
      have hmsb : a.msb = false := by
        rw [BitVec.msb_eq_getLsbD_last]
        exact h _ (by omega)
      have hround : round g a = a <<< 1 := by simp [round, hmsb]
      rw [Function.iterate_succ_apply, hround, ih, ← BitVec.shiftLeft_add, Nat.add_comm]
      intro i hi
      rw [BitVec.getLsbD_shiftLeft]
      rcases Nat.lt_or_ge i w with hlt | hge
      · rcases Nat.eq_zero_or_pos i with rfl | hpos
        · simp
        · simp [h (i - 1) (by omega)]
      · simp [Nat.not_lt.mpr hge]

/-- A register whose lower bits are empty comes back from the rounds that would fill them. -/
theorem iterate_round_ushiftRight {g y : BitVec w} {n : Nat}
    (h : ∀ i < n, y.getLsbD i = false) : (round g)^[n] (y >>> n) = y := by
  rw [iterate_round_of_top_zero n]
  · refine BitVec.eq_of_getLsbD_eq fun i hi => ?_
    rw [BitVec.getLsbD_shiftLeft, BitVec.getLsbD_ushiftRight]
    rcases Nat.lt_or_ge i n with hlt | hge
    · simp [hlt, h i hlt]
    · simp [hi, Nat.not_lt.mpr hge, Nat.add_sub_cancel' hge]
  · intro i hi
    rw [BitVec.getLsbD_ushiftRight]
    exact BitVec.getLsbD_of_ge _ _ (by omega)

/-- A step loses nothing of the register before it. -/
theorem step_injective {g : BitVec w} (hg : g.getLsbD 0 = true) (b : BitVec m) :
    Function.Injective fun a => step g a b := by
  intro a a' h
  exact (BitVec.xor_left_inj _).mp ((round_injective hg).iterate m h)

/-- The symbols side by side, the first one at the upper end of the register. -/
def aligned (w : Nat) : List (BitVec m) → BitVec w
  | [] => 0#w
  | b :: bs => top w b ^^^ (aligned w bs >>> m)

theorem getLsbD_top_of_lt {b : BitVec m} {i : Nat} (h : i < w - m) :
    (top w b).getLsbD i = false := by
  rw [top, BitVec.getLsbD_shiftLeft]
  simp [h]

theorem getLsbD_top_add {b : BitVec m} {i : Nat} (hm : m ≤ w) (hi : i < m) :
    (top w b).getLsbD (w - m + i) = b.getLsbD i := by
  rw [top, BitVec.getLsbD_shiftLeft, Nat.add_sub_cancel_left, BitVec.getLsbD_setWidth]
  have hlt : w - m + i < w := by omega
  have hi' : i < w := by omega
  simp [hlt, hi']

/-- The bits below the symbols are empty. -/
theorem getLsbD_aligned_of_lt {bs : List (BitVec m)} {i : Nat} (h : i < w - m * bs.length) :
    (aligned w bs).getLsbD i = false := by
  induction bs generalizing i with
  | nil => exact BitVec.getLsbD_zero
  | cons b bs ih =>
      rw [List.length_cons, Nat.mul_succ] at h
      rw [aligned, BitVec.getLsbD_xor, BitVec.getLsbD_ushiftRight,
        getLsbD_top_of_lt (by omega), ih (by omega), Bool.false_xor]

theorem top_xor (b b' : BitVec m) : top w (b ^^^ b') = top w b ^^^ top w b' := by
  rw [top, top, top, BitVec.setWidth_xor, BitVec.shiftLeft_xor_distrib]

/-- Symbols that fit into the register are added as one, and then shifted through. -/
theorem foldl_step {g a : BitVec w} {bs : List (BitVec m)} (hfit : m * bs.length ≤ w) :
    bs.foldl (step g) a = (round g)^[m * bs.length] (a ^^^ aligned w bs) := by
  induction bs generalizing a with
  | nil => simp [aligned]
  | cons b bs ih =>
      rw [List.length_cons, Nat.mul_succ] at hfit ⊢
      have hback : (round g)^[m] (aligned w bs >>> m) = aligned w bs :=
        iterate_round_ushiftRight fun i hi => getLsbD_aligned_of_lt (by omega)
      rw [List.foldl_cons, ih (by omega), Function.iterate_add_apply, aligned,
        ← BitVec.xor_assoc, iterate_round_xor g m, hback]
      rfl

theorem aligned_injective {bs bs' : List (BitVec m)} (hlen : bs.length = bs'.length)
    (hfit : m * bs.length ≤ w) (h : aligned w bs = aligned w bs') : bs = bs' := by
  induction bs generalizing bs' with
  | nil => exact (List.length_eq_zero_iff.mp hlen.symm).symm
  | cons b bs ih =>
      cases bs' with
      | nil => cases hlen
      | cons b' bs' =>
          have hlen' : bs.length = bs'.length := Nat.succ.inj hlen
          rw [List.length_cons, Nat.mul_succ] at hfit
          have hbit : ∀ i, ((top w b).getLsbD i ^^ (aligned w bs).getLsbD (m + i)) =
              ((top w b').getLsbD i ^^ (aligned w bs').getLsbD (m + i)) := by
            intro i
            simpa [aligned, BitVec.getLsbD_ushiftRight] using
              congrArg (fun x => BitVec.getLsbD x i) h
          have hhead : b = b' := by
            refine BitVec.eq_of_getLsbD_eq fun i hi => ?_
            have hout : ∀ a : BitVec w, a.getLsbD (m + (w - m + i)) = false :=
              fun a => BitVec.getLsbD_of_ge a _ (by omega)
            have hi' := hbit (w - m + i)
            rwa [getLsbD_top_add (by omega) hi, getLsbD_top_add (by omega) hi, hout, hout,
              Bool.xor_false, Bool.xor_false] at hi'
          subst hhead
          have htail : aligned w bs = aligned w bs' := by
            refine BitVec.eq_of_getLsbD_eq fun i hi => ?_
            rcases Nat.lt_or_ge i m with hlt | hge
            · rw [getLsbD_aligned_of_lt (by omega), getLsbD_aligned_of_lt (by rw [← hlen']; omega)]
            · have hi' := Bool.xor_right_inj.mp (hbit (i - m))
              rwa [Nat.add_sub_cancel' hge] at hi'
          rw [ih hlen' (by omega) htail]

/-- Symbols that fit into the register can be recovered from the register behind them. -/
theorem foldl_step_window {g : BitVec w} (hg : g.getLsbD 0 = true) (a : BitVec w)
    {bs bs' : List (BitVec m)} (hlen : bs.length = bs'.length) (hfit : m * bs.length ≤ w)
    (h : bs.foldl (step g) a = bs'.foldl (step g) a) : bs = bs' := by
  rw [foldl_step hfit, foldl_step (hlen ▸ hfit), ← hlen] at h
  have hxor := (round_injective hg).iterate _ h
  exact aligned_injective hlen hfit ((BitVec.xor_right_inj _).mp hxor)

/-- A step on the upper symbol of the register: the rest is only shifted, so a table over
the symbols can stand for the rounds. -/
theorem step_eq_shift_xor {g a : BitVec w} {b : BitVec m} (hm : m ≤ w) :
    step g a b =
      (a <<< m) ^^^ (round g)^[m] (top w ((a >>> (w - m)).setWidth m ^^^ b)) := by
  have hupper : ∀ i, w - m ≤ i → (a ^^^ top w ((a >>> (w - m)).setWidth m)).getLsbD i = false := by
    intro i hi
    rcases Nat.lt_or_ge i w with hlt | hge
    · obtain ⟨k, rfl⟩ := Nat.exists_eq_add_of_le hi
      have hk : k < m := by omega
      rw [BitVec.getLsbD_xor, getLsbD_top_add hm hk, BitVec.getLsbD_setWidth,
        BitVec.getLsbD_ushiftRight, decide_eq_true hk, Bool.true_and, Bool.xor_self]
    · exact BitVec.getLsbD_of_ge _ _ hge
  have hshift : ∀ c : BitVec m, top w c <<< m = 0#w := by
    intro c
    rw [top, ← BitVec.shiftLeft_add, Nat.sub_add_cancel hm]
    exact BitVec.shiftLeft_eq_zero (Nat.le_refl w)
  have hlower := iterate_round_of_top_zero (g := g) m hupper
  rw [BitVec.shiftLeft_xor_distrib, hshift, BitVec.xor_zero] at hlower
  rw [step, ← hlower, ← iterate_round_xor, top_xor]
  congr 1
  simp only [← BitVec.xor_assoc]
  rw [BitVec.xor_assoc a, BitVec.xor_self, BitVec.xor_zero]

section Reflected

/-- The round of a register with its lowest bit first, the generator `g` reversed too. -/
def reflectedRound (g a : BitVec w) : BitVec w :=
  (a >>> 1) ^^^ (if a.getLsbD 0 then g else 0#w)

/-- Add one symbol at the lower end and shift it through. -/
def reflectedStep (g a : BitVec w) (b : BitVec m) : BitVec w :=
  (reflectedRound g)^[m] (a ^^^ b.setWidth w)

theorem reverse_xor (a b : BitVec w) : (a ^^^ b).reverse = a.reverse ^^^ b.reverse := by
  refine BitVec.eq_of_getLsbD_eq fun i hi => ?_
  simp only [BitVec.getLsbD_reverse, BitVec.getLsbD_xor, BitVec.getMsbD_xor]

theorem reverse_zero : (0#w).reverse = 0#w := BitVec.reverse_eq_zero_iff.mpr rfl

theorem reverse_injective : Function.Injective (BitVec.reverse (w := w)) := by
  intro a b h
  rw [← BitVec.reverse_reverse_eq (x := a), h, BitVec.reverse_reverse_eq]

theorem reverse_reflectedRound (g a : BitVec w) :
    (reflectedRound g a).reverse = round g.reverse a.reverse := by
  have hshift : (a >>> 1).reverse = a.reverse <<< 1 := by
    refine BitVec.eq_of_getLsbD_eq fun i hi => ?_
    rw [BitVec.getLsbD_shiftLeft, BitVec.getLsbD_reverse, BitVec.getLsbD_reverse,
      BitVec.getMsbD_eq_getLsbD, BitVec.getMsbD_eq_getLsbD, BitVec.getLsbD_ushiftRight]
    rcases Nat.eq_zero_or_pos i with rfl | hpos
    · simp [BitVec.getLsbD_of_ge a (1 + (w - 1)) (by omega)]
    · have hidx : w - 1 - (i - 1) = 1 + (w - 1 - i) := by omega
      simp [hidx, hi, Nat.not_lt.mpr hpos, Nat.lt_of_le_of_lt (Nat.sub_le i 1) hi]
  rw [reflectedRound, reverse_xor, hshift, round, BitVec.msb_reverse]
  cases a.getLsbD 0 with
  | true => rfl
  | false => rw [if_neg Bool.false_ne_true, if_neg Bool.false_ne_true, reverse_zero]

theorem reverse_setWidth {b : BitVec m} (hm : m ≤ w) :
    (b.setWidth w).reverse = top w b.reverse := by
  refine BitVec.eq_of_getLsbD_eq fun i hi => ?_
  rw [BitVec.getLsbD_reverse, BitVec.getMsbD_eq_getLsbD, BitVec.getLsbD_setWidth]
  rcases Nat.lt_or_ge i (w - m) with hlt | hge
  · rw [getLsbD_top_of_lt hlt, BitVec.getLsbD_of_ge b _ (by omega)]
    simp
  · obtain ⟨k, rfl⟩ := Nat.exists_eq_add_of_le hge
    have hlast : w - 1 - (w - m + k) = m - 1 - k := by omega
    have hk : k < m := by omega
    have hm' : m - 1 - k < w := by omega
    rw [getLsbD_top_add hm hk, BitVec.getLsbD_reverse, BitVec.getMsbD_eq_getLsbD, hlast]
    simp [hi, hk, hm']

/-- A reflected step is the step of the register read in the other direction. -/
theorem reverse_reflectedStep (hm : m ≤ w) (g a : BitVec w) (b : BitVec m) :
    (reflectedStep g a b).reverse = step g.reverse a.reverse b.reverse := by
  have hiterate : ∀ (n : Nat) (x : BitVec w),
      ((reflectedRound g)^[n] x).reverse = (round g.reverse)^[n] x.reverse := by
    intro n
    induction n with
    | zero => exact fun _ => rfl
    | succ n ih =>
        intro x
        rw [Function.iterate_succ_apply, ih, reverse_reflectedRound]
        rfl
  rw [reflectedStep, hiterate, reverse_xor, reverse_setWidth hm]
  rfl

theorem reverse_foldl_reflectedStep (hm : m ≤ w) (g a : BitVec w) (bs : List (BitVec m)) :
    (bs.foldl (reflectedStep g) a).reverse =
      (bs.map BitVec.reverse).foldl (step g.reverse) a.reverse := by
  induction bs generalizing a with
  | nil => rfl
  | cons b bs ih =>
      rw [List.foldl_cons, ih, reverse_reflectedStep hm]
      rfl

variable {g : BitVec w}

theorem reflectedStep_injective (hm : m ≤ w) (hg : g.reverse.getLsbD 0 = true) (b : BitVec m) :
    Function.Injective fun a => reflectedStep g a b := by
  intro a a' h
  have hstep := congrArg BitVec.reverse h
  dsimp only at hstep
  rw [reverse_reflectedStep hm, reverse_reflectedStep hm] at hstep
  exact reverse_injective (step_injective hg b.reverse hstep)

theorem foldl_reflectedStep_window (hm : m ≤ w) (hg : g.reverse.getLsbD 0 = true) (a : BitVec w)
    {bs bs' : List (BitVec m)} (hlen : bs.length = bs'.length) (hfit : m * bs.length ≤ w)
    (h : bs.foldl (reflectedStep g) a = bs'.foldl (reflectedStep g) a) : bs = bs' := by
  have hstep := congrArg BitVec.reverse h
  rw [reverse_foldl_reflectedStep hm, reverse_foldl_reflectedStep hm] at hstep
  have hmap := foldl_step_window hg a.reverse (by simpa using hlen) (by simpa using hfit) hstep
  exact reverse_injective.list_map hmap

end Reflected

section Remainder

open Polynomial

/-- A bit as a coefficient. -/
def coefficient (b : Bool) : ZMod 2 := if b then 1 else 0

theorem coefficient_xor (a b : Bool) :
    coefficient (a ^^ b) = coefficient a + coefficient b := by
  cases a <;> cases b <;> decide

/-- The bits of a register as the coefficients of a polynomial. -/
noncomputable def poly (a : BitVec w) : (ZMod 2)[X] :=
  ofFn w fun i => coefficient (a.getLsbD i)

@[simp] theorem coeff_poly (a : BitVec w) (i : Nat) :
    (poly a).coeff i = coefficient (a.getLsbD i) := by
  rcases Nat.lt_or_ge i w with hlt | hge
  · exact ofFn_coeff_eq_val_of_lt _ hlt
  · rw [BitVec.getLsbD_of_ge a i hge]
    exact ofFn_coeff_eq_zero_of_ge _ hge

theorem degree_poly_lt (a : BitVec w) : (poly a).degree < w := ofFn_degree_lt _

@[simp] theorem poly_zero : poly (0#w) = 0 := by
  ext i
  simp [coefficient]

theorem poly_xor (a b : BitVec w) : poly (a ^^^ b) = poly a + poly b := by
  ext i
  simp only [coeff_poly, coeff_add, BitVec.getLsbD_xor, coefficient_xor]

theorem poly_top {b : BitVec m} (hm : m ≤ w) : poly (top w b) = X ^ (w - m) * poly b := by
  ext i
  rw [coeff_X_pow_mul', coeff_poly]
  rcases Nat.lt_or_ge i (w - m) with hlt | hge
  · rw [getLsbD_top_of_lt hlt, if_neg (by omega)]
    rfl
  · rw [if_pos hge, coeff_poly]
    rcases Nat.lt_or_ge (i - (w - m)) m with hlt | hge'
    · rw [← getLsbD_top_add hm hlt, Nat.add_sub_cancel' hge]
    · rw [BitVec.getLsbD_of_ge b _ hge', BitVec.getLsbD_of_ge _ _ (by omega)]

/-- The generator with the leading bit that its register leaves out. -/
noncomputable def generator (g : BitVec w) : (ZMod 2)[X] := X ^ w + poly g

theorem generator_monic (g : BitVec w) : (generator g).Monic :=
  monic_X_pow_add (degree_poly_lt g)

theorem degree_generator (g : BitVec w) : (generator g).degree = w := by
  have hlt : (poly g).degree < (X ^ w : (ZMod 2)[X]).degree := by
    rw [degree_X_pow]
    exact degree_poly_lt g
  rw [generator, degree_add_eq_left_of_degree_lt hlt, degree_X_pow]

/-- The data as one polynomial, the first symbol at its upper end. -/
noncomputable def message : List (BitVec m) → (ZMod 2)[X]
  | [] => 0
  | b :: bs => X ^ (m * bs.length) * poly b + message bs

theorem poly_shiftLeft_one (hw : 0 < w) (a : BitVec w) :
    poly (a <<< 1) = X * poly a + (if a.msb then X ^ w else 0) := by
  have hleave : (if a.msb then X ^ w else 0 : (ZMod 2)[X]) =
      C (coefficient (a.getLsbD (w - 1))) * X ^ w := by
    rw [BitVec.msb_eq_getLsbD_last]
    cases a.getLsbD (w - 1) <;> simp [coefficient]
  ext i
  rw [hleave, coeff_poly, BitVec.getLsbD_shiftLeft, coeff_add, coeff_C_mul_X_pow]
  cases i with
  | zero => simp [coefficient, hw.ne]
  | succ i =>
      have hlow : decide (i + 1 < 1) = false := decide_eq_false (by omega)
      rw [coeff_X_mul, coeff_poly, Nat.add_sub_cancel, hlow, Bool.not_false, Bool.and_true]
      rcases Nat.lt_trichotomy (i + 1) w with hlt | heq | hgt
      · rw [decide_eq_true hlt, if_neg hlt.ne, Bool.true_and, add_zero]
      · -- the bit that leaves stands twice
        have hlast : w - 1 = i := by omega
        rw [decide_eq_false (by omega), if_pos heq, hlast, CharTwo.add_self_eq_zero]
        rfl
      · rw [decide_eq_false (by omega), if_neg hgt.ne', BitVec.getLsbD_of_ge a i (by omega)]
        rfl

/-- A round takes the generator away once for a bit that leaves the register. -/
theorem poly_round (hw : 0 < w) (g a : BitVec w) :
    poly (round g a) = X * poly a + (if a.msb then generator g else 0) := by
  rw [round, poly_xor, poly_shiftLeft_one hw]
  cases a.msb
  · simp
  · simp only [if_true, generator, add_assoc]

theorem generator_dvd_iterate (hw : 0 < w) (g : BitVec w) (n : Nat) (a : BitVec w) :
    generator g ∣ X ^ n * poly a - poly ((round g)^[n] a) := by
  induction n generalizing a with
  | zero => simp
  | succ n ih =>
      have hround : generator g ∣ X * poly a - poly (round g a) := by
        rw [poly_round hw]
        cases a.msb <;> simp
      have hsum := dvd_add (Dvd.dvd.mul_left hround (X ^ n)) (ih (round g a))
      rw [Function.iterate_succ_apply]
      have heq : X ^ (n + 1) * poly a - poly ((round g)^[n] (round g a)) =
          X ^ n * (X * poly a - poly (round g a)) +
            (X ^ n * poly (round g a) - poly ((round g)^[n] (round g a))) := by ring
      rwa [heq]

theorem generator_dvd_foldl (hw : 0 < w) (hm : m ≤ w) (g a : BitVec w) (bs : List (BitVec m)) :
    generator g ∣ X ^ w * message bs + X ^ (m * bs.length) * poly a -
      poly (bs.foldl (step g) a) := by
  induction bs generalizing a with
  | nil => simp [message]
  | cons b bs ih =>
      have hstep := generator_dvd_iterate hw g m (a ^^^ top w b)
      have hsum := dvd_add (Dvd.dvd.mul_left hstep (X ^ (m * bs.length))) (ih (step g a b))
      have hpow : (X : (ZMod 2)[X]) ^ w = X ^ m * X ^ (w - m) := by
        rw [← pow_add, Nat.add_sub_cancel' hm]
      have heq : X ^ w * message (b :: bs) + X ^ (m * (b :: bs).length) * poly a -
            poly ((b :: bs).foldl (step g) a) =
          X ^ (m * bs.length) * (X ^ m * poly (a ^^^ top w b) - poly (step g a b)) +
            (X ^ w * message bs + X ^ (m * bs.length) * poly (step g a b) -
              poly (bs.foldl (step g) (step g a b))) := by
        rw [poly_xor, poly_top hm, message, List.length_cons, Nat.mul_succ, pow_add,
          List.foldl_cons, hpow]
        ring
      rwa [heq]

/-- The register is the remainder of the data behind its start value, times `X ^ w`. -/
theorem poly_foldl_step (hw : 0 < w) (hm : m ≤ w) (g a : BitVec w) (bs : List (BitVec m)) :
    poly (bs.foldl (step g) a) =
      (X ^ w * message bs + X ^ (m * bs.length) * poly a) %ₘ generator g := by
  have hself : poly (bs.foldl (step g) a) %ₘ generator g = poly (bs.foldl (step g) a) := by
    rw [modByMonic_eq_self_iff (generator_monic g), degree_generator]
    exact degree_poly_lt _
  rw [← hself]
  exact (modByMonic_eq_of_dvd_sub (generator_monic g) (generator_dvd_foldl hw hm g a bs)).symm

end Remainder

end ZeroEmbedded.Foundation.CyclicCode
