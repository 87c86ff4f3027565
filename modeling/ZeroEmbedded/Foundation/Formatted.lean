import Mathlib

/-!
# Formatted text

A format is a list of pieces. A number of fixed width is read off the text by
its width, and a piece of any length by the mark that follows it.
-/

namespace ZeroEmbedded.Foundation

namespace Formatted

variable {base width m n : Nat}

/-- The last digits of a number. -/
def lastDigits (base : Nat) : Nat → Nat → List Nat
  | 0, _ => []
  | width + 1, n => lastDigits base width (n / base) ++ [n % base]

theorem lastDigits_length (base width n : Nat) : (lastDigits base width n).length = width := by
  induction width generalizing n with
  | zero => rfl
  | succ width ih => rw [lastDigits, List.length_append, ih, List.length_singleton]

theorem lt_of_mem_lastDigits (hbase : 0 < base) {d : Nat} (h : d ∈ lastDigits base width n) :
    d < base := by
  induction width generalizing n with
  | zero => exact absurd h List.not_mem_nil
  | succ width ih =>
      rcases List.mem_append.mp h with h | h
      · exact ih h
      · rw [List.mem_singleton.mp h]
        exact Nat.mod_lt _ hbase

/-- Numbers that fit have different digits. -/
theorem lastDigits_inj (hm : m < base ^ width) (hn : n < base ^ width)
    (h : lastDigits base width m = lastDigits base width n) : m = n := by
  induction width generalizing m n with
  | zero =>
      rw [Nat.pow_zero] at hm hn
      omega
  | succ width ih =>
      rw [lastDigits, lastDigits] at h
      obtain ⟨hdiv, hmod⟩ := List.append_inj' h rfl
      rw [Nat.pow_succ, Nat.mul_comm] at hm hn
      have hquot := ih (Nat.div_lt_of_lt_mul hm) (Nat.div_lt_of_lt_mul hn) hdiv
      rw [← Nat.div_add_mod m base, ← Nat.div_add_mod n base, hquot, List.singleton_inj.mp hmod]

/-- A digit of `%X`. -/
def hexChar (d : Nat) : Char := (Nat.digitChar d).toUpper

theorem hexChar_inj : ∀ c < 16, ∀ d < 16, hexChar c = hexChar d → c = d := by decide

theorem hexChar_mem : ∀ d < 16, hexChar d ∈ "0123456789ABCDEF".toList := by decide

/-- `%0*X` of a number that has no more digits. -/
def hexText (width n : Nat) : List Char := (lastDigits 16 width n).map hexChar

theorem hexText_length (width n : Nat) : (hexText width n).length = width := by
  rw [hexText, List.length_map, lastDigits_length]

theorem mem_hexText {c : Char} (h : c ∈ hexText width n) : c ∈ "0123456789ABCDEF".toList := by
  obtain ⟨d, hd, rfl⟩ := List.mem_map.mp h
  exact hexChar_mem d (lt_of_mem_lastDigits (by decide) hd)

theorem map_hexChar_inj {xs ys : List Nat} (hxs : ∀ d ∈ xs, d < 16) (hys : ∀ d ∈ ys, d < 16)
    (h : xs.map hexChar = ys.map hexChar) : xs = ys := by
  induction xs generalizing ys with
  | nil => exact (List.map_eq_nil_iff.mp h.symm).symm
  | cons x xs ih =>
      cases ys with
      | nil => cases h
      | cons y ys =>
          rw [List.map_cons, List.map_cons, List.cons.injEq] at h
          rw [hexChar_inj x (hxs x List.mem_cons_self) y (hys y List.mem_cons_self) h.1,
            ih (fun d hd => hxs d (List.mem_cons_of_mem x hd))
              (fun d hd => hys d (List.mem_cons_of_mem y hd)) h.2]

theorem hexText_inj (hm : m < 16 ^ width) (hn : n < 16 ^ width) :
    hexText width m = hexText width n ↔ m = n := by
  constructor
  · intro h
    have hbase : ∀ k, ∀ d ∈ lastDigits 16 width k, d < 16 := fun k d hd =>
      lt_of_mem_lastDigits (by decide) hd
    exact lastDigits_inj hm hn (map_hexChar_inj (hbase m) (hbase n) h)
  · exact congrArg _

theorem toDigits_inj : Nat.toDigits 10 m = Nat.toDigits 10 n ↔ m = n := by
  constructor
  · intro h
    have hvalue := congrArg (Nat.ofDigitChars 10 · 0) h
    rwa [Nat.ofDigitChars_toDigits (by decide) (by decide),
      Nat.ofDigitChars_toDigits (by decide) (by decide)] at hvalue
  · exact congrArg _

/-- Two texts before the same mark. -/
theorem append_mark_inj {α : Type*} {mark : α} {xs ys s t : List α} (hxs : mark ∉ xs)
    (hys : mark ∉ ys) : xs ++ mark :: s = ys ++ mark :: t ↔ xs = ys ∧ s = t := by
  constructor
  · intro h
    induction xs generalizing ys with
    | nil =>
        cases ys with
        | nil => exact ⟨rfl, (List.cons.inj h).2⟩
        | cons y ys =>
            have hmark := (List.cons.inj h).1
            exact absurd (hmark ▸ List.mem_cons_self) hys
    | cons x xs ih =>
        cases ys with
        | nil =>
            have hmark := (List.cons.inj h).1
            exact absurd (hmark ▸ List.mem_cons_self) hxs
        | cons y ys =>
            obtain ⟨hhead, htail⟩ := List.cons.inj h
            obtain ⟨hrest, hst⟩ := ih (fun hin => hxs (List.mem_cons_of_mem x hin))
              (fun hin => hys (List.mem_cons_of_mem y hin)) htail
            exact ⟨by rw [hhead, hrest], hst⟩
  · rintro ⟨rfl, rfl⟩
    rfl

/-- A piece of a format: text of the format, `%s`, `%0*X` and `%u`. -/
inductive Piece
  | lit (text : String)
  | str (text : List Char)
  | hex (width n : Nat)
  | dec (n : Nat)
  deriving DecidableEq, Repr

namespace Piece

def text : Piece → List Char
  | lit text => text.toList
  | str text => text
  | hex width n => hexText width n
  | dec n => Nat.toDigits 10 n

/-- The number of characters of a piece. -/
def size : Piece → Nat
  | lit text => text.length
  | str text => text.length
  | hex width _ => width
  | dec n => (Nat.toDigits 10 n).length

theorem text_length (p : Piece) : p.text.length = p.size := by
  cases p with
  | lit text => exact String.length_toList
  | str text => rfl
  | hex width n => exact hexText_length width n
  | dec n => rfl

end Piece

/-- The formatted text. -/
def render (ps : List Piece) : List Char := ps.flatMap Piece.text

theorem render_length (ps : List Piece) : (render ps).length = (ps.map Piece.size).sum := by
  rw [render, List.length_flatMap]
  exact congrArg (fun f => (ps.map f).sum) (funext Piece.text_length)

variable {ps qs : List Piece} {p q : Piece} {lit : String} {mark : Char} {rest : List Char}

theorem render_cons (p : Piece) (ps : List Piece) : render (p :: ps) = p.text ++ render ps := rfl

theorem render_lit_inj :
    render (.lit lit :: ps) = render (.lit lit :: qs) ↔ render ps = render qs := by
  rw [render_cons, render_cons, List.append_right_inj]

theorem render_hex_inj (hm : m < 16 ^ width) (hn : n < 16 ^ width) :
    render (.hex width m :: ps) = render (.hex width n :: qs) ↔
      m = n ∧ render ps = render qs := by
  rw [render_cons, render_cons, ← hexText_inj hm hn]
  constructor
  · exact fun h => List.append_inj h ((hexText_length width m).trans (hexText_length width n).symm)
  · rintro ⟨htext, hrest⟩
    rw [hrest]
    exact congrArg (· ++ _) htext

/-- A piece is read up to the mark that the text behind it begins with. -/
theorem render_marked_inj (hlit : lit.toList = mark :: rest) (hp : mark ∉ p.text)
    (hq : mark ∉ q.text) :
    render (p :: .lit lit :: ps) = render (q :: .lit lit :: qs) ↔
      p.text = q.text ∧ render ps = render qs := by
  have hcons : ∀ (p : Piece) ps,
      render (p :: .lit lit :: ps) = p.text ++ mark :: (rest ++ render ps) := by
    intro p ps
    rw [render_cons, render_cons, Piece.text, hlit, List.cons_append]
  rw [hcons, hcons, append_mark_inj hp hq, List.append_right_inj]

theorem render_dec_inj (hlit : lit.toList = mark :: rest) (hmark : mark.isDigit = false) :
    render (.dec m :: .lit lit :: ps) = render (.dec n :: .lit lit :: qs) ↔
      m = n ∧ render ps = render qs := by
  have hnot : ∀ k, mark ∉ (Piece.dec k).text := by
    intro k hin
    have hdigit := Nat.isDigit_of_mem_toDigits (by decide) (by decide) hin
    rw [hmark] at hdigit
    exact Bool.noConfusion hdigit
  rw [render_marked_inj hlit (hnot m) (hnot n), ← toDigits_inj (m := m)]
  rfl

end Formatted

end ZeroEmbedded.Foundation
