import Mathlib

/-!
# Lines

A text is split behind every separator, and the lines keep their separators.
Offsets in the text are offsets in its lines.
-/

namespace ZeroEmbedded.Foundation

variable {α : Type*} [DecidableEq α] (sep : α)

/-- The lines of a text, with their separators. -/
def splitLines : List α → List (List α)
  | [] => []
  | a :: rest =>
      if a = sep then [a] :: splitLines rest
      else
        match splitLines rest with
        | [] => [[a]]
        | line :: lines => (a :: line) :: lines

/-- A line begins behind this text. -/
def LineEnd (front : List α) : Prop := front = [] ∨ ∃ rest, front = rest ++ [sep]

variable {sep}

theorem splitLines_flatten (text : List α) : (splitLines sep text).flatten = text := by
  induction text with
  | nil => rfl
  | cons a rest ih =>
      rw [splitLines]
      split
      · rw [List.flatten_cons, ih]
        rfl
      · split
        · next hnil =>
            rw [hnil] at ih
            rw [← ih]
            rfl
        · next line lines hcons =>
            rw [hcons, List.flatten_cons] at ih
            rw [List.flatten_cons, List.cons_append, ih]

/-- The lines of a text that is continued where a line begins. -/
theorem splitLines_append {front : List α} (h : LineEnd sep front) (rest : List α) :
    splitLines sep (front ++ rest) = splitLines sep front ++ splitLines sep rest := by
  induction front with
  | nil => rfl
  | cons a front ih =>
      rw [List.cons_append, splitLines, splitLines]
      rcases h with hnil | ⟨rest', hrest⟩
      · cases hnil
      cases rest' with
      | nil =>
          obtain ⟨rfl, rfl⟩ := List.cons.inj hrest
          rw [if_pos rfl, if_pos rfl]
          rfl
      | cons b rest' =>
          have hfront : front = rest' ++ [sep] := (List.cons.inj hrest).2
          rw [ih (Or.inr ⟨rest', hfront⟩)]
          split
          · rfl
          · cases hlines : splitLines sep front with
            | nil =>
                have hflat : (splitLines sep front).flatten = front := splitLines_flatten front
                rw [hlines, hfront] at hflat
                exact absurd hflat (List.append_ne_nil_of_right_ne_nil _ (List.cons_ne_nil _ _)).symm
            | cons line lines => rfl

/-- The first line of a text that begins with characters of one line. -/
theorem splitLines_cons_append {front : List α} (hne : front ≠ []) (hsep : sep ∉ front)
    (rest : List α) :
    ∃ line lines, splitLines sep (front ++ rest) = (front ++ line) :: lines := by
  induction front with
  | nil => exact absurd rfl hne
  | cons a front ih =>
      rw [List.mem_cons, not_or] at hsep
      obtain ⟨ha, hfront⟩ := hsep
      rw [List.cons_append, splitLines, if_neg (Ne.symm ha)]
      cases front with
      | nil =>
          rw [List.nil_append]
          cases splitLines sep rest with
          | nil => exact ⟨[], [], rfl⟩
          | cons line lines => exact ⟨line, lines, rfl⟩
      | cons b front =>
          obtain ⟨line, lines, hlines⟩ := ih (List.cons_ne_nil _ _) hfront
          rw [hlines]
          exact ⟨line, lines, rfl⟩

/-- A line is one of characters that do not separate, and all but the last one end with a
separator. -/
theorem splitLines_line {text line : List α} {before after : List (List α)}
    (h : splitLines sep text = before ++ line :: after) :
    ∃ front, sep ∉ front ∧ (line = front ++ [sep] ∨ line = front ∧ after = []) := by
  induction text generalizing before line with
  | nil =>
      cases before <;> cases h
  | cons a rest ih =>
      rw [splitLines] at h
      split at h
      · next hsep =>
          cases before with
          | nil =>
              obtain ⟨hline, -⟩ := List.cons.inj h
              refine ⟨[], List.not_mem_nil, Or.inl ?_⟩
              rw [← hline, hsep]
              rfl
          | cons first before => exact ih (List.cons.inj h).2
      · next hsep =>
          split at h
          · cases before with
            | nil =>
                obtain ⟨hline, hafter⟩ := List.cons.inj h
                refine ⟨[a], ?_, Or.inr ⟨hline.symm, hafter.symm⟩⟩
                rw [List.mem_singleton]
                exact Ne.symm hsep
            | cons first before => cases before <;> cases (List.cons.inj h).2
          · next line' lines hlines =>
              cases before with
              | nil =>
                  obtain ⟨hline, hafter⟩ := List.cons.inj h
                  rw [hafter] at hlines
                  have hfirst : splitLines sep rest = [] ++ line' :: after := hlines
                  obtain ⟨front, hfront, hend⟩ := ih hfirst
                  refine ⟨a :: front, ?_, ?_⟩
                  · rw [List.mem_cons]
                    exact not_or.mpr ⟨Ne.symm hsep, hfront⟩
                  · rw [← hline]
                    rcases hend with hend | ⟨hend, hlast⟩
                    · exact Or.inl (by rw [hend, List.cons_append])
                    · exact Or.inr ⟨by rw [hend], hlast⟩
              | cons first before =>
                  obtain ⟨-, hrest⟩ := List.cons.inj h
                  have hlater : splitLines sep rest = (line' :: before) ++ line :: after := by
                    rw [hlines, hrest]
                    rfl
                  exact ih hlater

/-- The text in front of a line ends where a line begins. -/
theorem splitLines_lineEnd {text line : List α} {before after : List (List α)}
    (h : splitLines sep text = before ++ line :: after) : LineEnd sep before.flatten := by
  rcases List.eq_nil_or_concat' before with rfl | ⟨before, last, rfl⟩
  · exact Or.inl rfl
  · rw [List.append_assoc, List.singleton_append] at h
    obtain ⟨front, -, hlast | ⟨-, hnil⟩⟩ := splitLines_line h
    · refine Or.inr ⟨before.flatten ++ front, ?_⟩
      rw [List.flatten_append, List.flatten_singleton, hlast, List.append_assoc]
    · cases hnil

omit [DecidableEq α] in
/-- Of two places in a list one is in front of the other, or they are the same. -/
theorem append_cons_cases {before after before' after' : List α} {a a' : α}
    (h : before ++ a :: after = before' ++ a' :: after') :
    before ++ [a] <+: before' ∨ before' ++ [a'] <+: before ∨ before = before' ∧ a = a' := by
  rcases List.append_eq_append_iff.mp h with ⟨rest, rfl, hrest⟩ | ⟨rest, rfl, hrest⟩
  · cases rest with
    | nil => exact Or.inr (Or.inr ⟨(List.append_nil _).symm, (List.cons.inj hrest).1⟩)
    | cons b rest =>
        left
        rw [(List.cons.inj hrest).1]
        exact ⟨rest, by rw [List.append_assoc]; rfl⟩
  · cases rest with
    | nil => exact Or.inr (Or.inr ⟨List.append_nil _, (List.cons.inj hrest).1.symm⟩)
    | cons b rest =>
        right
        left
        rw [(List.cons.inj hrest).1]
        exact ⟨rest, by rw [List.append_assoc]; rfl⟩

section Offsets

variable {text line line' : List α} {before after before' after' : List (List α)} {e : Nat}

theorem ne_nil_of_mem_splitLines (h : line ∈ splitLines sep text) : line ≠ [] := by
  induction text with
  | nil => cases h
  | cons a rest ih =>
      rw [splitLines] at h
      split at h
      · rcases List.mem_cons.mp h with rfl | h
        · exact List.cons_ne_nil _ _
        · exact ih h
      · split at h
        · rw [List.mem_singleton.mp h]
          exact List.cons_ne_nil _ _
        · next first lines hlines =>
            rcases List.mem_cons.mp h with rfl | h
            · exact List.cons_ne_nil _ _
            · exact ih (by rw [hlines]; exact List.mem_cons_of_mem _ h)

/-- The text in front of a line. -/
theorem take_of_splitLines (h : splitLines sep text = before ++ after) :
    text.take before.flatten.length = before.flatten := by
  have htext : text = before.flatten ++ after.flatten := by
    rw [← List.flatten_append, ← h, splitLines_flatten]
  rw [htext, List.take_left]

/-- Where a line begins, it is one of the lines. -/
theorem exists_line_of_lineEnd (hend : LineEnd sep (text.take e)) (he : e < text.length) :
    ∃ before line after, splitLines sep text = before ++ line :: after ∧
      e = before.flatten.length := by
  have hsplit := splitLines_append hend (text.drop e)
  rw [List.take_append_drop] at hsplit
  cases hrest : splitLines sep (text.drop e) with
  | nil =>
      have hdrop : (splitLines sep (text.drop e)).flatten = text.drop e := splitLines_flatten _
      rw [hrest] at hdrop
      have hlength := congrArg List.length hdrop
      rw [List.length_drop] at hlength
      change 0 = _ at hlength
      omega
  | cons line after =>
      rw [hrest] at hsplit
      refine ⟨_, line, after, hsplit, ?_⟩
      rw [splitLines_flatten, List.length_take_of_le (Nat.le_of_lt he)]

/-- Lines that begin at other offsets are other lines. -/
theorem prefix_of_offset_lt (h : splitLines sep text = before ++ line :: after)
    (h' : splitLines sep text = before' ++ line' :: after')
    (hlt : before.flatten.length < before'.flatten.length) : before ++ [line] <+: before' := by
  rcases append_cons_cases (h.symm.trans h') with hpart | hpart | ⟨rfl, -⟩
  · exact hpart
  · have hle := hpart.flatten.length_le
    rw [List.flatten_append, List.length_append] at hle
    omega
  · exact absurd hlt (Nat.lt_irrefl _)

theorem eq_of_offset_eq (h : splitLines sep text = before ++ line :: after)
    (h' : splitLines sep text = before' ++ line' :: after')
    (heq : before.flatten.length = before'.flatten.length) : before = before' ∧ line = line' := by
  have hpositive : ∀ {b c x d}, splitLines sep text = b ++ x :: d → b ++ [x] <+: c →
      b.flatten.length < c.flatten.length := by
    intro b c x d hsplit hpart
    have hne : x ≠ [] := by
      have hmem : x ∈ splitLines sep text := by
        rw [hsplit]
        exact List.mem_append_right _ List.mem_cons_self
      exact ne_nil_of_mem_splitLines hmem
    have hpos := List.length_pos_iff.mpr hne
    have hle := hpart.flatten.length_le
    rw [List.flatten_append, List.length_append, List.flatten_singleton] at hle
    omega
  rcases append_cons_cases (h.symm.trans h') with hpart | hpart | hsame
  · have hlt := hpositive h hpart
    omega
  · have hlt := hpositive h' hpart
    omega
  · exact hsame

end Offsets

end ZeroEmbedded.Foundation
