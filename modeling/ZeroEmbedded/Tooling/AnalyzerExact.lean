import ZeroEmbedded.Foundation.Runs
import ZeroEmbedded.Tooling.CSource

/-!
# Where the analyzer is exact

The loop watches the lines from one with the pattern for signatures up to the
one that closes the braces that have been opened since, whatever the pattern
belongs to. In a file of prototypes and definitions these are the lines that the
text of a signature reaches.
-/

namespace ZeroEmbedded.Analyzer

open Foundation

variable (U : UnicodeClasses)

section Watching

/-- The line has the pattern of an ISR signature. -/
def IsrLine (line : List Char) : Prop := (isrDeclSearch U line).isSome

instance (line : List Char) : Decidable (IsrLine U line) := inferInstanceAs (Decidable (_ = true))

/-- The lines from the last one with the pattern on. -/
def sinceIsr (lines : List (List Char)) : Option (List (List Char)) :=
  lines.foldl (fun since line =>
    if IsrLine U line then some [line] else since.map (· ++ [line])) none

/-- Braces have been opened, and all are closed. -/
def Closed (lines : List (List Char)) : Prop := BracesClosed lines.flatten

end Watching

section Matches

variable {U} {prev : Option Char} {offset i : Nat} {s name : List Char}

end Matches

section Lines

variable {U} {text line : List Char} {before after : List (List Char)}

end Lines

section Loop

variable {U} {seen : List (List Char)} {line : List Char} {st : AnalyzerState}

/-- The braces are not closed behind any of these lines. -/
def Unclosed (since : List (List Char)) : Prop :=
  ∀ part, part ≠ [] → part <+: since → ¬ Closed part

/-- The counters of the braces in these lines. -/
structure Counts (since : List (List Char)) (st : AnalyzerState) : Prop where
  inIsr : st.inIsrFunction = true
  depth : st.braceDepth = (since.flatten.count '\x7b' : Int) - since.flatten.count '\x7d'
  opened : st.hasOpenedBrace = true ↔ '\x7b' ∈ since.flatten

/-- The state of the loop behind these lines. -/
inductive Tracks (U : UnicodeClasses) (seen : List (List Char)) (st : AnalyzerState) : Prop
  | inside {since : List (List Char)} (hsince : sinceIsr U seen = some since)
      (hunclosed : Unclosed since) (hcounts : Counts since st)
  | outside (hout : st.inIsrFunction = false)
      (hclosed : ∀ since, sinceIsr U seen = some since → ¬ Unclosed since)

end Loop

section Signatures

variable {U} {s rest : List Char}

end Signatures

section Reach

variable {U} {text line : List Char} {before after : List (List Char)} {f : CFile U}

/-- A call has an offset in the text. -/
theorem WordAt.lt {i : Nat} (h : WordAt U text i) : i < text.length := by
  by_contra hlong
  have hhead := h.2
  rw [List.drop_eq_nil_of_le (Nat.le_of_not_lt hlong)] at hhead
  cases hhead

/-- What is found in a clean file is a forbidden call. -/
theorem CFile.Clean.forbidden (h : f.Clean) {i : Nat} (hreached : f.Reached i)
    (hlooks : LooksForbidden U f.text i) : f.ForbiddenCall i := by
  have hcode := h.code i hreached hlooks
  obtain ⟨item, hbody⟩ := h.signatures i hreached hlooks hcode
  exact ⟨⟨hcode, hlooks.word, callParen_of_parenBehind hcode hlooks.word hlooks.paren,
    h.members i item hreached hlooks hcode hbody⟩, hlooks.forbidden, item,
    h.bodies i item hreached hlooks hcode hbody, hbody⟩

end Reach

section Prototype

end Prototype

end ZeroEmbedded.Analyzer
