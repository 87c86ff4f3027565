import ZeroEmbedded.Foundation.Lines
import ZeroEmbedded.Tooling.Analyzer

/-!
# C files

A scan tells the code of a text from its comments, literals and directives. A
file is a list of prototypes and definitions whose braces are all in its code.

## Implementation notes

A name of the code is called where a parenthesis is the next thing in the code
behind it, whatever white space and comments are between them. A declaration
within a body looks the same and counts as a call. A member that is selected
with `.` or `->` is no function of its name.
-/

namespace ZeroEmbedded.Analyzer

open Foundation

section Lexer

/-- What the next character belongs to. -/
inductive Lexeme
  | code
  | lineComment
  | blockComment
  | string
  | character
  deriving DecidableEq

/-- The state of the scan. An escaped character completes the one in front of it, and a directive
lasts up to the end of its line. -/
structure LexState where
  lexeme : Lexeme
  escaped : Bool
  directive : Bool
  lineStart : Bool
  deriving DecidableEq

def LexState.start : LexState := ⟨.code, false, false, true⟩

/-- Whether a character is code, and the state behind it. -/
def lexStep (st : LexState) (c : Char) (next : Option Char) : Bool × LexState :=
  if st.escaped then (false, { st with escaped := false })
  else
    match st.lexeme with
    | .code =>
        if c = '\n' then (true, .start)
        else if c = '/' ∧ next = some '*' then
          (false, { st with lexeme := .blockComment, escaped := true })
        else if c = '/' ∧ next = some '/' then
          (false, { st with lexeme := .lineComment, escaped := true })
        else if c = '"' then (false, { st with lexeme := .string, lineStart := false })
        else if c = '\'' then (false, { st with lexeme := .character, lineStart := false })
        else if c = '\\' then (false, { st with escaped := true })
        else if c = '#' ∧ st.lineStart then (false, { st with directive := true })
        else (!st.directive, { st with lineStart := st.lineStart && (c = ' ' || c = '\t') })
    | .lineComment =>
        if c = '\n' then (true, .start) else (false, { st with escaped := c = '\\' })
    | .blockComment =>
        if c = '*' ∧ next = some '/' then (false, { st with lexeme := .code, escaped := true })
        else (false, st)
    | .string =>
        if c = '"' then (false, { st with lexeme := .code })
        else (false, { st with escaped := c = '\\' })
    | .character =>
        if c = '\'' then (false, { st with lexeme := .code })
        else (false, { st with escaped := c = '\\' })

/-- Which characters are code. -/
def codeFlags : LexState → List Char → List Bool
  | _, [] => []
  | st, c :: rest => (lexStep st c rest.head?).1 :: codeFlags (lexStep st c rest.head?).2 rest

/-- The character at an offset is code. -/
def IsCode (text : List Char) (i : Nat) : Prop := (codeFlags .start text)[i]? = some true

instance (text : List Char) (i : Nat) : Decidable (IsCode text i) :=
  inferInstanceAs (Decidable (_ = _))

/-- The text with blanks for what is no code. -/
def codeText (text : List Char) : List Char :=
  List.zipWith (fun c code => if code then c else ' ') text (codeFlags .start text)

end Lexer

variable (U : UnicodeClasses)

section Source

def Braceless (s : List Char) : Prop := '\x7b' ∉ s ∧ '\x7d' ∉ s

/-- No brace is closed that has not been opened, and all are closed in the end. -/
def Balanced (s : List Char) : Prop :=
  (∀ part, part <+: s → part.count '\x7d' ≤ part.count '\x7b') ∧
    s.count '\x7d' = s.count '\x7b'

/-- White space within a line. -/
def Blank (s : List Char) : Prop := ∀ c ∈ s, isSpace U c ∧ c ≠ '\n'

def Word (s : List Char) : Prop := s ≠ [] ∧ ∀ c ∈ s, isWord U c

/-- `FW_ISR <type> <name>(` on one line. -/
structure IsrSignature where
  gap : List Char
  type : List Char
  typeGap : List Char
  name : List Char
  nameGap : List Char
  gap_blank : gap ≠ [] ∧ Blank U gap
  type_word : Word U type
  typeGap_blank : typeGap ≠ [] ∧ Blank U typeGap
  name_word : Word U name
  nameGap_blank : Blank U nameGap

def IsrSignature.text {U : UnicodeClasses} (sig : IsrSignature U) : List Char :=
  "FW_ISR".toList ++
    (sig.gap ++ (sig.type ++ (sig.typeGap ++ (sig.name ++ (sig.nameGap ++ ['('])))))

/-- A prototype or a definition, with the comments and directives in front of it. -/
structure CItem where
  gap : List Char
  isr : Option (IsrSignature U)
  rest : List Char
  body : Option (List Char)
  gap_braceless : Braceless gap
  rest_braceless : Braceless rest
  body_balanced : ∀ b ∈ body, Balanced b

variable {U}

/-- The signature of a function. -/
def CItem.head (item : CItem U) : List Char :=
  (match item.isr with
    | some sig => sig.text
    | none => []) ++ item.rest

def CItem.text (item : CItem U) : List Char :=
  item.gap ++ (item.head ++
    match item.body with
    | none => [';']
    | some b => '\x7b' :: (b ++ ['\x7d']))

/-- The text in front of a signature that is the first on its line. -/
def StartsLine (U : UnicodeClasses) (front : List Char) : Prop :=
  ∃ lines blanks, front = lines ++ blanks ∧ LineEnd '\n' lines ∧ Blank U blanks

/-- A word begins here. -/
def WordAt (U : UnicodeClasses) (text : List Char) (i : Nat) : Prop :=
  (text.take i).getLast?.any (isWord U) = false ∧ (text.drop i).head?.any isNameStart = true

instance (text : List Char) (i : Nat) : Decidable (WordAt U text i) :=
  inferInstanceAs (Decidable (_ ∧ _))

/-- The word at an offset. -/
def nameAt (U : UnicodeClasses) (text : List Char) (i : Nat) : List Char :=
  (text.drop i).takeWhile (isWord U)

/-- The scan of a file agrees with an item: the code in front of it is white space, its signature
and its end are code, and `FW_ISR` is a word of the code only where such a signature begins, which
ends with its first semicolon. -/
structure CItem.Scanned (item : CItem U) (text : List Char) (start : Nat) : Prop where
  gap : ∀ c ∈ ((codeText text).drop start).take item.gap.length, isSpace U c = true
  head : IsCode text (start + item.gap.length)
  semicolon : item.isr.isSome →
    ';' ∉ ((codeText text).drop (start + item.gap.length)).take item.head.length
  isrWord : ∀ i < start + item.gap.length + item.head.length, start + item.gap.length ≤ i →
    IsCode text i ∧ WordAt U text i ∧ nameAt U text i = "FW_ISR".toList →
    i = start + item.gap.length ∧ item.isr.isSome
  stop : IsCode text (start + item.gap.length + item.head.length)

/-- A C file. -/
structure CFile (U : UnicodeClasses) where
  items : List (CItem U)
  tail : List Char
  tail_braceless : Braceless tail
  definition_startsLine : ∀ before item after, items = before ++ item :: after →
    item.body.isSome → StartsLine U (before.flatMap CItem.text ++ item.gap)
  scanned : ∀ before item after, items = before ++ item :: after →
    item.Scanned (items.flatMap CItem.text ++ tail) (before.flatMap CItem.text).length
  braces_code : (codeText (items.flatMap CItem.text ++ tail)).count '\x7b' =
      (items.flatMap CItem.text ++ tail).count '\x7b' ∧
    (codeText (items.flatMap CItem.text ++ tail)).count '\x7d' =
      (items.flatMap CItem.text ++ tail).count '\x7d'

def CFile.text (f : CFile U) : List Char := f.items.flatMap CItem.text ++ f.tail

/-- The braces of the body of a definition are at these offsets. -/
def CFile.Definition (f : CFile U) (item : CItem U) (opening closing : Nat) : Prop :=
  ∃ before after b, f.items = before ++ item :: after ∧ item.body = some b ∧
    opening = (before.flatMap CItem.text ++ (item.gap ++ item.head)).length ∧
    closing = opening + b.length + 1

/-- The offset is in the body of a definition, behind its first brace. -/
def CFile.InBody (f : CFile U) (item : CItem U) (i : Nat) : Prop :=
  ∃ opening closing, f.Definition item opening closing ∧ opening < i ∧ i ≤ closing

/-- The next thing in the code behind the word at an offset is a parenthesis. -/
def CallParen (U : UnicodeClasses) (text : List Char) (i : Nat) : Prop :=
  ((((codeText text).drop i).dropWhile (isWord U)).dropWhile (isSpace U)).head? = some '('

/-- The word at an offset is selected from a structure. -/
def SelectedAt (U : UnicodeClasses) (text : List Char) (i : Nat) : Prop :=
  let front := ((codeText text).take i).reverse.dropWhile (isSpace U)
  front.head? = some '.' ∨ ['>', '-'] <+: front

/-- A function is called by its name. -/
structure CallAt (U : UnicodeClasses) (text : List Char) (i : Nat) : Prop where
  code : IsCode text i
  word : WordAt U text i
  paren : CallParen U text i
  notSelected : ¬ SelectedAt U text i

/-- A call of a forbidden function in the body of an ISR. -/
structure CFile.ForbiddenCall (f : CFile U) (i : Nat) : Prop where
  call : CallAt U f.text i
  forbidden : (forbiddenEntry (nameAt U f.text i)).isSome
  isrBody : ∃ item : CItem U, item.isr.isSome ∧ f.InBody item i

end Source

section Condition

/-- The line has the text `FW_ISR <word> <word> (`, be it a signature, a comment or anything
else. -/
def IsrText (line : List Char) : Prop :=
  ∃ front, ∃ sig : IsrSignature U, ∃ rest, line = front ++ (sig.text ++ rest)

/-- A line begins at an offset. -/
def LineAt (text : List Char) (l : Nat) (line : List Char) : Prop :=
  ∃ before after, splitLines '\n' text = before ++ line :: after ∧ l = before.flatten.length

/-- The line of an offset begins at another one. -/
def LineOf (text : List Char) (l i : Nat) : Prop :=
  ∃ line, LineAt text l line ∧ l ≤ i ∧ i < l + line.length

/-- The line that begins here has the text. -/
def IsrTextAt (text : List Char) (a : Nat) : Prop := ∃ line, LineAt text a line ∧ IsrText U line

/-- Up to the line at `l`, the last one with the text begins at `a`. -/
def LastIsrText (text : List Char) (a l : Nat) : Prop :=
  IsrTextAt U text a ∧ a ≤ l ∧ ∀ a', IsrTextAt U text a' → a' ≤ l → a' ≤ a

/-- Braces are opened, and as many are closed. -/
def BracesClosed (s : List Char) : Prop := '\x7b' ∈ s ∧ s.count '\x7b' ≤ s.count '\x7d'

/-- On the same line, only white space is between the word and a parenthesis. -/
def ParenBehind (text : List Char) (i : Nat) : Prop :=
  ((((text.drop i).takeWhile (· ≠ '\n')).dropWhile (isWord U)).dropWhile (isSpace U)).head? =
    some '('

/-- A forbidden name with a parenthesis behind it, in code or not. -/
structure LooksForbidden (text : List Char) (i : Nat) : Prop where
  word : WordAt U text i
  forbidden : (forbiddenEntry (nameAt U text i)).isSome
  paren : ParenBehind U text i

variable {U}

/-- The text on the line at `a` reaches the line at `l`: no definition ends between them. A line
that begins in a body reaches up to the end of one where braces have been opened since and as many
have been closed. -/
structure CFile.Reaches (f : CFile U) (a l : Nat) : Prop where
  outside : (∀ item, ¬ f.InBody item a) → ∀ item opening closing,
    f.Definition item opening closing → ¬ (a ≤ closing ∧ closing < l)
  inside : ∀ item, f.InBody item a → ∀ e, LineEnd '\n' (f.text.take e) → a < e → e ≤ l →
    ¬ BracesClosed ((f.text.take e).drop a)

/-- The last text in front of the offset or on its line reaches this line. -/
def CFile.Reached (f : CFile U) (i : Nat) : Prop :=
  ∃ l a, LineOf f.text l i ∧ LastIsrText U f.text a l ∧ f.Reaches a l

/-- The forbidden calls in ISR bodies have their parenthesis on the same line and are reached where
the text occurs once more in front of them in a body. Where it reaches, no forbidden name with a
parenthesis is in a comment, a literal or a directive, in a prototype or a signature, in the body of
a function that is no ISR, or selected from a structure. -/
structure CFile.Clean (f : CFile U) : Prop where
  sameLine : ∀ i, f.ForbiddenCall i → ParenBehind U f.text i
  repeated : ∀ i l a item, f.ForbiddenCall i → LineOf f.text l i → LastIsrText U f.text a l →
    f.InBody item a → f.Reaches a l
  code : ∀ i, f.Reached i → LooksForbidden U f.text i → IsCode f.text i
  signatures : ∀ i, f.Reached i → LooksForbidden U f.text i → IsCode f.text i →
    ∃ item, f.InBody item i
  bodies : ∀ i item, f.Reached i → LooksForbidden U f.text i → IsCode f.text i →
    f.InBody item i → item.isr.isSome
  members : ∀ i item, f.Reached i → LooksForbidden U f.text i → IsCode f.text i →
    f.InBody item i → ¬ SelectedAt U f.text i

end Condition

section Scan

variable {U} {st : LexState} {c : Char} {next : Option Char} {text front rest s : List Char}

/-- The scan is in code that is no directive. -/
def LexState.InCode (st : LexState) : Prop :=
  st.lexeme = .code ∧ st.escaped = false ∧ st.directive = false

/-- No comment, literal or directive begins with the character. -/
def Plain (c : Char) : Prop := c ∉ ['/', '"', '\'', '\\', '#']

/-- Behind a character of the code the scan is in code. -/
theorem inCode_of_code (h : (lexStep st c next).1 = true) : (lexStep st c next).2.InCode := by
  obtain ⟨lexeme, escaped, directive, lineStart⟩ := st
  cases escaped with
  | true => exact absurd h Bool.false_ne_true
  | false =>
      cases lexeme with
      | code =>
          simp only [lexStep, Bool.false_eq_true, if_false] at h ⊢
          split_ifs at h ⊢ with hnewline
          · exact ⟨rfl, rfl, rfl⟩
          · cases directive with
            | true => exact absurd h Bool.false_ne_true
            | false => exact ⟨rfl, rfl, rfl⟩
      | lineComment =>
          simp only [lexStep, Bool.false_eq_true, if_false] at h ⊢
          split_ifs at h ⊢
          exact ⟨rfl, rfl, rfl⟩
      | blockComment =>
          simp only [lexStep, Bool.false_eq_true, if_false] at h
          split_ifs at h
      | string =>
          simp only [lexStep, Bool.false_eq_true, if_false] at h
          split_ifs at h
      | character =>
          simp only [lexStep, Bool.false_eq_true, if_false] at h
          split_ifs at h

/-- Within code a plain character is code. -/
theorem code_of_plain (h : st.InCode) (hc : Plain c) : (lexStep st c next).1 = true := by
  obtain ⟨lexeme, escaped, directive, lineStart⟩ := st
  obtain ⟨rfl, rfl, rfl⟩ : lexeme = .code ∧ escaped = false ∧ directive = false := h
  simp only [Plain, List.mem_cons, List.not_mem_nil, or_false, not_or] at hc
  obtain ⟨hslash, hquote, happ, hbackslash, hhash⟩ := hc
  simp only [lexStep, hslash, hquote, happ, hbackslash, hhash, Bool.false_eq_true, false_and,
    if_false, Bool.not_false]
  split
  · rfl
  · rfl

/-- The scan of what follows a text goes on from some state. -/
theorem codeFlags_drop (st : LexState) (front rest : List Char) :
    ∃ st', (codeFlags st (front ++ rest)).drop front.length = codeFlags st' rest := by
  induction front generalizing st with
  | nil => exact ⟨st, rfl⟩
  | cons c front ih => exact ih _

/-- The text with blanks for what is no code, from a state of the scan on. -/
def codeFrom (st : LexState) (s : List Char) : List Char :=
  List.zipWith (fun c code => if code then c else ' ') s (codeFlags st s)

/-- Plain characters behind code are code. -/
theorem codeFrom_plain (h : st.InCode) (hs : ∀ c ∈ s, Plain c) :
    ∃ rest', codeFrom st (s ++ rest) = s ++ rest' := by
  induction s generalizing st with
  | nil => exact ⟨_, rfl⟩
  | cons c s ih =>
      have hcode : (lexStep st c (s ++ rest).head?).1 = true :=
        code_of_plain h (hs c List.mem_cons_self)
      obtain ⟨rest', hrest⟩ := ih (inCode_of_code hcode) fun d hd =>
        hs d (List.mem_cons_of_mem _ hd)
      refine ⟨rest', ?_⟩
      rw [List.cons_append, codeFrom, codeFlags, List.zipWith_cons_cons, hcode, if_pos rfl]
      exact congrArg (c :: ·) hrest

/-- Behind a character of the code, plain ones are code as well. -/
theorem codeText_drop {i : Nat} (hcode : IsCode text i) (htext : text.drop i = c :: (s ++ rest))
    (hs : ∀ d ∈ s, Plain d) : ∃ rest', (codeText text).drop i = c :: (s ++ rest') := by
  have hi : i ≤ text.length := by
    by_contra hlong
    rw [List.drop_eq_nil_of_le (Nat.le_of_not_le hlong)] at htext
    cases htext
  obtain ⟨st, hst⟩ := codeFlags_drop .start (text.take i) (text.drop i)
  rw [List.take_append_drop, List.length_take_of_le hi, htext, codeFlags] at hst
  rw [IsCode, ← List.head?_drop, hst, List.head?_cons, Option.some_inj] at hcode
  have hnext := inCode_of_code hcode
  generalize (lexStep st c (s ++ rest).head?).2 = st' at hst hnext
  obtain ⟨rest', hrest⟩ : ∃ rest', codeFrom st' (s ++ rest) = s ++ rest' := codeFrom_plain hnext hs
  refine ⟨rest', ?_⟩
  rw [codeText, List.drop_zipWith, hst, htext, List.zipWith_cons_cons, hcode, if_pos rfl]
  exact congrArg (c :: ·) hrest

end Scan

section Words

variable {U} {c : Char} {s t rest : List Char}

theorem isSpace_of_isWord (h : isWord U c = true) : isSpace U c = false := by
  have hspace : c.toNat ∉ [9, 10, 11, 12, 13, 28, 29, 30, 31, 32] →
      (128 ≤ c.toNat → U.space c = false) → isSpace U c = false := by
    intro hascii hunicode
    rw [isSpace, decide_eq_false hascii, Bool.false_or, Bool.and_eq_false_iff]
    by_cases hge : 128 ≤ c.toNat
    · exact Or.inr (hunicode hge)
    · exact Or.inl (decide_eq_false hge)
  rw [isWord, Bool.or_eq_true, Bool.or_eq_true, Bool.and_eq_true] at h
  rcases h with (halnum | hunderscore) | ⟨hge, hword⟩
  · have hrange : 48 ≤ c.toNat ∧ c.toNat < 128 := by
      simp only [Char.isAlphanum, Char.isAlpha, Char.isUpper, Char.isLower, Char.isDigit,
        Bool.or_eq_true, Bool.and_eq_true, decide_eq_true_eq, UInt32.le_iff_toNat_le,
        ge_iff_le] at halnum
      have hval : c.toNat = c.val.toNat := rfl
      have hbounds : 'A'.val.toNat = 65 ∧ 'Z'.val.toNat = 90 ∧ 'a'.val.toNat = 97 ∧
          'z'.val.toNat = 122 ∧ '0'.val.toNat = 48 ∧ '9'.val.toNat = 57 := by decide
      omega
    apply hspace
    · simp only [List.mem_cons, List.not_mem_nil, or_false]
      omega
    · omega
  · rw [of_decide_eq_true hunderscore]
    rfl
  · have hge' := of_decide_eq_true hge
    apply hspace
    · simp only [List.mem_cons, List.not_mem_nil, or_false]
      omega
    · exact fun _ => U.disjoint c hword

/-- White space in front of a character that is none. -/
theorem dropWhile_space (hs : ∀ c ∈ s, isSpace U c = true) (hc : isSpace U c = false) :
    (s ++ c :: rest).dropWhile (isSpace U) = c :: rest := by
  rw [List.dropWhile_append_of_pos hs,
    List.dropWhile_cons_of_neg (by rw [hc]; exact Bool.false_ne_true)]

/-- A word in front of a character that continues none. -/
theorem dropWhile_word (hs : ∀ c ∈ s, isWord U c = true) (hc : isWord U c = false) :
    (s ++ c :: rest).dropWhile (isWord U) = c :: rest := by
  rw [List.dropWhile_append_of_pos hs,
    List.dropWhile_cons_of_neg (by rw [hc]; exact Bool.false_ne_true)]

theorem isWord_of_isSpace (h : isSpace U c = true) : isWord U c = false := by
  apply Bool.eq_false_iff.mpr
  intro hword
  rw [isSpace_of_isWord hword] at h
  cases h

theorem IsrSignature.text_append (sig : IsrSignature U) (rest : List Char) :
    sig.text ++ rest = "FW_ISR".toList ++ (sig.gap ++ (sig.type ++ (sig.typeGap ++ (sig.name ++
      (sig.nameGap ++ '(' :: rest))))) := by
  -- the lemmas would unfold the literal to see whether it is a cons
  have hassoc : ∀ fwIsr : List Char, (fwIsr ++ (sig.gap ++ (sig.type ++ (sig.typeGap ++ (sig.name ++
      (sig.nameGap ++ ['('])))))) ++ rest = fwIsr ++ (sig.gap ++ (sig.type ++ (sig.typeGap ++
        (sig.name ++ (sig.nameGap ++ '(' :: rest))))) := by
    intro fwIsr
    simp only [List.append_assoc, List.cons_append, List.nil_append]
  exact hassoc "FW_ISR".toList

theorem IsrSignature.text_ne_nil (sig : IsrSignature U) : sig.text ≠ [] :=
  List.append_ne_nil_of_left_ne_nil (by decide) _

theorem Braceless.append (hs : Braceless s) (ht : Braceless t) : Braceless (s ++ t) := by
  constructor
  · rw [List.mem_append, not_or]
    exact ⟨hs.1, ht.1⟩
  · rw [List.mem_append, not_or]
    exact ⟨hs.2, ht.2⟩

theorem braceless_of_space (h : ∀ c ∈ s, isSpace U c = true) : Braceless s :=
  ⟨fun hmem => Bool.false_ne_true (h _ hmem), fun hmem => Bool.false_ne_true (h _ hmem)⟩

theorem braceless_of_word (h : ∀ c ∈ s, isWord U c = true) : Braceless s :=
  ⟨fun hmem => Bool.false_ne_true (h _ hmem), fun hmem => Bool.false_ne_true (h _ hmem)⟩

theorem IsrSignature.text_braceless (sig : IsrSignature U) : Braceless sig.text := by
  have hfwIsr : Braceless "FW_ISR".toList := ⟨by decide, by decide⟩
  have hparen : Braceless ['('] := ⟨by decide, by decide⟩
  have hblank : ∀ {s}, Blank U s → Braceless s := fun h =>
    braceless_of_space fun c hc => (h c hc).1
  exact hfwIsr.append ((hblank sig.gap_blank.2).append ((braceless_of_word sig.type_word.2).append
    ((hblank sig.typeGap_blank.2).append ((braceless_of_word sig.name_word.2).append
      ((hblank sig.nameGap_blank).append hparen)))))

theorem IsrSignature.newline_not_mem (sig : IsrSignature U) : '\n' ∉ sig.text := by
  have hblank : ∀ {s}, Blank U s → '\n' ∉ s := fun h hmem => (h _ hmem).2 rfl
  have hword : ∀ {s}, Word U s → '\n' ∉ s := fun h hmem => Bool.false_ne_true (h.2 _ hmem)
  rw [← List.append_nil sig.text, sig.text_append, List.mem_append, not_or]
  refine ⟨by decide, ?_⟩
  simp only [List.mem_append, not_or]
  exact ⟨hblank sig.gap_blank.2, hword sig.type_word, hblank sig.typeGap_blank.2,
    hword sig.name_word, hblank sig.nameGap_blank, by decide⟩

theorem plain_of_isWord (h : isWord U c = true) : Plain c := by
  intro hmem
  simp only [List.mem_cons, List.not_mem_nil, or_false] at hmem
  rcases hmem with rfl | rfl | rfl | rfl | rfl <;> exact Bool.false_ne_true h

theorem plain_of_isSpace (h : isSpace U c = true) : Plain c := by
  intro hmem
  simp only [List.mem_cons, List.not_mem_nil, or_false] at hmem
  rcases hmem with rfl | rfl | rfl | rfl | rfl <;> exact Bool.false_ne_true h

theorem isWord_of_isNameStart (h : isNameStart c = true) : isWord U c = true := by
  rw [isNameStart, Bool.or_eq_true] at h
  rw [isWord, Char.isAlphanum, Bool.or_eq_true, Bool.or_eq_true, Bool.or_eq_true]
  exact Or.inl (h.imp Or.inl id)

/-- A parenthesis behind a word and white space. -/
theorem paren_behind {name blanks : List Char} (hname : ∀ c ∈ name, isWord U c = true)
    (hblanks : ∀ c ∈ blanks, isSpace U c = true) :
    (((name ++ (blanks ++ '(' :: rest)).dropWhile (isWord U)).dropWhile (isSpace U)).head? =
      some '(' := by
  have hword : (name ++ (blanks ++ '(' :: rest)).dropWhile (isWord U) = blanks ++ '(' :: rest := by
    cases blanks with
    | nil => exact dropWhile_word hname rfl
    | cons b blanks =>
        exact dropWhile_word hname (isWord_of_isSpace (hblanks b List.mem_cons_self))
  rw [hword, dropWhile_space hblanks rfl]
  rfl

/-- A name of the code with a parenthesis behind it on its line has it behind it in the code. -/
theorem callParen_of_parenBehind {text : List Char} {i : Nat} (hcode : IsCode text i)
    (hword : WordAt U text i) (hparen : ParenBehind U text i) : CallParen U text i := by
  let line := (text.drop i).takeWhile (· ≠ '\n')
  let name := line.takeWhile (isWord U)
  let blanks := (line.dropWhile (isWord U)).takeWhile (isSpace U)
  have hname : ∀ c ∈ name, isWord U c = true := fun c hc => List.mem_takeWhile_imp hc
  have hblanks : ∀ c ∈ blanks, isSpace U c = true := fun c hc => List.mem_takeWhile_imp hc
  obtain ⟨later, hlater⟩ : ∃ later, text.drop i = name ++ (blanks ++ '(' :: later) := by
    obtain ⟨more, hmore⟩ := List.head?_eq_some_iff.mp hparen
    refine ⟨more ++ (text.drop i).dropWhile (· ≠ '\n'), ?_⟩
    calc
      text.drop i = line ++ (text.drop i).dropWhile (· ≠ '\n') :=
        (List.takeWhile_append_dropWhile).symm
      _ = (name ++ (blanks ++ '(' :: more)) ++ (text.drop i).dropWhile (· ≠ '\n') := by
        rw [← hmore]
        simp only [name, blanks, List.takeWhile_append_dropWhile, line]
      _ = name ++ (blanks ++ '(' :: (more ++ (text.drop i).dropWhile (· ≠ '\n'))) := by
        simp only [List.append_assoc, List.cons_append]
  cases hcons : name with
  | nil =>
      rw [hcons, List.nil_append] at hlater
      have hstart := hword.2
      rw [hlater] at hstart
      cases hblank : blanks with
      | nil =>
          rw [hblank] at hstart
          exact absurd hstart Bool.false_ne_true
      | cons b more =>
          rw [hblank, List.cons_append, List.head?_cons, Option.any_some] at hstart
          have hspace : isSpace U b = true := hblanks b (hblank ▸ List.mem_cons_self)
          have hno := isWord_of_isSpace hspace
          rw [isWord_of_isNameStart hstart] at hno
          cases hno
  | cons c name' =>
      rw [hcons] at hlater hname
      have hplain : ∀ d ∈ name' ++ (blanks ++ ['(']), Plain d := by
        intro d hd
        rcases List.mem_append.mp hd with hd | hd
        · exact plain_of_isWord (hname d (List.mem_cons_of_mem _ hd))
        · rcases List.mem_append.mp hd with hd | hd
          · exact plain_of_isSpace (hblanks d hd)
          · rw [List.mem_singleton.mp hd, Plain]
            decide
      have hdrop : text.drop i = c :: ((name' ++ (blanks ++ ['('])) ++ later) := by
        rw [hlater]
        simp only [List.append_assoc, List.cons_append, List.nil_append]
      obtain ⟨rest', hrest⟩ := codeText_drop hcode hdrop hplain
      have hshape : c :: ((name' ++ (blanks ++ ['('])) ++ rest') =
          (c :: name') ++ (blanks ++ '(' :: rest') := by
        simp only [List.append_assoc, List.cons_append, List.nil_append]
      rw [CallParen, hrest, hshape]
      exact paren_behind hname hblanks

end Words

section Braces

variable {U} {f : CFile U} {item item' : CItem U} {s : List Char} {e o c o' c' : Nat}

/-- As many braces are closed as opened. -/
def Level (s : List Char) : Prop := s.count '\x7b' = s.count '\x7d'

theorem Braceless.level (h : Braceless s) : Level s := by
  rw [Level, List.count_eq_zero_of_not_mem h.1, List.count_eq_zero_of_not_mem h.2]

theorem Braceless.take (h : Braceless s) (n : Nat) : Braceless (s.take n) :=
  ⟨fun hmem => h.1 (List.mem_of_mem_take hmem), fun hmem => h.2 (List.mem_of_mem_take hmem)⟩

theorem Level.append {t : List Char} (hs : Level s) (ht : Level t) : Level (s ++ t) := by
  rw [Level, List.count_append, List.count_append, hs, ht]

theorem CItem.head_braceless (item : CItem U) : Braceless item.head := by
  rw [CItem.head]
  cases item.isr with
  | none => exact item.rest_braceless
  | some sig => exact sig.text_braceless.append item.rest_braceless

theorem CItem.front_braceless (item : CItem U) : Braceless (item.gap ++ item.head) :=
  item.gap_braceless.append item.head_braceless

theorem CItem.text_of_body {b : List Char} (h : item.body = some b) :
    item.text = (item.gap ++ item.head) ++ '\x7b' :: (b ++ ['\x7d']) := by
  rw [CItem.text, h, List.append_assoc]

theorem CItem.text_level (item : CItem U) : Level item.text := by
  cases hbody : item.body with
  | none =>
      rw [CItem.text, hbody, ← List.append_assoc]
      exact item.front_braceless.level.append rfl
  | some b =>
      rw [item.text_of_body hbody]
      refine item.front_braceless.level.append ?_
      have hb := (item.body_balanced b hbody).2
      rw [Level, List.count_cons_self, List.count_cons_of_ne (by decide), List.count_append,
        List.count_append, hb]
      rfl

theorem flatMap_level (items : List (CItem U)) : Level (items.flatMap CItem.text) := by
  induction items with
  | nil => rfl
  | cons item items ih => exact item.text_level.append ih

/-- The text of a file around a body. -/
theorem CFile.Definition.text_eq (h : f.Definition item o c) : ∃ front b later,
    f.text = front ++ '\x7b' :: (b ++ '\x7d' :: later) ∧ front.length = o ∧
      c = o + b.length + 1 ∧ Level front ∧ Balanced b := by
  obtain ⟨before, after, b, hitems, hbody, rfl, rfl⟩ := h
  refine ⟨before.flatMap CItem.text ++ (item.gap ++ item.head), b,
    after.flatMap CItem.text ++ f.tail, ?_, rfl, rfl,
    (flatMap_level before).append item.front_braceless.level, item.body_balanced b hbody⟩
  rw [CFile.text, hitems, List.flatMap_append, List.flatMap_cons, item.text_of_body hbody]
  simp only [List.append_assoc, List.cons_append, List.nil_append]

theorem CFile.Definition.lt (h : f.Definition item o c) : o < c ∧ c < f.text.length := by
  obtain ⟨front, b, later, htext, rfl, rfl, -⟩ := h.text_eq
  rw [htext]
  simp only [List.length_append, List.length_cons]
  omega

theorem CFile.Definition.getElem? (h : f.Definition item o c) :
    f.text[o]? = some '\x7b' ∧ f.text[c]? = some '\x7d' := by
  obtain ⟨front, b, later, htext, rfl, rfl, -⟩ := h.text_eq
  constructor
  · rw [htext, List.getElem?_append_right (Nat.le_refl _), Nat.sub_self]
    rfl
  · have hclosing : front.length + b.length + 1 = (front ++ '\x7b' :: b).length := by
      rw [List.length_append, List.length_cons, Nat.add_assoc]
    have hshape : f.text = (front ++ '\x7b' :: b) ++ '\x7d' :: later := by
      rw [htext, List.append_assoc, List.cons_append]
    rw [hshape, hclosing, List.getElem?_append_right (Nat.le_refl _), Nat.sub_self]
    rfl

/-- Two definitions are the same or one is in front of the other. -/
theorem CFile.Definition.cases (h : f.Definition item o c) (h' : f.Definition item' o' c') :
    (item = item' ∧ o = o' ∧ c = c') ∨ c < o' ∨ c' < o := by
  obtain ⟨before, after, b, hitems, hbody, rfl, rfl⟩ := h
  obtain ⟨before', after', b', hitems', hbody', rfl, rfl⟩ := h'
  have hlength : ∀ {before : List (CItem U)} {item : CItem U} {b : List Char} {later},
      item.body = some b → before ++ [item] <+: later →
      (before.flatMap CItem.text ++ (item.gap ++ item.head)).length + b.length + 1 <
        (later.flatMap CItem.text).length := by
    rintro before item b _ hb ⟨rest, rfl⟩
    rw [List.flatMap_append, List.flatMap_append, List.flatMap_singleton, item.text_of_body hb]
    simp only [List.length_append, List.length_cons, List.length_nil]
    omega
  rcases append_cons_cases (hitems.symm.trans hitems') with hpart | hpart | ⟨rfl, rfl⟩
  · have hlt := hlength hbody hpart
    simp only [List.length_append] at hlt ⊢
    omega
  · have hlt := hlength hbody' hpart
    simp only [List.length_append] at hlt ⊢
    omega
  · obtain rfl := Option.some_inj.mp (hbody.symm.trans hbody')
    exact Or.inl ⟨rfl, rfl, rfl⟩

/-- An offset is in one body only. -/
theorem CFile.InBody.unique (h : f.InBody item e) (h' : f.InBody item' e) : item = item' := by
  obtain ⟨o, c, hdefinition, hlow, hhigh⟩ := h
  obtain ⟨o', c', hdefinition', hlow', hhigh'⟩ := h'
  rcases hdefinition.cases hdefinition' with ⟨heq, -⟩ | hlt | hlt
  · exact heq
  · omega
  · omega

end Braces

section Reach

variable {U} {f : CFile U} {item : CItem U} {text line : List Char} {a e i l l' o c : Nat}

theorem LineAt.lineEnd (h : LineAt text l line) : LineEnd '\n' (text.take l) := by
  obtain ⟨before, after, hlines, rfl⟩ := h
  rw [take_of_splitLines hlines]
  exact splitLines_lineEnd hlines

theorem LineAt.lt (h : LineAt text l line) : l + line.length ≤ text.length ∧ 0 < line.length := by
  obtain ⟨before, after, hlines, rfl⟩ := h
  have hmem : line ∈ splitLines '\n' text := by
    rw [hlines]
    exact List.mem_append_right _ List.mem_cons_self
  have hlength : text.length = (before ++ line :: after).flatten.length := by
    rw [← hlines, splitLines_flatten]
  refine ⟨?_, List.length_pos_iff.mpr (ne_nil_of_mem_splitLines hmem)⟩
  rw [hlength, List.flatten_append, List.flatten_cons, List.length_append, List.length_append]
  omega

/-- A line begins behind another one or not behind its start. -/
theorem LineAt.le_of_lt (h : LineAt text l line) (hend : LineEnd '\n' (text.take e))
    (he : e < text.length) (hlt : l < e) : l + line.length ≤ e := by
  obtain ⟨before, after, hlines, rfl⟩ := h
  obtain ⟨before', line', after', hlines', rfl⟩ := exists_line_of_lineEnd hend he
  have hle := (prefix_of_offset_lt hlines hlines' hlt).flatten.length_le
  rwa [List.flatten_append, List.length_append, List.flatten_singleton] at hle

theorem LineAt.unique {line' : List Char} (h : LineAt text l line) (h' : LineAt text l line') :
    line = line' := by
  obtain ⟨before, after, hlines, heq⟩ := h
  obtain ⟨before', after', hlines', heq'⟩ := h'
  exact (eq_of_offset_eq hlines hlines' (heq.symm.trans heq')).2

/-- No line begins between an offset and the start of its line. -/
theorem LineOf.le (h : LineOf text l i) (hend : LineEnd '\n' (text.take e)) (he : e ≤ i) :
    e ≤ l := by
  obtain ⟨line, hline, hlow, hhigh⟩ := h
  by_contra hlt
  have hle := hline.le_of_lt hend (by have hlong := hline.lt.1; omega) (Nat.not_le.mp hlt)
  omega

theorem LineOf.unique (h : LineOf text l i) (h' : LineOf text l' i) : l = l' := by
  obtain ⟨line, hline, hlow, -⟩ := id h
  obtain ⟨line', hline', hlow', -⟩ := id h'
  exact Nat.le_antisymm (h'.le hline.lineEnd hlow) (h.le hline'.lineEnd hlow')

theorem LastIsrText.unique {a' : Nat} (h : LastIsrText U text a l) (h' : LastIsrText U text a' l) :
    a = a' :=
  Nat.le_antisymm (h'.2.2 a h.1 h.2.1) (h.2.2 a' h'.1 h'.2.1)

/-- The line that a signature is on. -/
theorem splitLines_signature {blanks : List Char} (hblanks : Blank U blanks) (sig : IsrSignature U)
    (rest : List Char) : ∃ l ls, splitLines '\n' (blanks ++ sig.text ++ rest) =
      (blanks ++ sig.text ++ l) :: ls := by
  have hnewline : '\n' ∉ blanks ++ sig.text := by
    rw [List.mem_append, not_or]
    exact ⟨fun hmem => (hblanks _ hmem).2 rfl, sig.newline_not_mem⟩
  exact splitLines_cons_append (List.append_ne_nil_of_right_ne_nil _ sig.text_ne_nil) hnewline rest

/-- The line on which a definition begins, and where no other one ends. -/
theorem CFile.Definition.exists_line (h : f.Definition item o c) :
    ∃ a ≤ o, LineEnd '\n' (f.text.take a) ∧ (item.isr.isSome → IsrTextAt U f.text a) ∧
      ∀ q, f.text[q]? = some '\x7d' → q < o → q < a := by
  obtain ⟨before, after, b, hitems, hbody, rfl, rfl⟩ := h
  obtain ⟨lines, blanks, hfront, hend, hblanks⟩ := f.definition_startsLine before item after hitems
    (Option.isSome_iff_exists.mpr ⟨b, hbody⟩)
  have htext : f.text = lines ++ ((blanks ++ item.head) ++
      '\x7b' :: (b ++ '\x7d' :: (after.flatMap CItem.text ++ f.tail))) := by
    have hdefinition : f.text = (before.flatMap CItem.text ++ item.gap) ++
        (item.head ++ '\x7b' :: (b ++ '\x7d' :: (after.flatMap CItem.text ++ f.tail))) := by
      rw [CFile.text, hitems, List.flatMap_append, List.flatMap_cons, item.text_of_body hbody]
      simp only [List.append_assoc, List.cons_append, List.nil_append]
    rw [hdefinition, hfront]
    simp only [List.append_assoc]
  have hopening : (before.flatMap CItem.text ++ (item.gap ++ item.head)).length =
      lines.length + (blanks ++ item.head).length := by
    rw [← List.append_assoc, hfront]
    simp only [List.length_append]
    omega
  refine ⟨lines.length, by omega, ?_, ?_, ?_⟩
  · rw [htext, List.take_left]
    exact hend
  · intro hisr
    obtain ⟨sig, hsig⟩ := Option.isSome_iff_exists.mp hisr
    have hhead : blanks ++ item.head = blanks ++ sig.text ++ item.rest := by
      rw [CItem.head, hsig, List.append_assoc]
    rw [hhead, List.append_assoc] at htext
    obtain ⟨l, ls, hsignature⟩ := splitLines_signature hblanks sig (item.rest ++
      '\x7b' :: (b ++ '\x7d' :: (after.flatMap CItem.text ++ f.tail)))
    refine ⟨_, ⟨splitLines '\n' lines, ls, ?_, by rw [splitLines_flatten]⟩, blanks, sig, l,
      List.append_assoc ..⟩
    rw [htext, splitLines_append hend, hsignature]
  · intro q hq hlt
    by_contra hlow
    obtain ⟨n, rfl⟩ : ∃ n, q = lines.length + n := ⟨q - lines.length, by omega⟩
    have hbraceless : Braceless (blanks ++ item.head) :=
      (braceless_of_space fun c hc => (hblanks c hc).1).append item.head_braceless
    rw [htext, List.getElem?_append_right (Nat.le_add_right _ _), Nat.add_sub_cancel_left,
      List.getElem?_append_left (by omega)] at hq
    exact hbraceless.2 (List.mem_of_getElem? hq)

/-- The signature of an ISR reaches the lines of its body, unless the text occurs once more. -/
theorem CFile.InBody.reaches (h : f.InBody item i) (hisr : item.isr.isSome)
    (hl : LineOf f.text l i) (ha : LastIsrText U f.text a l) (hout : ∀ item, ¬ f.InBody item a) :
    f.Reaches a l := by
  refine ⟨?_, fun item hitem => absurd hitem (hout item)⟩
  rintro - item' o' c' hdefinition' ⟨hac, hcl⟩
  obtain ⟨o, c, hdefinition, hlow, hhigh⟩ := h
  obtain ⟨a', hao, hend, htext, hbraces⟩ := hdefinition.exists_line
  have hle : a' ≤ a := ha.2.2 a' (htext hisr) (hl.le hend (by omega))
  obtain ⟨-, -, hli, -⟩ := hl
  rcases hdefinition.cases hdefinition' with ⟨-, -, rfl⟩ | hlt | hlt
  · omega
  · have hlt' := hdefinition'.lt
    omega
  · have hlt' := hbraces c' hdefinition'.getElem?.2 hlt
    omega

end Reach

end ZeroEmbedded.Analyzer
