import ZeroEmbedded.Foundation.Lines

/-!
# The static analyzer

`zero_analyzer.py`. From a line with an `FW_ISR` signature on, `analyze_c_file`
counts braces, and reports the forbidden calls of each line until the braces
are closed at the end of one.

## Implementation notes

The text is the file as Python decodes it, with `\n` at the end of its lines.
What `\w` and `\s` match beyond ASCII is a parameter. In both patterns a run of
characters is followed by one that is not in its class, so that they match with
the longest runs or not at all; no match of the second begins within another.
The offset of the reported name is kept with its diagnostic.
-/

namespace ZeroEmbedded.Analyzer

open Foundation

/-- `FORBIDDEN_ISR_CALLS`. -/
def forbiddenIsrCalls : List (String × String) :=
  [("malloc", "ZE-001: Dynamic memory allocation is strictly prohibited inside ISR"),
    ("calloc", "ZE-001: Dynamic memory allocation is strictly prohibited inside ISR"),
    ("realloc", "ZE-001: Dynamic memory allocation is strictly prohibited inside ISR"),
    ("free", "ZE-001: Heap deallocation is strictly prohibited inside ISR"),
    ("fio_malloc", "ZE-001: DryOS/ML fio_malloc is strictly prohibited inside ISR"),
    ("shoot_malloc", "ZE-001: DryOS/ML shoot_malloc is strictly prohibited inside ISR"),
    ("srm_malloc", "ZE-001: DryOS/ML srm_malloc is strictly prohibited inside ISR"),
    ("tmp_malloc", "ZE-001: DryOS/ML tmp_malloc is strictly prohibited inside ISR"),
    ("AllocateMemory", "ZE-001: Canon DryOS AllocateMemory is strictly prohibited inside ISR"),
    ("delay", "ZE-002: Blocking delay cannot be called inside ISR"),
    ("delay_ms", "ZE-002: Blocking delay cannot be called inside ISR"),
    ("fw_delay_millis", "ZE-002: Framework blocking delay cannot be called inside ISR"),
    ("fw_task_delay_ms", "ZE-002: RTOS task delay cannot be called inside ISR"),
    ("sleep", "ZE-002: Sleep/wait cannot be called inside ISR"),
    ("usleep", "ZE-002: Sleep/wait cannot be called inside ISR"),
    ("msleep", "ZE-002: DryOS msleep cannot be called inside ISR"),
    ("vTaskDelay", "ZE-002: RTOS task delay cannot be called inside ISR"),
    ("fw_mutex_lock", "ZE-003: Blocking mutex acquire is strictly prohibited inside ISR"),
    ("xSemaphoreTake", "ZE-003: Blocking semaphore acquire is strictly prohibited inside ISR"),
    ("pthread_mutex_lock", "ZE-003: Blocking mutex acquire is strictly prohibited inside ISR"),
    ("take_semaphore", "ZE-003: DryOS take_semaphore cannot be called inside ISR"),
    ("printf", "ZE-004: Non-reentrant standard I/O is prohibited inside ISR"),
    ("sprintf", "ZE-004: Unbounded string formatting is prohibited inside ISR"),
    ("bmp_printf", "ZE-004: ML GUI bmp_printf is prohibited inside ISR")]

/-- The entry of a name. -/
def forbiddenEntry (fnName : List Char) : Option (String × String) :=
  forbiddenIsrCalls.find? fun entry => entry.1.toList = fnName

/-- The characters beyond ASCII that `\w` and `\s` match. -/
structure UnicodeClasses where
  word : Char → Bool
  space : Char → Bool
  disjoint : ∀ c, word c = true → space c = false

section Patterns

variable (U : UnicodeClasses)

/-- `\w`. -/
def isWord (c : Char) : Bool := c.isAlphanum || c = '_' || (128 ≤ c.toNat && U.word c)

/-- `\s`. -/
def isSpace (c : Char) : Bool :=
  c.toNat ∈ [9, 10, 11, 12, 13, 28, 29, 30, 31, 32] || (128 ≤ c.toNat && U.space c)

/-- `[a-zA-Z_]`. -/
def isNameStart (c : Char) : Bool := c.isAlpha || c = '_'

/-- The name that `isr_decl_regex` takes from a match at the start. -/
def isrDeclAt (s : List Char) : Option (List Char) :=
  if "FW_ISR".toList.isPrefixOf s then
    let gap := s.drop 6
    let type := gap.dropWhile (isSpace U)
    let typeGap := type.dropWhile (isWord U)
    let name := typeGap.dropWhile (isSpace U)
    let rest := (name.dropWhile (isWord U)).dropWhile (isSpace U)
    if gap.head?.any (isSpace U) && type.head?.any (isWord U) && typeGap.head?.any (isSpace U) &&
        name.head?.any (isWord U) && rest.head? = some '(' then some (name.takeWhile (isWord U))
    else none
  else none

/-- `isr_decl_regex.search`. -/
def isrDeclSearch : List Char → Option (List Char)
  | [] => none
  | c :: rest => (isrDeclAt U (c :: rest)).or (isrDeclSearch rest)

end Patterns

/-- The variables of the loop of `analyze_c_file`. -/
structure AnalyzerState where
  inIsrFunction : Bool
  hasOpenedBrace : Bool
  currentIsrName : List Char
  braceDepth : Int

def AnalyzerState.start : AnalyzerState := ⟨false, false, [], 0⟩

variable (U : UnicodeClasses) (filePath : String)

end ZeroEmbedded.Analyzer
