import ZeroEmbedded.Diag.LogOrder

/-!
# The line that the sink gets

`fw_log_flush` formats a message into `msg_buf` and the message into
`line_buf`, and passes on what the second `snprintf` returns. That is the length
of the whole line, also when the buffer does not hold all of it.

## Implementation notes

A character stands for one `char`. What a format makes of its two arguments is
a parameter. `snprintf` returns an error when `int` cannot count the characters.
-/

namespace ZeroEmbedded.Log

open Foundation

/-- What `%s` reads: the characters before the first null. -/
def cString (text : List Char) : List Char := text.takeWhile (· ≠ Char.ofNat 0)

/-- `snprintf` into a buffer of this size: the characters that it stores before the null, and its
result. -/
def snprintf (size : Nat) (text : List Char) : List Char × Int :=
  (text.take (size - 1), if text.length < 2 ^ 31 then text.length else -1)

/-- `lvl_color`. -/
def lvlColor (level : UInt8) : List Char :=
  (match level.toNat with
    | 1 => "\x1b[1;31m[E]"
    | 2 => "\x1b[1;33m[W]"
    | 3 => "\x1b[1;32m[I]"
    | 4 => "\x1b[1;36m[D]"
    | _ => "\x1b[0m[?]").toList

/-- `%05u`. -/
def fiveDigits (n : Nat) : List Char :=
  List.replicate (5 - (Nat.toDigits 10 n).length) '0' ++ Nat.toDigits 10 n

variable (T : Target) (format : String → Nat → Nat → List Char)

/-- `msg_buf`. -/
def msgBuf (e : FwLogEntry) : List Char := (snprintf 192 (format e.fmt e.arg1 e.arg2)).1

/-- What the format of the line makes of its arguments. -/
def lineText (e : FwLogEntry) : List Char :=
  lvlColor e.level ++ " ".toList ++ fiveDigits e.timestampMs.toNat ++ "][".toList ++
    cString e.tag.toList ++ "] ".toList ++ cString (msgBuf format e) ++ "\x1b[0m\n".toList

/-- A call of the sink: the characters in `line_buf`, and the length that is passed with them. -/
structure SinkCall where
  lineBuf : List Char
  len : Nat
  deriving DecidableEq, Repr

/-- The call of the sink for an entry. -/
def sinkCall (e : FwLogEntry) : Option SinkCall :=
  let line := snprintf 256 (lineText format e)
  if line.2 > 0 then some ⟨line.1, T.size line.2.toNat⟩ else none

/-- The sink is told of no more characters than there are. -/
def SinkCall.InBounds (call : SinkCall) : Prop := call.len ≤ call.lineBuf.length

instance (call : SinkCall) : Decidable call.InBounds := inferInstanceAs (Decidable (_ ≤ _))

/-- The number of characters of the line for an entry. -/
def lineLength (e : FwLogEntry) : Nat :=
  (if e.level.toNat ∈ [1, 2, 3, 4] then 20 else 17) +
    max 5 (Nat.toDigits 10 e.timestampMs.toNat).length + (cString e.tag.toList).length +
    (cString ((format e.fmt e.arg1 e.arg2).take 191)).length

/-- The line fits into the buffer, or is so long that `snprintf` fails. -/
def Fits (e : FwLogEntry) : Prop := lineLength format e ≤ 255 ∨ 2 ^ 31 ≤ lineLength format e

variable {T format}

theorem lvlColor_length (level : UInt8) :
    (lvlColor level).length = if level.toNat ∈ [1, 2, 3, 4] then 10 else 7 := by
  rw [lvlColor]
  split
  case h_5 h1 h2 h3 h4 =>
    rw [if_neg]
    · rfl
    · simp only [List.mem_cons, List.not_mem_nil, or_false]
      rintro (h | h | h | h)
      · exact h1 h
      · exact h2 h
      · exact h3 h
      · exact h4 h
  all_goals
    next h =>
      rw [h]
      rfl

theorem fiveDigits_length (n : Nat) :
    (fiveDigits n).length = max 5 (Nat.toDigits 10 n).length := by
  rw [fiveDigits, List.length_append, List.length_replicate]
  omega

theorem lineText_length (e : FwLogEntry) : (lineText format e).length = lineLength format e := by
  have hspace : " ".toList.length = 1 := rfl
  have hopen : "][".toList.length = 2 := rfl
  have hclose : "] ".toList.length = 2 := rfl
  have hreset : "\x1b[0m\n".toList.length = 5 := rfl
  have hmsg : msgBuf format e = (format e.fmt e.arg1 e.arg2).take 191 := rfl
  simp only [lineText, List.length_append, lvlColor_length, fiveDigits_length, hspace, hopen,
    hclose, hreset, hmsg]
  rw [lineLength]
  split <;> omega

theorem lineText_length_pos (e : FwLogEntry) : 0 < (lineText format e).length := by
  rw [lineText_length, lineLength]
  split <;> omega

theorem snprintf_of_lt {size : Nat} {text : List Char} (h : text.length < 2 ^ 31) :
    snprintf size text = (text.take (size - 1), (text.length : Int)) := by
  rw [snprintf, if_pos h]

theorem snprintf_of_le {size : Nat} {text : List Char} (h : 2 ^ 31 ≤ text.length) :
    snprintf size text = (text.take (size - 1), -1) := by
  rw [snprintf, if_neg (Nat.not_lt.mpr h)]

/-- The sink gets what the buffer holds of the line, and the length of the whole line. -/
theorem sinkCall_of_lt {e : FwLogEntry} (h : (lineText format e).length < 2 ^ 31) :
    sinkCall T format e = some ⟨(lineText format e).take 255, (lineText format e).length⟩ := by
  have hpos : (0 : Int) < (lineText format e).length :=
    Int.natCast_pos.mpr (lineText_length_pos e)
  have hlen : T.size (lineText format e).length = (lineText format e).length :=
    T.size_of_lt (Nat.lt_trans h (by decide))
  rw [sinkCall, snprintf_of_lt h]
  dsimp only
  rw [if_pos hpos, Int.toNat_natCast, hlen]

/-- The sink does not get a line that `snprintf` fails on. -/
theorem sinkCall_of_le {e : FwLogEntry} (h : 2 ^ 31 ≤ (lineText format e).length) :
    sinkCall T format e = none := by
  have hneg : ¬ (-1 : Int) > 0 := by decide
  rw [sinkCall, snprintf_of_le h]
  exact if_neg hneg

/-- A whole line stays in the buffer when the buffer holds all of it. -/
theorem inBounds_take_iff {n : Nat} {text : List Char} :
    SinkCall.InBounds ⟨text.take n, text.length⟩ ↔ text.length ≤ n := by
  rw [SinkCall.InBounds, List.length_take]
  exact Nat.le_min.trans (and_iff_left (Nat.le_refl _))

/-- The call for an entry stays in the buffer exactly when its line fits. -/
theorem sinkCall_inBounds_iff (e : FwLogEntry) :
    (∀ call ∈ sinkCall T format e, call.InBounds) ↔ Fits format e := by
  rw [Fits, ← lineText_length]
  by_cases hint : (lineText format e).length < 2 ^ 31
  · rw [sinkCall_of_lt hint, or_iff_left (Nat.not_le.mpr hint)]
    constructor
    · exact fun hcalls => inBounds_take_iff.mp (hcalls _ rfl)
    · intro hfits call hcall
      obtain rfl := Option.some_inj.mp hcall
      exact inBounds_take_iff.mpr hfits
  · have hlong := Nat.not_lt.mp hint
    rw [sinkCall_of_le hlong]
    exact iff_of_true (fun call hcall => nomatch hcall) (Or.inr hlong)

/-- In every run the calls of the sink stay in the buffer exactly when the lines of the accepted
posts that were flushed fit. -/
theorem fwLogFlush_inBounds_iff {storage : List FwLogEntry} {log : LogState}
    (hsize : storage.length < T.sizeMod) (hinit : fwLogInit storage = .ok log) {s : FlushSystem}
    {es : List FlushEvent} (run : Run (FlushStep T storage.length) ⟨log, none⟩ es s) :
    (∀ call ∈ s.log.emitted.filterMap (sinkCall T format), call.InBounds) ↔
      ∀ e ∈ (acceptedPosts es).take s.log.emitted.length, Fits format e := by
  obtain ⟨pending, -, hacc⟩ := flushRun_settled hsize hinit run
  rw [hacc, List.take_left]
  constructor
  · intro hcalls e he
    apply (sinkCall_inBounds_iff e).mp
    intro call hcall
    exact hcalls call (List.mem_filterMap.mpr ⟨e, he, hcall⟩)
  · intro hfits call hcall
    obtain ⟨e, he, hcall⟩ := List.mem_filterMap.mp hcall
    exact (sinkCall_inBounds_iff e).mpr (hfits e he) call hcall

/-- A format without conversions. -/
def plainFormat (fmt : String) (_ _ : Nat) : List Char := fmt.toList

/-- A post and the flush that takes its entry. -/
theorem exists_run_of_post (p : Post) :
    ∃ s, Run (FlushStep ⟨4, .inl rfl⟩ 2) ⟨⟨List.replicate 2 default, 0, 0, []⟩, none⟩
      [.post p .posted, .start 0, .entry] s ∧ s.log.emitted = [p.entry] := by
  let start : FlushSystem := ⟨⟨List.replicate 2 default, 0, 0, []⟩, none⟩
  have hpost : FlushStep ⟨4, .inl rfl⟩ 2 start (.post p .posted) _ := .post _ _ rfl
  have run := (((Run.nil start).snoc hpost).snoc (.start _ 0)).snoc (.entry rfl)
  exact ⟨_, run, rfl⟩

theorem fwLogFlush_inBounds_iff_sample :
    ∃ s : FlushSystem, s.log.emitted = [superloopPost.entry] ∧
      ∀ call ∈ s.log.emitted.filterMap (sinkCall ⟨4, .inl rfl⟩ plainFormat), call.InBounds := by
  obtain ⟨s, run, hemitted⟩ := exists_run_of_post superloopPost
  have hsize : (List.replicate 2 (default : FwLogEntry)).length <
      Target.sizeMod ⟨4, .inl rfl⟩ := by decide
  refine ⟨s, hemitted, (fwLogFlush_inBounds_iff hsize rfl run).mpr ?_⟩
  intro e he
  rw [hemitted] at he
  obtain rfl := List.mem_singleton.mp he
  exact Or.inl (by decide +kernel)

/-- A tag of 40 characters, and a message that fills `msg_buf`. -/
def longPost : Post :=
  ⟨3, some (String.ofList (List.replicate 40 'T')), some (String.ofList (List.replicate 200 'm')),
    0, 0, 10⟩

theorem cString_replicate {c : Char} (hc : c ≠ Char.ofNat 0) (n : Nat) :
    cString (List.replicate n c) = List.replicate n c := by
  rw [cString, List.takeWhile_replicate]
  exact if_pos (decide_eq_true hc)

/-- Its line has 256 characters. -/
theorem longPost_not_fits : ¬ Fits plainFormat longPost.entry := by
  have htag : (cString longPost.entry.tag.toList).length = 40 := by
    change (cString (String.ofList (List.replicate 40 'T')).toList).length = 40
    rw [String.toList_ofList, cString_replicate (by decide)]
    exact List.length_replicate
  have hmsg : (cString ((plainFormat longPost.entry.fmt longPost.entry.arg1
      longPost.entry.arg2).take 191)).length = 191 := by
    change (cString ((String.ofList (List.replicate 200 'm')).toList.take 191)).length = 191
    rw [String.toList_ofList, List.take_replicate, cString_replicate (by decide)]
    exact List.length_replicate
  rw [Fits, lineLength, htag, hmsg]
  decide +kernel

/-- The sink is told of a character more than `line_buf` holds. -/
theorem fwLogFlush_overreads :
    ¬ ∀ (T : Target) (format : String → Nat → Nat → List Char) (storage : List FwLogEntry)
      (log : LogState) (s : FlushSystem) (es : List FlushEvent), storage.length < T.sizeMod →
      fwLogInit storage = .ok log → Run (FlushStep T storage.length) ⟨log, none⟩ es s →
      ∀ call ∈ s.log.emitted.filterMap (sinkCall T format), call.InBounds := by
  intro hclaim
  obtain ⟨s, run, hemitted⟩ := exists_run_of_post longPost
  have hcalls := hclaim ⟨4, .inl rfl⟩ plainFormat (List.replicate 2 default) _ s _ (by decide) rfl
    run
  rw [hemitted] at hcalls
  apply longPost_not_fits
  apply (sinkCall_inBounds_iff longPost.entry).mp
  intro call hcall
  exact hcalls call (List.mem_filterMap.mpr ⟨_, List.mem_singleton_self _, hcall⟩)

end ZeroEmbedded.Log
