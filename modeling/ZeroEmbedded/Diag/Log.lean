import ZeroEmbedded.Foundation.DeviceProgram
import ZeroEmbedded.Foundation.Runs
import ZeroEmbedded.Types

/-!
# The deferred logger

`log.c` after `fw_log_init`. The functions are programs over the accesses to
the queue, so that an interrupt may come between any two of them.

## Implementation notes

The line that `fw_log_flush` formats is determined by the fields of the entry.
The sink takes these fields in its place, and keeps what it has taken. The guard
`len > 0` of its call is in `sinkCall`, with the line: it holds of every line
that `snprintf` does not fail on.
-/

namespace ZeroEmbedded.Log

open Foundation

variable (T : Target)

/-- `fw_log_entry_t`. -/
structure FwLogEntry where
  timestampMs : UInt32
  tag : String
  fmt : String
  arg1 : Nat
  arg2 : Nat
  level : UInt8
  deriving DecidableEq, Repr, Inhabited

/-- The members of `fw_log_entry_t`. -/
inductive LogField
  | timestampMs
  | tag
  | fmt
  | arg1
  | arg2
  | level

def LogField.type : LogField → Type
  | .timestampMs => UInt32
  | .tag | .fmt => String
  | .arg1 | .arg2 => Nat
  | .level => UInt8

def FwLogEntry.get (e : FwLogEntry) : (field : LogField) → field.type
  | .timestampMs => e.timestampMs
  | .tag => e.tag
  | .fmt => e.fmt
  | .arg1 => e.arg1
  | .arg2 => e.arg2
  | .level => e.level

def FwLogEntry.set (e : FwLogEntry) : (field : LogField) → field.type → FwLogEntry
  | .timestampMs, v => { e with timestampMs := v }
  | .tag, v => { e with tag := v }
  | .fmt, v => { e with fmt := v }
  | .arg1, v => { e with arg1 := v }
  | .arg2, v => { e with arg2 := v }
  | .level, v => { e with level := v }

/-- `s_entries`, `s_head` and `s_tail`, and what the sink has taken. -/
structure LogState where
  entries : List FwLogEntry
  head : Nat
  tail : Nat
  emitted : List FwLogEntry
  deriving DecidableEq, Repr

/-- `fw_log_init` with a storage of this length. -/
def fwLogInit (storage : List FwLogEntry) : Except FwStatus LogState :=
  if storage.length < 2 then .error .errInvalidArg else .ok ⟨storage, 0, 0, []⟩

/-- An access to the queue or a call of the sink. -/
inductive LogCall
  | loadHead
  | loadTail
  | storeHead (v : Nat)
  | storeTail (v : Nat)
  | load (i : Nat) (field : LogField)
  | store (i : Nat) (field : LogField) (v : field.type)
  | sink (line : FwLogEntry)

def LogCall.Reply : LogCall → Type
  | .loadHead | .loadTail => Nat
  | .load _ field => field.type
  | _ => Unit

/-- What an access reads and changes. -/
def logHandler : Handler LogCall LogCall.Reply LogState
  | .loadHead, s => (s.head, s)
  | .loadTail, s => (s.tail, s)
  | .storeHead v, s => ((), { s with head := v })
  | .storeTail v, s => ((), { s with tail := v })
  | .load i field, s => ((s.entries.getD i default).get field, s)
  | .store i field v, s => ((), { s with entries := s.entries.modify i fun e => e.set field v })
  | .sink line, s => ((), { s with emitted := s.emitted ++ [line] })

abbrev LogProgram := Program LogCall LogCall.Reply

def loadHead : LogProgram Nat := Program.request LogCall.loadHead

def loadTail : LogProgram Nat := Program.request LogCall.loadTail

def storeHead (v : Nat) : LogProgram Unit := Program.request (LogCall.storeHead v)

def storeTail (v : Nat) : LogProgram Unit := Program.request (LogCall.storeTail v)

def load (i : Nat) (field : LogField) : LogProgram field.type :=
  Program.request (LogCall.load i field)

def store (i : Nat) (field : LogField) (v : field.type) : LogProgram Unit :=
  Program.request (LogCall.store i field v)

def sink (line : FwLogEntry) : LogProgram Unit := Program.request (LogCall.sink line)

/-- The arguments of `fw_log_post_fast`, and what `fw_timer_get_millis` returns to it. -/
structure Post where
  level : UInt8
  tag : Option String
  fmt : Option String
  arg1 : Nat
  arg2 : Nat
  millis : UInt32
  deriving DecidableEq, Repr

/-- The entry of a post. -/
def Post.entry (p : Post) : FwLogEntry :=
  ⟨p.millis, p.tag.getD "SYS", p.fmt.getD "", p.arg1, p.arg2, p.level⟩

/-- How a call has ended. -/
inductive LogResult
  | posted
  | dropped
  | flushed (n : Nat)
  deriving DecidableEq, Repr

/-- `fw_log_post_fast`. -/
def fwLogPostFast (capacity : Nat) (p : Post) : LogProgram LogResult := do
  let head ← loadHead
  let nextHead := T.size (head + 1) % capacity
  let tail ← loadTail
  if nextHead = tail then return .dropped
  let entry ← loadHead
  store entry .timestampMs p.millis
  store entry .level p.level
  store entry .tag (p.tag.getD "SYS")
  store entry .fmt (p.fmt.getD "")
  store entry .arg1 p.arg1
  store entry .arg2 p.arg2
  storeHead nextHead
  return .posted

/-- How a round of the loop of `fw_log_flush` ends: the loop is left, or goes on. -/
inductive FlushRound
  | done (flushed : Nat)
  | next (flushed : Nat)
  deriving DecidableEq, Repr

/-- A round of the loop of `fw_log_flush`. -/
def flushRound (capacity maxEntries flushed : Nat) : LogProgram FlushRound := do
  let tail ← loadTail
  let head ← loadHead
  if tail = head then return .done flushed
  if maxEntries > 0 ∧ flushed ≥ maxEntries then return .done flushed
  let entry ← loadTail
  let fmt ← load entry .fmt
  let arg1 ← load entry .arg1
  let arg2 ← load entry .arg2
  let level ← load entry .level
  let timestampMs ← load entry .timestampMs
  let tag ← load entry .tag
  sink ⟨timestampMs, tag, fmt, arg1, arg2, level⟩
  let tail ← loadTail
  storeTail (T.size (tail + 1) % capacity)
  return .next (T.size (flushed + 1))

/-- The loop of `fw_log_flush`, for at most `fuel` rounds. -/
def flushLoop (capacity maxEntries : Nat) : Nat → Nat → LogProgram LogResult
  | 0, _ => .stuck
  | fuel + 1, flushed => do
      match ← flushRound T capacity maxEntries flushed with
      | .done n => return .flushed n
      | .next n => flushLoop capacity maxEntries fuel n

/-- `fw_log_flush`. -/
def fwLogFlush (capacity maxEntries fuel : Nat) : LogProgram LogResult :=
  flushLoop T capacity maxEntries fuel 0

end ZeroEmbedded.Log
