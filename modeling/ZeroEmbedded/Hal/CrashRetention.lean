import ZeroEmbedded.Foundation.LastWord
import ZeroEmbedded.Hal.CrashDump

/-!
# Crash dumps over resets

The buffer of a dump lies in memory that survives a reset, and the default
buffer does not. A reset also forgets which buffer was chosen. The runs here go
over any number of resets and start from any contents of the memory.

## Implementation notes

A retention buffer is an object of its own, known by its number. The pointer to
the buffer in use is never null, so its null tests have no counterpart.
-/

namespace ZeroEmbedded.CrashDump

open Foundation

/-- `sizeof(fw_crash_dump_t)`. -/
def sizeofFwCrashDump : Nat := 64

/-- The buffers that survive a reset, `s_default_retention_buffer`, and `s_retention_ptr`, which is
`none` when it points to the default buffer. -/
structure Retention where
  retained : Nat → FwCrashDump
  defaultBuffer : FwCrashDump
  ptr : Option Nat

namespace Retention

/-- The buffer behind a pointer. -/
def read (s : Retention) : Option Nat → FwCrashDump
  | none => s.defaultBuffer
  | some buf => s.retained buf

def write (s : Retention) (slot : Option Nat) (dump : FwCrashDump) : Retention :=
  match slot with
  | none => { s with defaultBuffer := dump }
  | some buf => { s with retained := Function.update s.retained buf dump }

/-- `fw_crash_dump_init`. -/
def init (s : Retention) (retentionBuf : Option Nat) (bufSize : Nat) : Retention :=
  if retentionBuf ≠ none ∧ bufSize ≥ sizeofFwCrashDump then { s with ptr := retentionBuf }
  else { s with ptr := none }

/-- `fw_crash_dump_get`, with what it leaves in `*out_dump`. -/
def get (s : Retention) (outDump : Option FwCrashDump) : FwStatus × Option FwCrashDump :=
  fwCrashDumpGet (s.read s.ptr) outDump

/-- `fw_crash_dump_clear`. -/
def clear (s : Retention) : Retention := s.write s.ptr zeroDump

/-- The start-up code clears the static memory and leaves the retained memory alone. -/
def reset (s : Retention) : Retention := { s with defaultBuffer := zeroDump, ptr := none }

end Retention

section Slots

variable {s : Retention} {slot other : Option Nat} {dump out old kept : FwCrashDump}

end Slots

section Runs

variable {s s' : Retention} {es : List DumpEvent}

end Runs

end ZeroEmbedded.CrashDump
