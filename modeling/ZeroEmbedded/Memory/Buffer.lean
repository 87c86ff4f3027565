import ZeroEmbedded.Foundation.BoundedList
import ZeroEmbedded.Foundation.Runs
import ZeroEmbedded.Memory.StringView

/-!
# The growing buffer

`buffer.h` and `buffer.c`. A buffer is a bounded list of bytes: every call has
the answer and the effect of the operation on the list, also when the bytes that
are appended are bytes of the buffer itself.
-/

namespace ZeroEmbedded.Memory

open Foundation Foundation.Slices

/-- `fw_buffer_t`. -/
structure FwBuffer where
  data : Nat
  capacity : Nat
  length : Nat
  deriving DecidableEq, Repr

/-- `fw_buffer_init`. -/
def fwBufferInit (storage capacity : Nat) : Except FwStatus FwBuffer :=
  if storage = fwNull ∨ capacity = 0 then .error .errInvalidArg
  else .ok { data := storage, capacity := capacity, length := 0 }

/-- `fw_buffer_append`, with the buffer and the memory after it. -/
def fwBufferAppend (T : Target) (buf : FwBuffer) (m : ByteMemory) (src count : Nat) :
    FwStatus × FwBuffer × ByteMemory :=
  if src = fwNull then (.errInvalidArg, buf, m)
  else if count = 0 then (.ok, buf, m)
  else if count > T.sizeSub buf.capacity buf.length then (.errBufferOverflow, buf, m)
  else (.ok, { buf with length := T.size (buf.length + count) },
    m.copy (buf.data + buf.length) src count)

/-- `fw_buffer_append_byte`. -/
def fwBufferAppendByte (T : Target) (buf : FwBuffer) (m : ByteMemory) (byte : UInt8) :
    FwStatus × FwBuffer × ByteMemory :=
  if buf.length ≥ buf.capacity then (.errBufferOverflow, buf, m)
  else (.ok, { buf with length := T.size (buf.length + 1) },
    Function.update m (buf.data + buf.length) byte)

/-- `fw_buffer_append_span`. -/
def fwBufferAppendSpan (T : Target) (buf : FwBuffer) (m : ByteMemory) (span : FwSpan) :
    FwStatus × FwBuffer × ByteMemory :=
  fwBufferAppend T buf m span.data span.length

/-- `fw_buffer_append_sv`. -/
def fwBufferAppendSv (T : Target) (buf : FwBuffer) (m : ByteMemory) (sv : FwStringView) :
    FwStatus × FwBuffer × ByteMemory :=
  fwBufferAppend T buf m sv.data sv.length

/-- `fw_buffer_peek_byte`. -/
def fwBufferPeekByte (buf : FwBuffer) (m : ByteMemory) (index : Nat) : FwStatus × Option UInt8 :=
  if index ≥ buf.length then (.errInvalidArg, none) else (.ok, some (m (buf.data + index)))

/-- `fw_buffer_pop_byte`. -/
def fwBufferPopByte (T : Target) (buf : FwBuffer) (m : ByteMemory) :
    FwStatus × Option UInt8 × FwBuffer :=
  if buf.length = 0 then (.errNotFound, none, buf)
  else
    let length := T.sizeSub buf.length 1
    (.ok, some (m (buf.data + length)), { buf with length := length })

/-- `fw_buffer_as_span`, `fw_buffer_as_cspan`. -/
def fwBufferAsSpan (buf : FwBuffer) : FwSpan :=
  if buf.data = fwNull then fwSpanMake fwNull 0 else fwSpanMake buf.data buf.length

/-- `fw_buffer_clear`. -/
def fwBufferClear (buf : FwBuffer) : FwBuffer := { buf with length := 0 }

/-- `fw_buffer_remaining`. -/
def fwBufferRemaining (T : Target) (buf : FwBuffer) : Nat :=
  if buf.capacity ≥ buf.length then T.sizeSub buf.capacity buf.length else 0

/-- `fw_buffer_is_full`. -/
def fwBufferIsFull (buf : FwBuffer) : Bool := buf.length ≥ buf.capacity

/-- `fw_buffer_is_empty`. -/
def fwBufferIsEmpty (buf : FwBuffer) : Bool := buf.length = 0

/-- A call on a buffer; `fill` and `copyOver` write through its span. -/
inductive BufferCall
  | append (src count : Nat)
  | appendByte (byte : UInt8)
  | peekByte (index : Nat)
  | popByte
  | clear
  | fill (value : UInt8)
  | copyOver (src : FwSpan)
  deriving Repr

/-- What a call gives back. -/
inductive BufferAnswer
  | status (status : FwStatus)
  | byte (status : FwStatus) (byte : Option UInt8)
  | count (count : Nat)
  | done
  deriving DecidableEq, Repr

/-- A buffer and the memory. -/
structure BufferState where
  buf : FwBuffer
  memory : ByteMemory

/-- A call, its answer and the state after it. -/
def BufferCall.serve (T : Target) (s : BufferState) : BufferCall → BufferAnswer × BufferState
  | .append src count =>
      let (status, buf, memory) := fwBufferAppend T s.buf s.memory src count
      (.status status, ⟨buf, memory⟩)
  | .appendByte byte =>
      let (status, buf, memory) := fwBufferAppendByte T s.buf s.memory byte
      (.status status, ⟨buf, memory⟩)
  | .peekByte index =>
      let (status, byte) := fwBufferPeekByte s.buf s.memory index
      (.byte status byte, s)
  | .popByte =>
      let (status, byte, buf) := fwBufferPopByte T s.buf s.memory
      (.byte status byte, ⟨buf, s.memory⟩)
  | .clear => (.done, ⟨fwBufferClear s.buf, s.memory⟩)
  | .fill value => (.done, ⟨s.buf, fwSpanFill s.memory (fwBufferAsSpan s.buf) value⟩)
  | .copyOver src =>
      let (count, memory) := fwSpanCopy s.memory (fwBufferAsSpan s.buf) src
      (.count count, ⟨s.buf, memory⟩)

/-- An operation on the bytes of a buffer; bytes without a place are not given. -/
inductive ListCall
  | append (bytes : Option (List UInt8))
  | peek (index : Nat)
  | pop
  | clear
  | fill (value : UInt8)
  | overwrite (bytes : List UInt8)
  deriving Repr

/-- The operation that a call stands for, with the bytes that it reads. -/
def BufferCall.meaning (m : ByteMemory) : BufferCall → ListCall
  | .append src count =>
      .append (if src = fwNull then none else some (Memory.bytesAt m src count))
  | .appendByte byte => .append (some [byte])
  | .peekByte index => .peek index
  | .popByte => .pop
  | .clear => .clear
  | .fill value => .fill value
  | .copyOver src => .overwrite (src.bytes m)

/-- What an operation does to a list of bytes, and what it answers. -/
def ListCall.serve {capacity : Nat} (l : BoundedList UInt8 capacity) :
    ListCall → BufferAnswer × BoundedList UInt8 capacity
  | .append none => (.status .errInvalidArg, l)
  | .append (some bytes) =>
      match l.append bytes with
      | some longer => (.status .ok, longer)
      | none => (.status .errBufferOverflow, l)
  | .peek index =>
      (match l.items[index]? with
        | some byte => .byte .ok (some byte)
        | none => .byte .errInvalidArg none, l)
  | .pop =>
      (match l.items.getLast? with
        | some byte => .byte .ok (some byte)
        | none => .byte .errNotFound none, l.dropLast)
  | .clear => (.done, BoundedList.empty)
  | .fill value => (.done, l.overwrite (List.replicate l.items.length value))
  | .overwrite bytes => (.count (min l.items.length bytes.length), l.overwrite bytes)

/-- The answers of operations one after the other, and the list behind them. -/
def ListCall.serveAll {capacity : Nat} (l : BoundedList UInt8 capacity) :
    List ListCall → List BufferAnswer × BoundedList UInt8 capacity
  | [] => ([], l)
  | call :: rest =>
      ((call.serve l).1 :: (serveAll (call.serve l).2 rest).1, (serveAll (call.serve l).2 rest).2)

/-- A span of the bytes of a buffer, or one that the bytes behind them do not overlap, as
`memcpy` needs it. -/
def BufferCall.Allowed (T : Target) (s : BufferState) : BufferCall → Prop
  | .append src count =>
      count ≤ fwBufferRemaining T s.buf →
        src + count ≤ s.buf.data + s.buf.length ∨ s.buf.data + s.buf.length + count ≤ src
  | .copyOver src => src.Valid T ∧ src.Apart (fwBufferAsSpan s.buf)
  | _ => True

/-- A call on the buffer, with its meaning and its answer, or writes elsewhere. -/
inductive BufferEvent
  | call (meaning : ListCall) (answer : BufferAnswer)
  | elsewhere
  deriving Repr

/-- One step of the clients of a buffer with `capacity` bytes of storage. -/
inductive BufferStep (T : Target) (storage capacity : Nat) :
    BufferState → BufferEvent → BufferState → Prop
  | call (s : BufferState) (call : BufferCall) (allowed : call.Allowed T s) :
      BufferStep T storage capacity s
        (.call (call.meaning s.memory) (call.serve T s).1) (call.serve T s).2
  | elsewhere (s : BufferState) (m : ByteMemory)
      (outside : ByteMemory.AgreeOn m s.memory storage (storage + capacity)) :
      BufferStep T storage capacity s .elsewhere ⟨s.buf, m⟩

/-- The operations of a history. -/
def bufferCalls (es : List BufferEvent) : List ListCall :=
  es.filterMap fun
    | .call meaning _ => some meaning
    | .elsewhere => none

/-- The answers of a history. -/
def bufferAnswers (es : List BufferEvent) : List BufferAnswer :=
  es.filterMap fun
    | .call _ answer => some answer
    | .elsewhere => none

/-- The buffer in `storage` shows the list. -/
structure BufferState.Holds (storage : Nat) {capacity : Nat} (s : BufferState)
    (l : BoundedList UInt8 capacity) : Prop where
  data_eq : s.buf.data = storage
  capacity_eq : s.buf.capacity = capacity
  bytes : Memory.bytesAt s.memory storage s.buf.length = l.items

/-- The memories agree outside of the storage. -/
def KeptOutside (storage capacity : Nat) (m m' : ByteMemory) : Prop :=
  ∀ x, x < storage ∨ storage + capacity ≤ x → m' x = m x

namespace BufferState.Holds

variable {T : Target} {storage capacity : Nat} {s : BufferState} {l : BoundedList UInt8 capacity}

theorem length_eq (h : s.Holds storage l) : s.buf.length = l.items.length := by
  rw [← h.bytes, Memory.bytesAt_length]

theorem length_le (h : s.Holds storage l) : s.buf.length ≤ capacity := by
  rw [h.length_eq]
  exact l.fits

theorem asSpan_eq (h : s.Holds storage l) (hstorage : storage ≠ fwNull) :
    fwBufferAsSpan s.buf = ⟨storage, s.buf.length⟩ := by
  rw [fwBufferAsSpan, h.data_eq, if_neg hstorage]
  rfl

theorem asSpan_valid (h : s.Holds storage l) (hstorage : storage ≠ fwNull)
    (hobject : storage + capacity < T.sizeMod) : (fwBufferAsSpan s.buf).Valid T := by
  have hle := h.length_le
  rw [h.asSpan_eq hstorage]
  refine ⟨fun hnull => absurd hnull hstorage, ?_⟩
  dsimp only
  omega

theorem asSpan_bytes (h : s.Holds storage l) (hstorage : storage ≠ fwNull) :
    (fwBufferAsSpan s.buf).bytes s.memory = l.items := by
  rw [h.asSpan_eq hstorage]
  exact h.bytes

theorem remaining_eq (h : s.Holds storage l) (hobject : storage + capacity < T.sizeMod) :
    fwBufferRemaining T s.buf = l.remaining := by
  have hle := h.length_le
  rw [fwBufferRemaining, h.capacity_eq, if_pos hle, T.sizeSub_of_le hle (by omega), h.length_eq]
  rfl

/-- Bytes written behind the contents are appended to the list. -/
theorem grow (h : s.Holds storage l) {l' : BoundedList UInt8 capacity} {m : ByteMemory} {n : Nat}
    (hkept : ByteMemory.AgreeOn m s.memory storage (storage + s.buf.length))
    (hitems : l.items ++ Memory.bytesAt m (storage + s.buf.length) n = l'.items) :
    Holds storage ⟨⟨storage, capacity, s.buf.length + n⟩, m⟩ l' := by
  refine ⟨rfl, rfl, ?_⟩
  dsimp only
  rw [Memory.bytesAt_append, Memory.bytesAt_congr hkept, h.bytes, hitems]

/-- A list that is `n` items longer, when there is room for them. -/
theorem exists_longer (h : s.Holds storage l) (xs : List UInt8)
    (hroom : s.buf.length + xs.length ≤ capacity) :
    ∃ l' : BoundedList UInt8 capacity, l.items ++ xs = l'.items := by
  refine ⟨⟨l.items ++ xs, ?_⟩, rfl⟩
  rwa [List.length_append, ← h.length_eq]

theorem append_spec (h : s.Holds storage l) (hstorage : storage ≠ fwNull)
    (hobject : storage + capacity < T.sizeMod) (src count : Nat) :
    let call := BufferCall.append src count
    (call.serve T s).1 = ((call.meaning s.memory).serve l).1 ∧
      (call.serve T s).2.Holds storage ((call.meaning s.memory).serve l).2 ∧
      KeptOutside storage capacity s.memory (call.serve T s).2.memory := by
  have hle := h.length_le
  have hpos : 0 < storage := Nat.pos_of_ne_zero hstorage
  have hrest : T.sizeSub capacity s.buf.length = capacity - s.buf.length :=
    T.sizeSub_of_le hle (by omega)
  have hkept : KeptOutside storage capacity s.memory s.memory := fun _ _ => rfl
  dsimp only
  rw [BufferCall.serve, BufferCall.meaning, fwBufferAppend, h.capacity_eq, hrest]
  by_cases hnull : src = fwNull
  · rw [if_pos hnull, if_pos hnull]
    exact ⟨rfl, h, hkept⟩
  rw [if_neg hnull, if_neg hnull, ListCall.serve]
  by_cases hzero : count = 0
  · have hsame : l.append (Memory.bytesAt s.memory src count) = some l := by
      apply BoundedList.append_eq_some
      rw [hzero, Memory.bytesAt_zero, List.append_nil]
    rw [if_pos hzero, hsame]
    exact ⟨rfl, h, hkept⟩
  rw [if_neg hzero]
  by_cases hfull : count > capacity - s.buf.length
  · have hnone : l.append (Memory.bytesAt s.memory src count) = none := by
      apply BoundedList.append_eq_none
      rw [BoundedList.remaining, ← h.length_eq, Memory.bytesAt_length]
      exact hfull
    rw [if_pos hfull, hnone]
    exact ⟨rfl, h, hkept⟩
  · obtain ⟨l', hl'⟩ := h.exists_longer (Memory.bytesAt s.memory src count) (by
      rw [Memory.bytesAt_length]
      omega)
    have hsize : T.size (s.buf.length + count) = s.buf.length + count :=
      Nat.mod_eq_of_lt (by omega)
    rw [if_neg hfull, BoundedList.append_eq_some hl', h.data_eq, hsize]
    have hitems : l.items ++ Memory.bytesAt (s.memory.copy (storage + s.buf.length) src count)
        (storage + s.buf.length) count = l'.items := by rw [ByteMemory.bytesAt_copy, hl']
    exact ⟨rfl, h.grow (fun x _ hx => ByteMemory.copy_outside (Or.inl hx)) hitems,
      fun x hx => ByteMemory.copy_outside (by omega)⟩

theorem appendByte_spec (h : s.Holds storage l) (hstorage : storage ≠ fwNull)
    (hobject : storage + capacity < T.sizeMod) (byte : UInt8) :
    let call := BufferCall.appendByte byte
    (call.serve T s).1 = ((call.meaning s.memory).serve l).1 ∧
      (call.serve T s).2.Holds storage ((call.meaning s.memory).serve l).2 ∧
      KeptOutside storage capacity s.memory (call.serve T s).2.memory := by
  have hle := h.length_le
  have hpos : 0 < storage := Nat.pos_of_ne_zero hstorage
  dsimp only
  rw [BufferCall.serve, BufferCall.meaning, fwBufferAppendByte, h.capacity_eq, ListCall.serve]
  by_cases hfull : s.buf.length ≥ capacity
  · have hnone : l.append [byte] = none := by
      apply BoundedList.append_eq_none
      rw [BoundedList.remaining, ← h.length_eq, List.length_singleton]
      omega
    rw [if_pos hfull, hnone]
    exact ⟨rfl, h, fun _ _ => rfl⟩
  · obtain ⟨l', hl'⟩ := h.exists_longer [byte] (Nat.lt_of_not_le hfull)
    have hsize : T.size (s.buf.length + 1) = s.buf.length + 1 := Nat.mod_eq_of_lt (by omega)
    rw [if_neg hfull, BoundedList.append_eq_some hl', h.data_eq, hsize]
    have hitems : l.items ++ Memory.bytesAt (Function.update s.memory
        (storage + s.buf.length) byte) (storage + s.buf.length) 1 = l'.items := by
      rw [← hl', ByteMemory.bytesAt_one, Function.update_self]
    refine ⟨rfl, h.grow (fun x _ hx => ?_) hitems, fun x hx => ?_⟩
    · exact Function.update_of_ne (by omega) _ _
    · exact Function.update_of_ne (by omega) _ _

theorem peekByte_spec (h : s.Holds storage l) (index : Nat) :
    fwBufferPeekByte s.buf s.memory index =
      match l.items[index]? with
      | some byte => (.ok, some byte)
      | none => (.errInvalidArg, none) := by
  rw [fwBufferPeekByte, ← h.bytes, Memory.getElem?_bytesAt, h.data_eq]
  by_cases hindex : index < s.buf.length
  · rw [if_neg (Nat.not_le.mpr hindex), if_pos hindex]
  · rw [if_pos (Nat.le_of_not_lt hindex), if_neg hindex]

theorem popByte_spec (h : s.Holds storage l) (hstorage : storage ≠ fwNull)
    (hobject : storage + capacity < T.sizeMod) :
    (BufferCall.popByte.serve T s).1 = (ListCall.pop.serve l).1 ∧
      (BufferCall.popByte.serve T s).2.Holds storage (ListCall.pop.serve l).2 := by
  have hle := h.length_le
  have hpos : 0 < storage := Nat.pos_of_ne_zero hstorage
  rw [BufferCall.serve, fwBufferPopByte, ListCall.serve]
  by_cases hzero : s.buf.length = 0
  · have hnil : l.items = [] := by rw [← h.bytes, hzero, Memory.bytesAt_zero]
    rw [if_pos hzero, hnil]
    refine ⟨rfl, h.data_eq, h.capacity_eq, ?_⟩
    change Memory.bytesAt s.memory storage s.buf.length = l.items.dropLast
    rw [hzero, hnil, Memory.bytesAt_zero, List.dropLast_nil]
  · obtain ⟨k, hk⟩ := Nat.exists_eq_succ_of_ne_zero hzero
    have hitems : l.items = Memory.bytesAt s.memory storage k ++ [s.memory (storage + k)] := by
      rw [← h.bytes, hk, Nat.succ_eq_add_one, Memory.bytesAt_append, ByteMemory.bytesAt_one]
    rw [if_neg hzero, hk, T.sizeSub_of_le (by omega) (by omega), Nat.succ_sub_one, hitems,
      List.getLast?_concat, h.data_eq]
    refine ⟨rfl, rfl, h.capacity_eq, ?_⟩
    change Memory.bytesAt s.memory storage k = l.items.dropLast
    rw [hitems, List.dropLast_concat]

/-- Bytes of the contents replaced through the span of the buffer. -/
theorem overwrite_spec (h : s.Holds storage l) (hstorage : storage ≠ fwNull) {m : ByteMemory}
    {xs : List UInt8} (hbytes : (fwBufferAsSpan s.buf).bytes m =
      splice ((fwBufferAsSpan s.buf).bytes s.memory) 0 (xs.take s.buf.length)) :
    Holds storage ⟨s.buf, m⟩ (l.overwrite xs) := by
  refine ⟨h.data_eq, h.capacity_eq, ?_⟩
  have hdrop : l.items.drop (min s.buf.length xs.length) = l.items.drop xs.length := by
    rcases Nat.le_total s.buf.length xs.length with hle | hle
    · rw [Nat.min_eq_left hle, h.length_eq, List.drop_length,
        List.drop_eq_nil_of_le (by rwa [← h.length_eq])]
    · rw [Nat.min_eq_right hle]
  rw [h.asSpan_bytes hstorage, h.asSpan_eq hstorage, splice, List.take_zero, List.nil_append,
    Nat.zero_add, List.length_take, hdrop] at hbytes
  rw [BoundedList.overwrite]
  dsimp only
  rw [← h.length_eq]
  exact hbytes

/-- Every call does to the buffer what its operation does to the list. -/
theorem serve_spec (h : s.Holds storage l) (hstorage : storage ≠ fwNull)
    (hobject : storage + capacity < T.sizeMod) {call : BufferCall} (allowed : call.Allowed T s) :
    (call.serve T s).1 = ((call.meaning s.memory).serve l).1 ∧
      (call.serve T s).2.Holds storage ((call.meaning s.memory).serve l).2 ∧
      KeptOutside storage capacity s.memory (call.serve T s).2.memory := by
  have hvalid := h.asSpan_valid hstorage hobject
  have hspan := h.asSpan_eq hstorage
  have hle := h.length_le
  have hkept : KeptOutside storage capacity s.memory s.memory := fun _ _ => rfl
  have hwhole : 0 + (fwBufferAsSpan s.buf).length ≤ (fwBufferAsSpan s.buf).length := by omega
  cases call with
  | append src count => exact h.append_spec hstorage hobject src count
  | appendByte byte => exact h.appendByte_spec hstorage hobject byte
  | peekByte index =>
      rw [BufferCall.serve, BufferCall.meaning, h.peekByte_spec, ListCall.serve]
      refine ⟨?_, h, hkept⟩
      dsimp only
      split <;> rfl
  | popByte =>
      obtain ⟨hanswer, hholds⟩ := h.popByte_spec hstorage hobject
      refine ⟨hanswer, hholds, ?_⟩
      rw [BufferCall.serve]
      exact hkept
  | clear => exact ⟨rfl, ⟨h.data_eq, h.capacity_eq, rfl⟩, hkept⟩
  | fill value =>
      obtain ⟨hbytes, hframe⟩ := hvalid.fill_part hwhole s.memory value
      have hlength : (fwBufferAsSpan s.buf).length = l.items.length := by
        rw [hspan, ← h.length_eq]
      refine ⟨rfl, ?_, fun x hx => hframe x ?_⟩
      · refine h.overwrite_spec hstorage ?_
        rw [List.take_of_length_le (by rw [List.length_replicate, h.length_eq]), ← hlength]
        exact hbytes
      · rw [hspan]
        dsimp only
        omega
  | copyOver src =>
      obtain ⟨hcount, hbytes, hframe⟩ := hvalid.copy_part allowed.1 hwhole s.memory
      have hlength : (fwBufferAsSpan s.buf).length = s.buf.length := by rw [hspan]
      refine ⟨?_, ?_, fun x hx => hframe x ?_⟩
      · rw [BufferCall.meaning, ListCall.serve, FwSpan.bytes_length, ← h.length_eq, ← hlength]
        exact congrArg BufferAnswer.count hcount
      · refine h.overwrite_spec hstorage ?_
        rw [← hlength]
        exact hbytes
      · rw [hspan]
        dsimp only
        omega

end BufferState.Holds

theorem serveAll_concat {capacity : Nat} (l : BoundedList UInt8 capacity) (calls : List ListCall)
    (call : ListCall) :
    ListCall.serveAll l (calls ++ [call]) =
      ((ListCall.serveAll l calls).1 ++ [(call.serve (ListCall.serveAll l calls).2).1],
        (call.serve (ListCall.serveAll l calls).2).2) := by
  induction calls generalizing l with
  | nil => rfl
  | cons first rest ih =>
      rw [List.cons_append, ListCall.serveAll, ih]
      rfl

/-- What a buffer tells about its list, and which bytes its next call may change. -/
structure BufferState.Shows (T : Target) (storage : Nat) {capacity : Nat} (s : BufferState)
    (l : BoundedList UInt8 capacity) : Prop where
  contents : (fwBufferAsSpan s.buf).bytes s.memory = l.items
  remaining : fwBufferRemaining T s.buf = l.remaining
  full : fwBufferIsFull s.buf = true ↔ l.remaining = 0
  empty : fwBufferIsEmpty s.buf = true ↔ l.items = []
  frame : ∀ call : BufferCall, call.Allowed T s →
    KeptOutside storage capacity s.memory (call.serve T s).2.memory
  own : ∀ chain sub, (fwBufferAsSpan s.buf).narrow T chain = (.ok, sub) →
    (BufferCall.append sub.data sub.length).Allowed T s ∧
    ∃ xs, slices l.items chain = some xs ∧
      (BufferCall.append sub.data sub.length).meaning s.memory = .append (some xs)

theorem BufferState.Holds.shows {T : Target} {storage capacity : Nat} {s : BufferState}
    {l : BoundedList UInt8 capacity} (h : s.Holds storage l) (hstorage : storage ≠ fwNull)
    (hobject : storage + capacity < T.sizeMod) : s.Shows T storage l where
  contents := h.asSpan_bytes hstorage
  remaining := h.remaining_eq hobject
  full := by
    have hle := h.length_le
    rw [fwBufferIsFull, decide_eq_true_iff, h.capacity_eq, BoundedList.remaining, ← h.length_eq]
    omega
  empty := by
    rw [fwBufferIsEmpty, decide_eq_true_iff, h.length_eq, List.length_eq_zero_iff]
  frame _ allowed := (h.serve_spec hstorage hobject allowed).2.2
  own chain sub hsub := by
    have hnarrow := (h.asSpan_valid hstorage hobject).narrow_eq chain s.memory
    rw [h.asSpan_bytes hstorage, hsub] at hnarrow
    split at hnarrow
    · next xs hslices =>
        obtain ⟨heq, hinside, -⟩ := hnarrow
        obtain rfl : sub = _ := congrArg Prod.snd heq
        have hhigh := hinside.high
        rw [h.asSpan_eq hstorage] at hhigh ⊢
        dsimp only at hhigh ⊢
        have hdata : storage + shift chain ≠ fwNull := fun hnull =>
          hstorage (Nat.eq_zero_of_add_eq_zero_right hnull)
        have hslice := slices_eq_slice hslices
        rw [← h.bytes, ByteMemory.slice_bytesAt] at hslice
        split at hslice
        · refine ⟨fun _ => Or.inl ?_, xs, hslices, ?_⟩
          · rw [h.data_eq]
            exact hhigh
          · rw [BufferCall.meaning, if_neg hdata, Option.some.inj hslice]
        · cases hslice
    · exact FwStatus.noConfusion (congrArg Prod.fst hnarrow.1)

/-- In every run a buffer answers as the bounded list of bytes does that the same operations are
done to, and shows that list. -/
theorem fwBuffer_refines_boundedList {T : Target} {storage capacity : Nat} {buf : FwBuffer}
    {m : ByteMemory} {es : List BufferEvent} {t : BufferState}
    (hobject : storage + capacity < T.sizeMod) (hinit : fwBufferInit storage capacity = .ok buf)
    (run : Run (BufferStep T storage capacity) ⟨buf, m⟩ es t) :
    ∃ l : BoundedList UInt8 capacity,
      ListCall.serveAll BoundedList.empty (bufferCalls es) = (bufferAnswers es, l) ∧
      t.Shows T storage l := by
  have hargs : storage ≠ fwNull ∧ buf = ⟨storage, capacity, 0⟩ := by
    rw [fwBufferInit] at hinit
    split at hinit
    · cases hinit
    · next hargs => exact ⟨fun hnull => hargs (Or.inl hnull), (Except.ok.inj hinit).symm⟩
  obtain ⟨hstorage, rfl⟩ := hargs
  have hrun : ∃ l : BoundedList UInt8 capacity,
      ListCall.serveAll BoundedList.empty (bufferCalls es) = (bufferAnswers es, l) ∧
      t.Holds storage l := by
    induction run with
    | nil => exact ⟨BoundedList.empty, rfl, ⟨rfl, rfl, rfl⟩⟩
    | snoc run step ih =>
        obtain ⟨l, hserve, hholds⟩ := ih
        cases step with
        | call call allowed =>
            obtain ⟨hanswer, hnext, -⟩ := hholds.serve_spec hstorage hobject allowed
            refine ⟨_, ?_, hnext⟩
            rw [bufferCalls, bufferAnswers, List.filterMap_append, List.filterMap_append,
              ← bufferCalls, ← bufferAnswers]
            change ListCall.serveAll _ (_ ++ [_]) = (_ ++ [_], _)
            rw [serveAll_concat, hserve, hanswer]
        | elsewhere m outside =>
            refine ⟨l, ?_, hholds.data_eq, hholds.capacity_eq, ?_⟩
            · rw [bufferCalls, bufferAnswers, List.filterMap_append, List.filterMap_append,
                ← bufferCalls, ← bufferAnswers]
              change ListCall.serveAll _ (_ ++ []) = (_ ++ [], _)
              rw [List.append_nil, List.append_nil, hserve]
            · have hle := hholds.length_le
              rw [← hholds.bytes]
              exact Memory.bytesAt_congr fun x hx hx' => outside x hx (by
                dsimp only at hx'
                omega)
  obtain ⟨l, hserve, hholds⟩ := hrun
  exact ⟨l, hserve, hholds.shows hstorage hobject⟩

/-- A byte, the same byte from the buffer itself, and one that finds no room. -/
theorem fwBuffer_refines_boundedList_sample :
    ∃ es t, Run (BufferStep target32 0x1000 2) ⟨⟨0x1000, 2, 0⟩, fun _ => 0⟩ es t ∧
      bufferAnswers es = [.status .ok, .status .ok, .status .errBufferOverflow] ∧
      ∃ l : BoundedList UInt8 2,
        ListCall.serveAll BoundedList.empty (bufferCalls es) = (bufferAnswers es, l) ∧
        t.Shows target32 0x1000 l := by
  have run := (((Run.nil _).snoc (@BufferStep.call target32 0x1000 2
    ⟨⟨0x1000, 2, 0⟩, fun _ => 0⟩ (.appendByte 7) trivial)).snoc
    (.call _ (.append 0x1000 1) fun _ => Or.inl (by decide))).snoc
    (.call _ (.appendByte 9) trivial)
  exact ⟨_, _, run, by decide, fwBuffer_refines_boundedList (by decide) (by decide) run⟩

end ZeroEmbedded.Memory
