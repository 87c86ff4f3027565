import ZeroEmbedded.Foundation.Slices
import ZeroEmbedded.Memory.Pool

/-!
# Spans and string views

`span.h` and `string_view.h`. A span is an address and a length; `fw_span_t`
and `fw_cspan_t` differ only in the type of the pointer. The bytes of a span
that is taken from other spans are a slice of the bytes of the first one.
-/

namespace ZeroEmbedded.Memory

open Foundation Foundation.Slices

/-- `fw_span_t` and `fw_cspan_t`. -/
structure FwSpan where
  data : Nat
  length : Nat
  deriving DecidableEq, Repr

/-- `fw_span_make`, `fw_cspan_make`. -/
def fwSpanMake (data length : Nat) : FwSpan := { data := data, length := length }

/-- `fw_span_to_cspan`. -/
def fwSpanToCspan (span : FwSpan) : FwSpan := { data := span.data, length := span.length }

/-- `fw_span_is_empty`, `fw_cspan_is_empty`. -/
def fwSpanIsEmpty (span : FwSpan) : Bool := span.data = fwNull || span.length = 0

/-- `fw_span_sub`, `fw_cspan_sub`; `assert` is `ZERO_ENABLE_ASSERT`, and there is no result
where an assertion fails and the program stops. -/
def fwSpanSub (T : Target) (assert : Bool) (span : FwSpan) (offset length : Nat) :
    Option FwSpan :=
  if assert ∧ ¬ offset ≤ span.length then none
  else if assert ∧ ¬ length ≤ T.sizeSub span.length offset then none
  else some { data := span.data + offset, length := length }

/-- `fw_span_sub_safe`, `fw_cspan_sub_safe`. -/
def fwSpanSubSafe (T : Target) (span : FwSpan) (offset length : Nat) : FwStatus × FwSpan :=
  if offset > span.length ∨ length > T.sizeSub span.length offset then
    (.errBufferOverflow, fwSpanMake fwNull 0)
  else (.ok, { data := span.data + offset, length := length })

/-- `fw_span_copy`, and the memory after it. -/
def fwSpanCopy (m : ByteMemory) (dst src : FwSpan) : Nat × ByteMemory :=
  if dst.data = fwNull ∨ src.data = fwNull then (0, m)
  else
    let toCopy := if dst.length < src.length then dst.length else src.length
    (toCopy, if toCopy > 0 then m.copy dst.data src.data toCopy else m)

/-- `fw_span_fill`, and the memory after it. -/
def fwSpanFill (m : ByteMemory) (dst : FwSpan) (value : UInt8) : ByteMemory :=
  if dst.data ≠ fwNull ∧ dst.length > 0 then m.fill dst.data dst.length value else m

namespace FwSpan

/-- A span that is null and empty or inside of the address space. -/
structure Valid (T : Target) (span : FwSpan) : Prop where
  null : span.data = fwNull → span.length = 0
  fits : span.data + span.length < T.sizeMod

/-- The bytes that a span covers. -/
def bytes (m : ByteMemory) (span : FwSpan) : List UInt8 :=
  Memory.bytesAt m span.data span.length

/-- Every byte of the one span is a byte of the other one. -/
structure Inside (sub span : FwSpan) : Prop where
  low : span.data ≤ sub.data
  high : sub.data + sub.length ≤ span.data + span.length

/-- The spans have no byte in common. -/
def Apart (a b : FwSpan) : Prop := a.data + a.length ≤ b.data ∨ b.data + b.length ≤ a.data

/-- Spans taken one from the other by `fw_span_sub_safe`, up to the first error. -/
def narrow (T : Target) (span : FwSpan) : List (Nat × Nat) → FwStatus × FwSpan
  | [] => (.ok, span)
  | (offset, length) :: rest =>
      match fwSpanSubSafe T span offset length with
      | (.ok, sub) => sub.narrow T rest
      | (status, sub) => (status, sub)

/-- Spans taken one from the other by `fw_span_sub`. -/
def narrowAsserted (T : Target) (assert : Bool) (span : FwSpan) :
    List (Nat × Nat) → Option FwSpan
  | [] => some span
  | (offset, length) :: rest =>
      (fwSpanSub T assert span offset length).bind (·.narrowAsserted T assert rest)

variable {T : Target} {assert : Bool} {span sub src : FwSpan} {m : ByteMemory}
  {offset length : Nat} {chain : List (Nat × Nat)}

@[simp] theorem bytes_length (m : ByteMemory) (span : FwSpan) :
    (span.bytes m).length = span.length := Memory.bytesAt_length m _ _

theorem Inside.trans {a b c : FwSpan} (h : a.Inside b) (h' : b.Inside c) : a.Inside c :=
  ⟨Nat.le_trans h'.low h.low, Nat.le_trans h.high h'.high⟩

namespace Valid

/-- The two comparisons of `fw_span_sub_safe` together. -/
theorem sub_iff (h : span.Valid T) (offset length : Nat) :
    (offset > span.length ∨ length > T.sizeSub span.length offset) ↔
      ¬ offset + length ≤ span.length := by
  have hfits := h.fits
  by_cases hoffset : offset ≤ span.length
  · rw [T.sizeSub_of_le hoffset (by omega)]
    omega
  · omega

/-- A part of a span. -/
theorem part (h : span.Valid T) (hfits : offset + length ≤ span.length) :
    Valid T ⟨span.data + offset, length⟩ ∧ Inside ⟨span.data + offset, length⟩ span := by
  have hend := h.fits
  refine ⟨⟨fun hnull => ?_, ?_⟩, ⟨Nat.le_add_right _ _, ?_⟩⟩
  · have hlength := h.null (Nat.eq_zero_of_add_eq_zero_right hnull)
    dsimp only
    omega
  · dsimp only
    omega
  · dsimp only
    omega

theorem subSafe_eq (h : span.Valid T) (offset length : Nat) :
    fwSpanSubSafe T span offset length =
      if offset + length ≤ span.length then (.ok, ⟨span.data + offset, length⟩)
      else (.errBufferOverflow, ⟨fwNull, 0⟩) := by
  rw [fwSpanSubSafe, if_congr (h.sub_iff offset length) rfl rfl, ite_not]
  rfl

theorem sub_eq (h : span.Valid T) (assert : Bool) (offset length : Nat) :
    fwSpanSub T assert span offset length =
      if assert ∧ ¬ offset + length ≤ span.length then none
      else some ⟨span.data + offset, length⟩ := by
  have hiff := h.sub_iff offset length
  rw [fwSpanSub]
  cases assert with
  | false => rw [if_neg (by simp), if_neg (by simp), if_neg (by simp)]
  | true =>
      by_cases hoffset : offset ≤ span.length
      · rw [if_neg (fun hbad => hbad.2 hoffset)]
        by_cases hlength : length ≤ T.sizeSub span.length offset
        · rw [if_neg (fun hbad => hbad.2 hlength), if_neg]
          rintro ⟨-, hfits⟩
          rcases hiff.mpr hfits with hbad | hbad <;> omega
        · rw [if_pos ⟨rfl, hlength⟩, if_pos ⟨rfl, hiff.mp (Or.inr (Nat.lt_of_not_le hlength))⟩]
      · rw [if_pos ⟨rfl, hoffset⟩, if_pos ⟨rfl, hiff.mp (Or.inl (Nat.lt_of_not_le hoffset))⟩]

/-- The spans of a chain are slices of the first one, and the first error ends the chain. -/
theorem narrow_eq (h : span.Valid T) (chain : List (Nat × Nat)) (m : ByteMemory) :
    match slices (span.bytes m) chain with
    | some xs => narrow T span chain = (.ok, ⟨span.data + shift chain, xs.length⟩) ∧
        Inside ⟨span.data + shift chain, xs.length⟩ span ∧
        ∀ assert, narrowAsserted T assert span chain = some ⟨span.data + shift chain, xs.length⟩
    | none => narrow T span chain = (.errBufferOverflow, ⟨fwNull, 0⟩) ∧
        narrowAsserted T true span chain = none := by
  induction chain generalizing span with
  | nil =>
      rw [slices, narrow]
      dsimp only
      rw [bytes_length, shift, List.map_nil, List.sum_nil, Nat.add_zero]
      exact ⟨rfl, ⟨Nat.le_refl _, Nat.le_refl _⟩, fun _ => rfl⟩
  | cons link rest ih =>
      obtain ⟨offset, length⟩ := link
      rw [slices, bytes, ByteMemory.slice_bytesAt, narrow, h.subSafe_eq, narrowAsserted,
        h.sub_eq]
      by_cases hfits : offset + length ≤ span.length
      · obtain ⟨hvalid, hinside⟩ := h.part hfits
        have hrest := ih hvalid
        rw [if_pos hfits, if_pos hfits, Option.bind_some, if_neg (fun hbad => hbad.2 hfits),
          Option.bind_some, shift_cons, ← Nat.add_assoc]
        rw [bytes] at hrest
        dsimp only at hrest ⊢
        split at hrest
        · next xs hslices =>
            refine ⟨hrest.1, hrest.2.1.trans hinside, fun assert => ?_⟩
            rw [narrowAsserted, h.sub_eq, if_neg (fun hbad => hbad.2 hfits), Option.bind_some]
            exact hrest.2.2 assert
        · exact hrest
      · rw [if_neg hfits, if_neg hfits, Option.bind_none, if_pos ⟨rfl, hfits⟩, Option.bind_none]
        exact ⟨rfl, rfl⟩

/-- A copy into a part of a span replaces a slice of its bytes. -/
theorem copy_part (h : span.Valid T) (hsrc : src.Valid T) (hfits : offset + length ≤ span.length)
    (m : ByteMemory) :
    (fwSpanCopy m ⟨span.data + offset, length⟩ src).1 = min length src.length ∧
      span.bytes (fwSpanCopy m ⟨span.data + offset, length⟩ src).2 =
        splice (span.bytes m) offset ((src.bytes m).take length) ∧
      ∀ x, x < span.data + offset ∨ span.data + offset + length ≤ x →
        (fwSpanCopy m ⟨span.data + offset, length⟩ src).2 x = m x := by
  have hnothing : splice (span.bytes m) offset [] = span.bytes m := by
    rw [splice, List.length_nil, Nat.add_zero, List.nil_append, List.take_append_drop]
  have htake : (src.bytes m).take length = Memory.bytesAt m src.data (min length src.length) :=
    Memory.bytesAt_take m _ _ _
  have hmin : (if length < src.length then length else src.length) = min length src.length := by
    split <;> omega
  rw [fwSpanCopy, htake]
  dsimp only
  rw [hmin]
  split
  · next hnull =>
      have hzero : min length src.length = 0 := by
        rcases hnull with hnull | hnull
        · have hlength := h.null (Nat.eq_zero_of_add_eq_zero_right hnull)
          omega
        · have hlength := hsrc.null hnull
          omega
      rw [hzero, Memory.bytesAt_zero, hnothing]
      exact ⟨rfl, rfl, fun _ _ => rfl⟩
  · split
    · refine ⟨rfl, ?_, fun x hx => ByteMemory.copy_outside (by omega)⟩
      rw [bytes, ByteMemory.bytesAt_splice m offset (min length src.length) (by omega)
        fun x hx => ByteMemory.copy_outside hx, ByteMemory.bytesAt_copy]
      rfl
    · next hzero =>
        rw [Nat.eq_zero_of_not_pos hzero, Memory.bytesAt_zero, hnothing]
        exact ⟨rfl, rfl, fun _ _ => rfl⟩

/-- A part of a span that is filled. -/
theorem fill_part (h : span.Valid T) (hfits : offset + length ≤ span.length) (m : ByteMemory)
    (value : UInt8) :
    span.bytes (fwSpanFill m ⟨span.data + offset, length⟩ value) =
        splice (span.bytes m) offset (List.replicate length value) ∧
      ∀ x, x < span.data + offset ∨ span.data + offset + length ≤ x →
        fwSpanFill m ⟨span.data + offset, length⟩ value x = m x := by
  rw [fwSpanFill]
  split
  · refine ⟨?_, fun x hx => ByteMemory.fill_outside hx⟩
    rw [bytes, ByteMemory.bytesAt_splice m offset length hfits
      fun x hx => ByteMemory.fill_outside hx, ByteMemory.bytesAt_fill]
    rfl
  · next hnot =>
      have hzero : length = 0 := by
        by_contra hne
        refine hnot ⟨fun hnull => hne ?_, Nat.pos_of_ne_zero hne⟩
        have hlength := h.null (Nat.eq_zero_of_add_eq_zero_right hnull)
        omega
      rw [hzero, splice, List.replicate_zero, List.length_nil, Nat.add_zero, List.nil_append,
        List.take_append_drop]
      exact ⟨rfl, fun _ _ => rfl⟩

end Valid

/-- A span that a chain of narrowings has led to, seen from the first span. -/
structure Narrowed (T : Target) (root sub : FwSpan) (chain : List (Nat × Nat))
    (m : ByteMemory) : Prop where
  bytes : slices (root.bytes m) chain = some (sub.bytes m)
  inside : sub.Inside root
  asserted : ∀ assert, root.narrowAsserted T assert chain = some sub
  copied : ∀ src : FwSpan, src.Valid T → src.Apart sub →
    (fwSpanCopy m sub src).1 = min sub.length src.length ∧
    root.bytes (fwSpanCopy m sub src).2 =
      splice (root.bytes m) (shift chain) ((src.bytes m).take sub.length)
  filled : ∀ value, root.bytes (fwSpanFill m sub value) =
    splice (root.bytes m) (shift chain) (List.replicate sub.length value)
  frame : ∀ x, x < sub.data ∨ sub.data + sub.length ≤ x →
    (∀ src : FwSpan, src.Valid T → src.Apart sub → (fwSpanCopy m sub src).2 x = m x) ∧
    ∀ value, fwSpanFill m sub value x = m x

/-- A chain of `fw_span_sub_safe` succeeds exactly where slicing the bytes of the first span
does. Its span lies in the first one and writes replace the slice; else the result is the null
span, and `fw_span_sub` with assertions does not return. -/
theorem fwSpanSubSafe_narrows {T : Target} {root : FwSpan} (h : root.Valid T)
    (chain : List (Nat × Nat)) (m : ByteMemory) :
    (∃ sub, root.narrow T chain = (.ok, sub) ∧ root.Narrowed T sub chain m) ∨
      slices (root.bytes m) chain = none ∧
      root.narrow T chain = (.errBufferOverflow, fwSpanMake fwNull 0) ∧
      root.narrowAsserted T true chain = none := by
  have hnarrow := h.narrow_eq chain m
  cases hslices : slices (root.bytes m) chain with
  | none =>
      rw [hslices] at hnarrow
      exact Or.inr ⟨rfl, hnarrow⟩
  | some xs =>
      rw [hslices] at hnarrow
      obtain ⟨hok, hinside, hasserted⟩ := hnarrow
      have hslice := slices_eq_slice hslices
      rw [bytes, ByteMemory.slice_bytesAt] at hslice
      split at hslice
      · next hfits =>
          refine Or.inl ⟨_, hok, ⟨?_, hinside, hasserted, ?_, ?_, ?_⟩⟩
          · rw [hslices, ← hslice]
            rfl
          · intro src hsrc _
            exact ⟨(h.copy_part hsrc hfits m).1, (h.copy_part hsrc hfits m).2.1⟩
          · exact fun value => (h.fill_part hfits m value).1
          · exact fun x hx => ⟨fun src hsrc _ => (h.copy_part hsrc hfits m).2.2 x hx,
              fun value => (h.fill_part hfits m value).2 x hx⟩
      · cases hslice

/-- Two narrowings of a span of eight bytes. -/
theorem fwSpanSubSafe_narrows_sample :
    Valid target32 ⟨0x1000, 8⟩ ∧
    ((∃ sub, narrow target32 ⟨0x1000, 8⟩ [(2, 5), (1, 3)] = (.ok, sub) ∧
      Narrowed target32 ⟨0x1000, 8⟩ sub [(2, 5), (1, 3)] fun _ => 0) ∨
      slices (bytes (fun _ => 0) ⟨0x1000, 8⟩) [(2, 5), (1, 3)] = none ∧
      narrow target32 ⟨0x1000, 8⟩ [(2, 5), (1, 3)] =
        (.errBufferOverflow, fwSpanMake fwNull 0) ∧
      narrowAsserted target32 true ⟨0x1000, 8⟩ [(2, 5), (1, 3)] = none) := by
  have hvalid : Valid target32 ⟨0x1000, 8⟩ := ⟨by decide, by decide⟩
  exact ⟨hvalid, fwSpanSubSafe_narrows hvalid _ _⟩

end FwSpan

end ZeroEmbedded.Memory
