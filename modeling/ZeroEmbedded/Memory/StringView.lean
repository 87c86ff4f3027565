import ZeroEmbedded.Memory.Span

/-!
# String views

`string_view.h`. A view covers some bytes of a string. A part of a view is
clipped to the view, and comparisons look at the bytes only, except that a null
view is equal to no other view.
-/

namespace ZeroEmbedded.Memory

open Foundation Foundation.Slices

/-- `fw_string_view_t`. -/
structure FwStringView where
  data : Nat
  length : Nat
  deriving DecidableEq, Repr

/-- `fw_sv_make`. -/
def fwSvMake (data length : Nat) : FwStringView := { data := data, length := length }

/-- `strlen`, of a string that has an end. -/
def strlen (m : ByteMemory) (cstr : Nat) (terminated : ∃ n, m (cstr + n) = 0) : Nat :=
  Nat.find terminated

/-- `fw_sv_from_cstr`. -/
def fwSvFromCstr (m : ByteMemory) (cstr : Nat) (terminated : ∃ n, m (cstr + n) = 0) :
    FwStringView :=
  if cstr = fwNull then fwSvMake fwNull 0 else fwSvMake cstr (strlen m cstr terminated)

/-- `fw_sv_is_empty`. -/
def fwSvIsEmpty (sv : FwStringView) : Bool := sv.data = fwNull || sv.length = 0

/-- `memcmp` finds no difference. -/
def memcmpEqual (m : ByteMemory) (a b n : Nat) : Bool :=
  decide (Memory.bytesAt m a n = Memory.bytesAt m b n)

/-- `fw_sv_equals`. -/
def fwSvEquals (m : ByteMemory) (a b : FwStringView) : Bool :=
  if a.length ≠ b.length then false
  else if a.data = b.data then true
  else if a.data = fwNull ∨ b.data = fwNull then false
  else memcmpEqual m a.data b.data a.length

/-- `fw_sv_starts_with`. -/
def fwSvStartsWith (m : ByteMemory) (sv start : FwStringView) : Bool :=
  if start.length = 0 then true
  else if sv.length < start.length then false
  else if sv.data = fwNull ∨ start.data = fwNull then false
  else memcmpEqual m sv.data start.data start.length

/-- `fw_sv_sub`. -/
def fwSvSub (T : Target) (sv : FwStringView) (offset length : Nat) : FwStringView :=
  if sv.data = fwNull ∨ offset ≥ sv.length then fwSvMake fwNull 0
  else
    let available := T.sizeSub sv.length offset
    let subLen := if length < available then length else available
    fwSvMake (sv.data + offset) subLen

namespace FwStringView

/-- A view that is null and empty or inside of the address space. -/
structure Valid (T : Target) (sv : FwStringView) : Prop where
  null : sv.data = fwNull → sv.length = 0
  fits : sv.data + sv.length < T.sizeMod

/-- The bytes of a view. -/
def text (m : ByteMemory) (sv : FwStringView) : List UInt8 := Memory.bytesAt m sv.data sv.length

/-- Views taken one from the other. -/
def parts (T : Target) (sv : FwStringView) (chain : List (Nat × Nat)) : FwStringView :=
  chain.foldl (fun view link => fwSvSub T view link.1 link.2) sv

/-- Parts of a text taken one from the other, each clipped to the text before it. -/
def clip (text : List UInt8) (chain : List (Nat × Nat)) : List UInt8 :=
  chain.foldl (fun l link => (l.drop link.1).take link.2) text

variable {T : Target} {sv start other view : FwStringView} {m : ByteMemory}
  {offset length : Nat}

@[simp] theorem text_length (m : ByteMemory) (sv : FwStringView) :
    (sv.text m).length = sv.length := Memory.bytesAt_length m _ _

/-- The view of a string ends where the string does. -/
theorem fromCstr_text {cstr : Nat} (terminated : ∃ n, m (cstr + n) = 0) (hcstr : cstr ≠ fwNull) :
    m (cstr + (fwSvFromCstr m cstr terminated).length) = 0 ∧
      0 ∉ (fwSvFromCstr m cstr terminated).text m := by
  rw [fwSvFromCstr, if_neg hcstr]
  refine ⟨Nat.find_spec terminated, fun hmem => ?_⟩
  rw [text, Memory.bytesAt, List.mem_map] at hmem
  obtain ⟨i, hi, hzero⟩ := hmem
  exact Nat.find_min terminated (List.mem_range.mp hi) hzero

/-- Views are equal when their texts are and both or none of them is null. -/
theorem equals_iff (m : ByteMemory) (sv other : FwStringView) :
    fwSvEquals m sv other = true ↔
      sv.text m = other.text m ∧ (sv.data = fwNull ↔ other.data = fwNull) := by
  have hlength : sv.text m = other.text m → sv.length = other.length := by
    intro htext
    rw [← text_length m sv, htext, text_length]
  rw [fwSvEquals]
  split
  · next hne => exact ⟨fun hfalse => Bool.noConfusion hfalse, fun htext =>
      absurd (hlength htext.1) hne⟩
  · next heq =>
      have heq := not_not.mp heq
      split
      · next hdata =>
          refine ⟨fun _ => ⟨?_, by rw [hdata]⟩, fun _ => rfl⟩
          rw [text, text, hdata, heq]
      · next hdata =>
          split
          · next hnull =>
              refine ⟨fun hfalse => Bool.noConfusion hfalse, fun htext => absurd ?_ hdata⟩
              rcases hnull with hnull | hnull
              · rw [hnull, htext.2.mp hnull]
              · rw [hnull, htext.2.mpr hnull]
          · next hnull =>
              obtain ⟨hsv, hother⟩ := not_or.mp hnull
              rw [memcmpEqual, decide_eq_true_iff, heq, text, text, heq]
              exact ⟨fun htext => ⟨htext, iff_of_false hsv hother⟩, fun htext => htext.1⟩

/-- The null view has no other parts. -/
theorem null_parts (T : Target) (chain : List (Nat × Nat)) :
    (fwSvMake fwNull 0).parts T chain = fwSvMake fwNull 0 := by
  induction chain with
  | nil => rfl
  | cons link rest ih =>
      have hsub : fwSvSub T (fwSvMake fwNull 0) link.1 link.2 = fwSvMake fwNull 0 :=
        if_pos (Or.inl rfl)
      rw [parts, List.foldl_cons, hsub, ← parts, ih]

namespace Valid

/-- A part of a view is the null view or lies inside of it, and has the clipped text. -/
theorem sub_spec (h : sv.Valid T) (offset length : Nat) (m : ByteMemory) :
    (fwSvSub T sv offset length).Valid T ∧
      (fwSvSub T sv offset length).text m = ((sv.text m).drop offset).take length ∧
      (fwSvSub T sv offset length = fwSvMake fwNull 0 ∨
        sv.data ≤ (fwSvSub T sv offset length).data ∧
        (fwSvSub T sv offset length).data + (fwSvSub T sv offset length).length ≤
          sv.data + sv.length) := by
  have hfits := h.fits
  have htext : ((sv.text m).drop offset).take length =
      Memory.bytesAt m (sv.data + offset) (min length (sv.length - offset)) := by
    rw [text, Memory.bytesAt_drop, Memory.bytesAt_take]
  rw [htext, fwSvSub]
  split
  · next hout =>
      have hempty : sv.length - offset = 0 := by
        rcases hout with hnull | hout
        · rw [h.null hnull, Nat.zero_sub]
        · omega
      rw [hempty, Nat.min_zero, Memory.bytesAt_zero]
      refine ⟨⟨fun _ => rfl, ?_⟩, rfl, Or.inl rfl⟩
      change 0 < T.sizeMod
      omega
  · next hin =>
      obtain ⟨hdata, hoffset⟩ := not_or.mp hin
      have hmin : (if length < T.sizeSub sv.length offset then length
          else T.sizeSub sv.length offset) = min length (sv.length - offset) := by
        rw [T.sizeSub_of_le (by omega) (by omega)]
        split <;> omega
      dsimp only
      rw [hmin]
      refine ⟨⟨fun hnull => absurd (Nat.eq_zero_of_add_eq_zero_right hnull) hdata, ?_⟩, rfl,
        Or.inr ⟨Nat.le_add_right _ _, ?_⟩⟩
      · change sv.data + offset + min length (sv.length - offset) < T.sizeMod
        omega
      · change sv.data + offset + min length (sv.length - offset) ≤ sv.data + sv.length
        omega

theorem startsWith_iff (h : sv.Valid T) (hstart : start.Valid T) (m : ByteMemory) :
    fwSvStartsWith m sv start = true ↔ start.text m <+: sv.text m := by
  rw [fwSvStartsWith]
  split
  · next hzero =>
      rw [text, hzero, Memory.bytesAt_zero]
      exact ⟨fun _ => List.nil_prefix, fun _ => rfl⟩
  · next hzero =>
      split
      · next hshort =>
          refine ⟨fun hfalse => Bool.noConfusion hfalse, fun hprefix => ?_⟩
          have hle := hprefix.length_le
          rw [text_length, text_length] at hle
          omega
      · next hlong =>
          have hsv : sv.data ≠ fwNull := fun hnull => by
            have hempty := h.null hnull
            omega
          rw [if_neg (not_or.mpr ⟨hsv, fun hnull => hzero (hstart.null hnull)⟩), memcmpEqual,
            decide_eq_true_iff, List.prefix_iff_eq_take, text_length, text, text,
            Memory.bytesAt_take, Nat.min_eq_left (Nat.le_of_not_lt hlong)]
          exact eq_comm

/-- Parts of a view have the clipped text of the view, and are null or inside of it. -/
theorem parts_spec (h : sv.Valid T) (chain : List (Nat × Nat)) (m : ByteMemory) :
    (sv.parts T chain).Valid T ∧ (sv.parts T chain).text m = clip (sv.text m) chain ∧
      (sv.parts T chain = fwSvMake fwNull 0 ∨
        sv.data ≤ (sv.parts T chain).data ∧
        (sv.parts T chain).data + (sv.parts T chain).length ≤ sv.data + sv.length) := by
  induction chain generalizing sv with
  | nil => exact ⟨h, rfl, Or.inr ⟨Nat.le_refl _, Nat.le_refl _⟩⟩
  | cons link rest ih =>
      obtain ⟨hvalid, htext, hinside⟩ := h.sub_spec link.1 link.2 m
      obtain ⟨hparts, hclip, hrest⟩ := ih hvalid
      refine ⟨hparts, ?_, ?_⟩
      · rw [clip, List.foldl_cons, ← htext]
        exact hclip
      · rcases hinside with hnull | hinside
        · refine Or.inl ?_
          rw [parts, List.foldl_cons, hnull, ← parts, null_parts]
        · exact hrest.imp id fun hrest =>
            ⟨Nat.le_trans hinside.1 hrest.1, Nat.le_trans hrest.2 hinside.2⟩

end Valid

/-- What the comparisons say about a view with a known text. -/
structure Shows (T : Target) (m : ByteMemory) (view : FwStringView) (text : List UInt8) :
    Prop where
  startsWith : ∀ start : FwStringView, start.Valid T →
    (fwSvStartsWith m view start = true ↔ start.text m <+: text)
  equals : ∀ other : FwStringView, fwSvEquals m view other = true ↔
    other.text m = text ∧ (view.data = fwNull ↔ other.data = fwNull)
  isEmpty : fwSvIsEmpty view = true ↔ text = []
  agree : ∀ start : FwStringView, start.Valid T → start.length ≠ 0 →
    fwSvStartsWith m view start = fwSvEquals m (fwSvSub T view 0 start.length) start

theorem Valid.shows (h : view.Valid T) (m : ByteMemory) : view.Shows T m (view.text m) where
  startsWith start hstart := h.startsWith_iff hstart m
  equals other := by
    rw [equals_iff, eq_comm]
  isEmpty := by
    have hempty : view.text m = [] ↔ view.length = 0 := by
      rw [← List.length_eq_zero_iff, text_length]
    rw [hempty, fwSvIsEmpty, Bool.or_eq_true, decide_eq_true_iff, decide_eq_true_iff]
    exact ⟨fun hor => hor.elim h.null id, Or.inr⟩
  agree start hstart hlength := by
    obtain ⟨hsub, htext, -⟩ := h.sub_spec 0 start.length m
    rw [Bool.eq_iff_iff, h.startsWith_iff hstart, equals_iff, htext, List.drop_zero,
      List.prefix_iff_eq_take, text_length, eq_comm]
    refine ⟨fun heq => ⟨heq, iff_of_false (fun hnull => ?_) fun hnull => ?_⟩, fun heq => heq.1⟩
    · have hzero := congrArg List.length heq
      rw [← List.drop_zero (l := view.text m), ← htext, text_length, text_length] at hzero
      exact hlength (hzero.symm.trans (hsub.null hnull))
    · exact hlength (hstart.null hnull)

/-- Every view that `fw_sv_sub` leads to is null or lies inside of the first view, its text is
the clipped text of it, and the comparisons decide about this text. A null view equals no view of
an empty text that is not null. -/
theorem fwSvSub_parts {T : Target} {sv : FwStringView} (h : sv.Valid T)
    (chain : List (Nat × Nat)) (m : ByteMemory) :
    (sv.parts T chain).text m = clip (sv.text m) chain ∧
      (sv.parts T chain = fwSvMake fwNull 0 ∨
        sv.data ≤ (sv.parts T chain).data ∧
        (sv.parts T chain).data + (sv.parts T chain).length ≤ sv.data + sv.length) ∧
      (sv.parts T chain).Shows T m (clip (sv.text m) chain) := by
  obtain ⟨hvalid, htext, hinside⟩ := h.parts_spec chain m
  have hshows := hvalid.shows m
  rw [htext] at hshows
  exact ⟨htext, hinside, hshows⟩

/-- Parts of a view of five bytes. -/
theorem fwSvSub_parts_sample :
    Valid target32 ⟨0x2000, 5⟩ ∧
    (parts target32 ⟨0x2000, 5⟩ [(1, 9), (2, 1)]).text (fun x => UInt8.ofNat x) = [3] := by
  have hvalid : Valid target32 ⟨0x2000, 5⟩ := ⟨by decide, by decide⟩
  refine ⟨hvalid, ?_⟩
  rw [(fwSvSub_parts hvalid _ _).1]
  decide

end FwStringView

end ZeroEmbedded.Memory
