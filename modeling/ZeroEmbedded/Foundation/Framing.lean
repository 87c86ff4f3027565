import Mathlib

/-!
# Incremental framing

A judge looks at the start of a sequence. It finds a frame there, or sees that
no frame starts there, or needs more input. When a verdict never changes under
more input, the frames that a receiver delivers do not depend on how the
sequence was cut into chunks.
-/

namespace ZeroEmbedded.Foundation.Framing

variable {A F : Type*}

/-- The verdict on the start of a sequence; an accepted frame has a length. -/
inductive Verdict (F : Type*)
  | more
  | reject
  | accept (frame : F) (length : Nat)

/-- Verdicts are final and frames are not empty and lie inside the sequence. -/
structure Judge (A F : Type*) where
  verdict : List A → Verdict F
  verdict_nil : verdict [] = .more
  reject_append : ∀ {xs}, verdict xs = .reject → ∀ ys, verdict (xs ++ ys) = .reject
  accept_append : ∀ {xs f n}, verdict xs = .accept f n → ∀ ys, verdict (xs ++ ys) = .accept f n
  accept_pos : ∀ {xs f n}, verdict xs = .accept f n → 0 < n
  accept_le : ∀ {xs f n}, verdict xs = .accept f n → n ≤ xs.length

namespace Judge

variable (J : Judge A F)

theorem ne_nil_of_reject {xs : List A} (h : J.verdict xs = .reject) : xs ≠ [] := by
  rintro rfl
  rw [J.verdict_nil] at h
  cases h

/-- Deliver frames and skip what is not a frame until more input is needed. The second
component is the input that is not consumed. -/
def drain (xs : List A) : List F × List A :=
  match _h : J.verdict xs with
  | .more => ([], xs)
  | .reject => drain xs.tail
  | .accept f n => (f :: (drain (xs.drop n)).1, (drain (xs.drop n)).2)
termination_by xs.length
decreasing_by
  · have hpos := List.length_pos_of_ne_nil (J.ne_nil_of_reject ‹_›)
    rw [List.length_tail]
    omega
  all_goals
    have hpos := J.accept_pos ‹_›
    have hle := J.accept_le ‹_›
    rw [List.length_drop]
    omega

variable {J}

theorem drain_of_more {xs : List A} (h : J.verdict xs = .more) : J.drain xs = ([], xs) := by
  rw [drain]
  split <;> simp_all

theorem drain_of_reject {xs : List A} (h : J.verdict xs = .reject) :
    J.drain xs = J.drain xs.tail := by
  rw [drain]
  split <;> simp_all

theorem drain_of_accept {xs : List A} {f : F} {n : Nat} (h : J.verdict xs = .accept f n) :
    J.drain xs = (f :: (J.drain (xs.drop n)).1, (J.drain (xs.drop n)).2) := by
  rw [drain]
  split <;> simp_all

/-- Draining an input is draining its first part and then what that leaves with the rest. -/
theorem drain_append (xs ys : List A) :
    J.drain (xs ++ ys) =
      ((J.drain xs).1 ++ (J.drain ((J.drain xs).2 ++ ys)).1,
        (J.drain ((J.drain xs).2 ++ ys)).2) := by
  induction hlen : xs.length using Nat.strongRecOn generalizing xs with
  | ind len ih =>
      subst hlen
      cases hv : J.verdict xs with
      | more => simp [drain_of_more hv]
      | reject =>
          have hne := J.ne_nil_of_reject hv
          have hpos := List.length_pos_of_ne_nil hne
          have htail : (xs ++ ys).tail = xs.tail ++ ys := List.tail_append_of_ne_nil hne
          rw [drain_of_reject hv, drain_of_reject (J.reject_append hv ys), htail]
          exact ih _ (by rw [List.length_tail]; omega) _ rfl
      | accept f n =>
          have hpos := J.accept_pos hv
          have hle := J.accept_le hv
          have hdrop : (xs ++ ys).drop n = xs.drop n ++ ys := List.drop_append_of_le_length hle
          rw [drain_of_accept hv, drain_of_accept (J.accept_append hv ys), hdrop,
            ih _ (by rw [List.length_drop]; omega) _ rfl]
          rfl

/-- What is left over cannot be decided yet. -/
theorem drain_rest (xs : List A) : J.verdict (J.drain xs).2 = .more := by
  induction hlen : xs.length using Nat.strongRecOn generalizing xs with
  | ind len ih =>
      subst hlen
      cases hv : J.verdict xs with
      | more => rw [drain_of_more hv]; exact hv
      | reject =>
          have hpos := List.length_pos_of_ne_nil (J.ne_nil_of_reject hv)
          rw [drain_of_reject hv]
          exact ih _ (by rw [List.length_tail]; omega) _ rfl
      | accept f n =>
          have hpos := J.accept_pos hv
          have hle := J.accept_le hv
          rw [drain_of_accept hv]
          exact ih _ (by rw [List.length_drop]; omega) _ rfl

variable (J) in
/-- Receive the chunks one by one, each behind what the earlier ones left. -/
def receive : List A → List (List A) → List F × List A
  | rest, [] => ([], rest)
  | rest, chunk :: chunks =>
      let (frames, rest) := J.drain (rest ++ chunk)
      let (more, rest) := receive rest chunks
      (frames ++ more, rest)

/-- The frames that a receiver delivers do not depend on the chunks. -/
theorem receive_eq_drain {rest : List A} (hrest : J.verdict rest = .more)
    (chunks : List (List A)) : J.receive rest chunks = J.drain (rest ++ chunks.flatten) := by
  induction chunks generalizing rest with
  | nil => simp [receive, drain_of_more hrest]
  | cons chunk chunks ih =>
      rw [List.flatten_cons, ← List.append_assoc, drain_append (rest ++ chunk) chunks.flatten,
        ← ih (drain_rest (rest ++ chunk))]
      rfl

end Judge

end ZeroEmbedded.Foundation.Framing
