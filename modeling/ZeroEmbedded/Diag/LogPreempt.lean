import ZeroEmbedded.Diag.Log
import ZeroEmbedded.Foundation.ProgramLogic

/-!
# Posts that preempt posts

The superloop posts and flushes, and an interrupt may run a complete
`fw_log_post_fast` between any two accesses of the superloop. A post of the
superloop reads `s_head` when it begins and stores it when it ends. When the
interrupt publishes an entry in between, the two posts use the same slot or the
store takes the entry of the interrupt back.

## Implementation notes

A flush gets a bound on its rounds that it does not reach in the runs that
matter; a call that reaches it makes no further step.
-/

namespace ZeroEmbedded.Log

open Foundation

variable {T : Target} {capacity : Nat}

/-- A call of the superloop. -/
inductive LogOp
  | post (p : Post)
  | flush (maxEntries fuel : Nat)
  deriving DecidableEq

def LogOp.program (T : Target) (capacity : Nat) : LogOp → LogProgram LogResult
  | .post p => fwLogPostFast T capacity p
  | .flush maxEntries fuel => fwLogFlush T capacity maxEntries fuel

/-- A call under way: the accesses that it has made and the rest of its program. -/
structure Pending where
  op : LogOp
  accesses : Nat
  rest : LogProgram LogResult

/-- The queue and the call of the superloop. -/
structure LogSystem where
  log : LogState
  pending : Option Pending

/-- A step of the superloop, or a complete post in an interrupt. -/
inductive LogEvent
  | start (op : LogOp)
  | access
  | completed (op : LogOp) (result : LogResult)
  | isrPost (p : Post) (result : LogResult)
  deriving DecidableEq

/-- What happens next. -/
inductive Choice
  | start (op : LogOp)
  | exec
  | isr (p : Post)

/-- The chosen step, if it is possible. -/
def turn (T : Target) (capacity : Nat) (s : LogSystem) : Choice → Option (LogEvent × LogSystem)
  | .start op =>
      match s.pending with
      | none => some (.start op, ⟨s.log, some ⟨op, 0, op.program T capacity⟩⟩)
      | some _ => none
  | .exec =>
      match s.pending with
      | some ⟨op, n, .call c k⟩ =>
          let reply := logHandler c s.log
          match k reply.1 with
          | .ret result => some (.completed op result, ⟨reply.2, none⟩)
          | rest => some (.access, ⟨reply.2, some ⟨op, n + 1, rest⟩⟩)
      | _ => none
  | .isr p =>
      match (fwLogPostFast T capacity p).run logHandler s.log with
      | (some result, log) => some (.isrPost p result, ⟨log, s.pending⟩)
      | (none, _) => none

/-- The steps of the system. -/
def LogStep (T : Target) (capacity : Nat) (s : LogSystem) (e : LogEvent) (s' : LogSystem) : Prop :=
  ∃ c, turn T capacity s c = some (e, s')

/-- The entries of the posts that were not dropped, in the order of their completion. -/
def accepted (es : List LogEvent) : List FwLogEntry :=
  es.filterMap fun
    | .completed (.post p) .posted => some p.entry
    | .isrPost p .posted => some p.entry
    | _ => none

/-- A post of the superloop has read `s_head` and has not returned. -/
def LogSystem.InPost (s : LogSystem) : Prop :=
  ∃ p n rest, s.pending = some ⟨.post p, n + 1, rest⟩

/-- The interrupt does not post while the superloop posts, unless the queue is full. -/
def Calm (T : Target) (capacity : Nat) (s : LogSystem) (e : LogEvent) : Prop :=
  ∀ p result, e = .isrPost p result → s.InPost → T.size (s.log.head + 1) % capacity = s.log.tail

instance : (s : LogSystem) → Decidable s.InPost
  | ⟨_, none⟩ => .isFalse nofun
  | ⟨_, some ⟨.flush _ _, _, _⟩⟩ => .isFalse nofun
  | ⟨_, some ⟨.post _, 0, _⟩⟩ => .isFalse nofun
  | ⟨_, some ⟨.post p, n + 1, rest⟩⟩ => .isTrue ⟨p, n, rest, rfl⟩

instance (T : Target) (capacity : Nat) (s : LogSystem) :
    (e : LogEvent) → Decidable (Calm T capacity s e)
  | .start _ | .access | .completed _ _ => .isTrue nofun
  | .isrPost p result =>
      decidable_of_iff (s.InPost → T.size (s.log.head + 1) % capacity = s.log.tail)
        ⟨fun h _ _ _ => h, fun h => h p result rfl⟩

/-- The chosen step, if it is calm. -/
def calmTurn (T : Target) (capacity : Nat) (s : LogSystem) (c : Choice) :
    Option (LogEvent × LogSystem) :=
  (turn T capacity s c).filter fun step => decide (Calm T capacity s step.1)

/-- The sink has taken a part of the accepted entries, in their order, and whenever the superloop
is idle, a flush gives it all the others. -/
structure Lossless (T : Target) (capacity : Nat) (s : LogSystem) (es : List LogEvent) : Prop where
  emitted : s.log.emitted <+: accepted es
  flushes : s.pending = none → ∃ fuel result log,
    (fwLogFlush T capacity 0 fuel).run logHandler s.log = (some result, log) ∧
      log.emitted = accepted es ∧ log.head = log.tail

section Queue

/-- The queue stores these entries; one slot always stays free. -/
structure Queue (capacity : Nat) (s : LogState) (q : List FwLogEntry) : Prop where
  length_eq : s.entries.length = capacity
  tail_lt : s.tail < capacity
  head_eq : s.head = (s.tail + q.length) % capacity
  length_lt : q.length < capacity
  entry : ∀ i < q.length, s.entries[(s.tail + i) % capacity]? = q[i]?

variable {s : LogState} {q : List FwLogEntry} {p : Post} {maxEntries flushed : Nat}

theorem slot_eq {t i : Nat} (ht : t < capacity) (hi : i ≤ capacity) :
    (t + i) % capacity = if t + i < capacity then t + i else t + i - capacity := by
  split
  · next hlt => exact Nat.mod_eq_of_lt hlt
  · next hge => rw [Nat.mod_eq_sub_mod (Nat.not_lt.mp hge), Nat.mod_eq_of_lt (by omega)]

theorem Queue.head_lt (h : Queue capacity s q) : s.head < capacity := by
  rw [h.head_eq]
  exact Nat.mod_lt _ (Nat.lt_of_le_of_lt (Nat.zero_le _) h.tail_lt)

/-- The index behind the head, as `fw_log_post_fast` computes it. -/
theorem Queue.next_head (h : Queue capacity s q) (hsize : capacity < T.sizeMod) :
    T.size (s.head + 1) % capacity = (s.tail + (q.length + 1)) % capacity := by
  have hsmall : T.size (s.head + 1) = s.head + 1 := by
    have hlt := h.head_lt
    exact Nat.mod_eq_of_lt (by omega)
  rw [hsmall, h.head_eq, Nat.mod_add_mod, Nat.add_assoc]

/-- The next index is the tail exactly when all slots but one are used. -/
theorem Queue.full_iff (h : Queue capacity s q) (hsize : capacity < T.sizeMod) :
    T.size (s.head + 1) % capacity = s.tail ↔ q.length + 1 = capacity := by
  have htail := h.tail_lt
  have hlen := h.length_lt
  rw [h.next_head hsize, slot_eq htail (by omega)]
  split <;> omega

/-- The indices meet exactly when the queue is empty. -/
theorem Queue.empty_iff (h : Queue capacity s q) : s.tail = s.head ↔ q = [] := by
  have htail := h.tail_lt
  have hlen := h.length_lt
  rw [h.head_eq, slot_eq htail (by omega), ← List.length_eq_zero_iff]
  split <;> omega

/-- An entry is published behind the others. -/
theorem Queue.push {e : FwLogEntry} (h : Queue capacity s q) (hsize : capacity < T.sizeMod)
    (hroom : T.size (s.head + 1) % capacity ≠ s.tail) :
    Queue capacity { s with
      entries := s.entries.modify s.head fun _ => e
      head := T.size (s.head + 1) % capacity } (q ++ [e]) := by
  have htail := h.tail_lt
  have hlen := h.length_lt
  have hfree : q.length + 1 ≠ capacity := fun heq => hroom ((h.full_iff hsize).mpr heq)
  refine ⟨(List.length_modify _ _ _).trans h.length_eq, htail, ?_, ?_, fun i hi => ?_⟩
  · rw [List.length_append, List.length_singleton]
    exact h.next_head hsize
  · rw [List.length_append, List.length_singleton]
    omega
  · rw [List.length_append, List.length_singleton] at hi
    dsimp only
    rcases Nat.lt_succ_iff_lt_or_eq.mp hi with hold | rfl
    · have hne : s.head ≠ (s.tail + i) % capacity := by
        rw [h.head_eq, slot_eq htail (by omega), slot_eq htail (by omega)]
        split <;> split <;> omega
      rw [List.getElem?_modify_ne _ _ hne, List.getElem?_append_left hold, h.entry i hold]
    · have hhead : s.head < s.entries.length := by
        rw [h.length_eq]
        exact h.head_lt
      rw [List.getElem?_concat_length, ← h.head_eq, List.getElem?_modify_eq,
        List.getElem?_eq_getElem hhead]
      rfl

/-- The first entry is released. -/
theorem Queue.pop {e : FwLogEntry} (h : Queue capacity s (e :: q)) (hsize : capacity < T.sizeMod)
    (emitted : List FwLogEntry) :
    Queue capacity { s with tail := T.size (s.tail + 1) % capacity, emitted := emitted } q := by
  have htail := h.tail_lt
  have hlen := h.length_lt
  rw [List.length_cons] at hlen
  have hsmall : T.size (s.tail + 1) = s.tail + 1 := Nat.mod_eq_of_lt (by omega)
  have hshift : ∀ i, ((s.tail + 1) % capacity + i) % capacity = (s.tail + (i + 1)) % capacity := by
    intro i
    rw [Nat.mod_add_mod, Nat.add_assoc, Nat.add_comm 1 i]
  refine ⟨h.length_eq, Nat.mod_lt _ (by omega), ?_, by omega, fun i hi => ?_⟩
  · dsimp only
    rw [hsmall, hshift]
    exact h.head_eq
  · dsimp only
    rw [hsmall, hshift, h.entry (i + 1) (by rw [List.length_cons]; omega), List.getElem?_cons_succ]

/-- The slot at the tail stores the first entry. -/
theorem Queue.first {e : FwLogEntry} (h : Queue capacity s (e :: q)) :
    s.entries.getD s.tail default = e := by
  have hentry := h.entry 0 (Nat.succ_pos _)
  rw [Nat.add_zero, Nat.mod_eq_of_lt h.tail_lt, List.getElem?_cons_zero] at hentry
  rw [List.getD_eq_getElem?_getD, hentry, Option.getD_some]

/-- The stores of a post write its entry. -/
theorem modify_entry (p : Post) (entries : List FwLogEntry) (i : Nat) :
    ((((((entries.modify i fun e => e.set .timestampMs p.millis).modify i
      fun e => e.set .level p.level).modify i fun e => e.set .tag (p.tag.getD "SYS")).modify i
      fun e => e.set .fmt (p.fmt.getD "")).modify i fun e => e.set .arg1 p.arg1).modify i
      fun e => e.set .arg2 p.arg2) = entries.modify i fun _ => p.entry := by
  simp only [List.modify_modify_eq]
  rfl

/-- An uninterrupted post. -/
theorem fwLogPostFast_run (p : Post) :
    (fwLogPostFast T capacity p).run logHandler s =
      if T.size (s.head + 1) % capacity = s.tail then (some .dropped, s)
      else (some .posted, { s with
        entries := s.entries.modify s.head fun _ => p.entry
        head := T.size (s.head + 1) % capacity }) := by
  change Program.run logHandler (if T.size (s.head + 1) % capacity = s.tail then _ else _) s = _
  split
  · rfl
  · exact congrArg
      (fun entries =>
        (some LogResult.posted, { s with entries, head := T.size (s.head + 1) % capacity }))
      (modify_entry p s.entries s.head)

/-- The loop is a sequence of rounds. -/
theorem flushLoop_succ (fuel : Nat) :
    flushLoop T capacity maxEntries (fuel + 1) flushed =
      flushRound T capacity maxEntries flushed >>= fun
        | .done n => return .flushed n
        | .next n => flushLoop T capacity maxEntries fuel n :=
  rfl

/-- A round takes the entry at the tail, or finds that the loop is over. -/
theorem flushRound_run (s : LogState) :
    (flushRound T capacity maxEntries flushed).run logHandler s =
      if s.tail = s.head ∨ maxEntries > 0 ∧ flushed ≥ maxEntries then (some (.done flushed), s)
      else (some (.next (T.size (flushed + 1))), { s with
        emitted := s.emitted ++ [s.entries.getD s.tail default]
        tail := T.size (s.tail + 1) % capacity }) := by
  change Program.run logHandler
    (if s.tail = s.head then _ else if maxEntries > 0 ∧ flushed ≥ maxEntries then _ else _) s = _
  by_cases hempty : s.tail = s.head
  · rw [if_pos hempty, if_pos (Or.inl hempty)]
    rfl
  · rw [if_neg hempty]
    by_cases hmax : maxEntries > 0 ∧ flushed ≥ maxEntries
    · rw [if_pos hmax, if_pos (Or.inr hmax)]
      rfl
    · rw [if_neg hmax, if_neg (not_or.mpr ⟨hempty, hmax⟩)]
      rfl

/-- An uninterrupted flush gives the sink all entries. -/
theorem flushLoop_run (h : Queue capacity s q) (hsize : capacity < T.sizeMod) (flushed : Nat) :
    ∃ result log, (flushLoop T capacity 0 (q.length + 1) flushed).run logHandler s =
      (some result, log) ∧ log.emitted = s.emitted ++ q ∧ log.head = log.tail := by
  induction q generalizing s flushed with
  | nil =>
      refine ⟨.flushed flushed, s, ?_, (List.append_nil _).symm, (h.empty_iff.mpr rfl).symm⟩
      rw [flushLoop_succ, Program.run_bind, flushRound_run,
        if_pos (Or.inl (h.empty_iff.mpr rfl))]
      rfl
  | cons e q ih =>
      have hne : s.tail ≠ s.head := fun heq => List.cons_ne_nil e q (h.empty_iff.mp heq)
      have hgoes : ¬ (s.tail = s.head ∨ 0 > 0 ∧ flushed ≥ 0) :=
        not_or.mpr ⟨hne, fun hmax => Nat.lt_irrefl 0 hmax.1⟩
      obtain ⟨result, log, hrun, hemitted, hempty⟩ :=
        ih (h.pop hsize (s.emitted ++ [e])) (T.size (flushed + 1))
      refine ⟨result, log, ?_, hemitted.trans (List.append_cons _ _ _).symm, hempty⟩
      rw [List.length_cons, flushLoop_succ, Program.run_bind, flushRound_run, if_neg hgoes,
        h.first]
      exact hrun

end Queue

section Interrupts

variable {s s' : LogState} {acc acc' : List FwLogEntry} {op : LogOp}

/-- The accepted entries are those that the sink has taken and, behind them, those of the queue. -/
def Settled (capacity : Nat) (s : LogState) (acc : List FwLogEntry) : Prop :=
  ∃ q, Queue capacity s q ∧ acc = s.emitted ++ q

/-- Posts have been accepted. -/
structure Grows (capacity : Nat) (s : LogState) (acc : List FwLogEntry) (s' : LogState)
    (acc' : List FwLogEntry) : Prop where
  tail_eq : s'.tail = s.tail
  emitted_eq : s'.emitted = s.emitted
  queue : ∃ more, acc' = acc ++ more ∧ ∀ q, Queue capacity s q → Queue capacity s' (q ++ more)

theorem Grows.refl (s : LogState) (acc : List FwLogEntry) : Grows capacity s acc s acc :=
  ⟨rfl, rfl, [], (List.append_nil acc).symm, fun q hq => (List.append_nil q).symm ▸ hq⟩

theorem Grows.trans {s'' : LogState} {acc'' : List FwLogEntry}
    (h : Grows capacity s acc s' acc') (h' : Grows capacity s' acc' s'' acc'') :
    Grows capacity s acc s'' acc'' := by
  obtain ⟨more, hacc, hqueue⟩ := h.queue
  obtain ⟨more', hacc', hqueue'⟩ := h'.queue
  refine ⟨h'.tail_eq.trans h.tail_eq, h'.emitted_eq.trans h.emitted_eq, more ++ more', ?_, ?_⟩
  · rw [hacc', hacc, List.append_assoc]
  · intro q hq
    rw [← List.append_assoc]
    exact hqueue' _ (hqueue q hq)

/-- A complete post of an interrupt is dropped or makes the queue grow. -/
theorem grows_of_isrPost (acc : List FwLogEntry) (hsize : capacity < T.sizeMod) {p : Post}
    {result : LogResult}
    (hrun : (fwLogPostFast T capacity p).run logHandler s = (some result, s')) :
    Grows capacity s acc s' (acc ++ accepted [.isrPost p result]) := by
  rw [fwLogPostFast_run] at hrun
  split at hrun
  · cases hrun
    exact (List.append_nil acc).symm ▸ Grows.refl s acc
  · next hroom =>
      cases hrun
      exact ⟨rfl, rfl, [p.entry], rfl, fun q hq => hq.push hsize hroom⟩

/-- An interrupt that finds the queue full changes nothing. -/
theorem eq_of_isrPost_full {p : Post} {result : LogResult}
    (hfull : T.size (s.head + 1) % capacity = s.tail)
    (hrun : (fwLogPostFast T capacity p).run logHandler s = (some result, s')) :
    s' = s ∧ accepted [.isrPost p result] = [] := by
  rw [fwLogPostFast_run, if_pos hfull] at hrun
  cases hrun
  exact ⟨rfl, rfl⟩

/-- A property that interrupts keep as long as the superloop does not post. -/
structure Steady (capacity : Nat) (P : LogState → List FwLogEntry → Prop) : Prop where
  grows : ∀ s acc s' acc', P s acc → Grows capacity s acc s' acc' → P s' acc'
  emitted : ∀ s acc, P s acc → s.emitted <+: acc

theorem settled_steady : Steady capacity (Settled capacity) where
  grows := by
    intro s acc s' acc' ⟨q, hq, hacc⟩ h
    obtain ⟨more, hacc', hqueue⟩ := h.queue
    refine ⟨q ++ more, hqueue q hq, ?_⟩
    rw [hacc', hacc, h.emitted_eq, List.append_assoc]
  emitted := fun _ _ ⟨q, _, hacc⟩ => ⟨q, hacc.symm⟩

/-- Settled with this tail. -/
def SettledAt (capacity t : Nat) (s : LogState) (acc : List FwLogEntry) : Prop :=
  Settled capacity s acc ∧ s.tail = t

theorem settledAt_steady {t : Nat} : Steady capacity (SettledAt capacity t) where
  grows := fun _ _ _ _ hs h =>
    ⟨settled_steady.grows _ _ _ _ hs.1 h, h.tail_eq.trans hs.2⟩
  emitted := fun _ _ hs => settled_steady.emitted _ _ hs.1

/-- The sink has not taken the first entry, which is at this tail. -/
def First (capacity : Nat) (e : FwLogEntry) (t : Nat) (s : LogState) (acc : List FwLogEntry) :
    Prop :=
  ∃ q, Queue capacity s (e :: q) ∧ acc = s.emitted ++ e :: q ∧ s.tail = t

theorem first_steady {e : FwLogEntry} {t : Nat} : Steady capacity (First capacity e t) where
  grows := by
    intro s acc s' acc' ⟨q, hq, hacc, htail⟩ h
    obtain ⟨more, hacc', hqueue⟩ := h.queue
    refine ⟨q ++ more, hqueue _ hq, ?_, h.tail_eq.trans htail⟩
    rw [hacc', hacc, h.emitted_eq, List.append_assoc, List.cons_append]
  emitted := fun _ _ ⟨q, _, hacc, _⟩ => ⟨e :: q, hacc.symm⟩

/-- The sink has taken the first entry, which is still at this tail. -/
def Taken (capacity : Nat) (e : FwLogEntry) (t : Nat) (s : LogState) (acc : List FwLogEntry) :
    Prop :=
  ∃ q, Queue capacity s (e :: q) ∧ acc = s.emitted ++ q ∧ s.tail = t

theorem taken_steady {e : FwLogEntry} {t : Nat} : Steady capacity (Taken capacity e t) where
  grows := by
    intro s acc s' acc' ⟨q, hq, hacc, htail⟩ h
    obtain ⟨more, hacc', hqueue⟩ := h.queue
    refine ⟨q ++ more, hqueue _ hq, ?_, h.tail_eq.trans htail⟩
    rw [hacc', hacc, h.emitted_eq, List.append_assoc]
  emitted := fun _ _ ⟨q, _, hacc, _⟩ => ⟨q, hacc.symm⟩

/-- What the interrupts may have done since the last access of a call: nothing inside of a post,
else they may have posted. -/
def Interrupted (capacity : Nat) (op : LogOp) (n : Nat) (s : LogState) (acc : List FwLogEntry)
    (s' : LogState) (acc' : List FwLogEntry) : Prop :=
  match op, n with
  | .post _, _ + 1 => s' = s ∧ acc' = acc
  | _, _ => Grows capacity s acc s' acc'

/-- The rest of a call loses no accepted entry under these interrupts. -/
def Conforms (capacity : Nat) (op : LogOp) :
    Nat → LogProgram LogResult → LogState → List FwLogEntry → Prop
  | _, .ret result, s, acc => Settled capacity s (acc ++ accepted [.completed op result])
  | _, .stuck, s, acc => s.emitted <+: acc
  | n, .call c k, s, acc => s.emitted <+: acc ∧
      ∀ s' acc', Interrupted capacity op n s acc s' acc' →
        Conforms capacity op (n + 1) (k (logHandler c s').1) (logHandler c s').2 acc'

theorem Interrupted.refl {n : Nat} : Interrupted capacity op n s acc s acc := by
  cases op with
  | post p =>
      cases n with
      | zero => exact Grows.refl s acc
      | succ n => exact ⟨rfl, rfl⟩
  | flush maxEntries fuel => exact Grows.refl s acc

theorem Interrupted.trans {n : Nat} {s'' : LogState} {acc'' : List FwLogEntry}
    (h : Interrupted capacity op n s acc s' acc')
    (h' : Interrupted capacity op n s' acc' s'' acc'') :
    Interrupted capacity op n s acc s'' acc'' := by
  cases op with
  | post p =>
      cases n with
      | zero => exact Grows.trans h h'
      | succ n => exact ⟨h'.1.trans h.1, h'.2.trans h.2⟩
  | flush maxEntries fuel => exact Grows.trans h h'

/-- Interrupts take nothing from the sink and nothing from the accepted entries. -/
theorem Interrupted.emitted {n : Nat} (h : Interrupted capacity op n s acc s' acc')
    (hs : s.emitted <+: acc) : s'.emitted <+: acc' := by
  have grown : Grows capacity s acc s' acc' → s'.emitted <+: acc' := by
    intro hg
    obtain ⟨more, hacc, _⟩ := hg.queue
    rw [hg.emitted_eq, hacc]
    exact hs.trans (List.prefix_append acc more)
  cases op with
  | post p =>
      cases n with
      | zero => exact grown h
      | succ n => exact h.1.symm ▸ h.2.symm ▸ hs
  | flush maxEntries fuel => exact grown h

/-- A call that conforms goes on to do so after an interrupt. -/
theorem Conforms.interrupt {n : Nat} {rest : LogProgram LogResult}
    (h : Conforms capacity op n rest s acc) (hrest : ∀ result, rest ≠ .ret result)
    (hi : Interrupted capacity op n s acc s' acc') : Conforms capacity op n rest s' acc' := by
  cases rest with
  | ret result => exact absurd rfl (hrest result)
  | call c k => exact ⟨hi.emitted h.1, fun s'' acc'' hi' => h.2 s'' acc'' (hi.trans hi')⟩
  | stuck => exact hi.emitted h

theorem Conforms.emitted {n : Nat} {rest : LogProgram LogResult}
    (h : Conforms capacity op n rest s acc) (hrest : ∀ result, rest ≠ .ret result) :
    s.emitted <+: acc := by
  cases rest with
  | ret result => exact absurd rfl (hrest result)
  | call c k => exact h.1
  | stuck => exact h

end Interrupts

section Post

variable {s : LogState} {acc : List FwLogEntry}

/-- An access of a post. -/
def NotSink (c : LogCall) : Prop := ∀ line, c ≠ .sink line

theorem logHandler_emitted {c : LogCall} (hc : NotSink c) (s : LogState) :
    (logHandler c s).2.emitted = s.emitted := by
  cases c with
  | sink line => exact absurd rfl (hc line)
  | _ => rfl

/-- Without interrupts, a post only has to come to a good end. -/
theorem conforms_of_ensures {p : Post} {n : Nat} {rest : LogProgram LogResult}
    (h : rest.Ensures logHandler (fun _ _ => True) NotSink
      (fun result t => Settled capacity t (acc ++ accepted [.completed (.post p) result])) s)
    (hs : s.emitted <+: acc) : Conforms capacity (.post p) (n + 1) rest s acc := by
  induction rest generalizing s n with
  | ret result => exact h
  | call c k ih =>
      refine ⟨hs, ?_⟩
      rintro _ _ ⟨rfl, rfl⟩
      obtain ⟨hc, hrest⟩ := h
      exact ih _ (hrest trivial) ((logHandler_emitted hc _).symm ▸ hs)
  | stuck => exact h.elim

/-- A post of the superloop loses nothing when no interrupt posts after its first access. -/
theorem fwLogPostFast_conforms (hsize : capacity < T.sizeMod) (p : Post)
    (h : Settled capacity s acc) :
    Conforms capacity (.post p) 0 (fwLogPostFast T capacity p) s acc := by
  refine ⟨settled_steady.emitted _ _ h, fun s acc' hi => ?_⟩
  replace h : Settled capacity s acc' := settled_steady.grows _ _ _ _ h hi
  refine conforms_of_ensures ⟨nofun, fun _ => ?_⟩ (settled_steady.emitted _ _ h)
  obtain ⟨q, hq, hacc⟩ := h
  change Program.Ensures _ _ _ _ (if T.size (s.head + 1) % capacity = s.tail then _ else _) s
  split
  · exact ⟨q, hq, (List.append_nil acc').trans hacc⟩
  · next hroom =>
      refine ⟨nofun, fun _ => ⟨nofun, fun _ => ⟨nofun, fun _ => ⟨nofun, fun _ => ⟨nofun, fun _ =>
        ⟨nofun, fun _ => ⟨nofun, fun _ => ⟨nofun, fun _ => ?_⟩⟩⟩⟩⟩⟩⟩⟩
      refine ⟨q ++ [p.entry], ?_, ?_⟩
      · have hpush := hq.push (e := p.entry) hsize hroom
        rw [← modify_entry] at hpush
        exact hpush
      · rw [hacc, List.append_assoc]
        rfl

end Post

section Flush

variable {s : LogState} {acc : List FwLogEntry} {maxEntries fuel n : Nat}

/-- An access of a flush, from a property that interrupts keep. -/
theorem Steady.conforms {P : LogState → List FwLogEntry → Prop} (hP : Steady capacity P)
    (h : P s acc) {c : LogCall} {k : c.Reply → LogProgram LogResult}
    (hk : ∀ s acc, P s acc →
      Conforms capacity (.flush maxEntries fuel) (n + 1) (k (logHandler c s).1)
        (logHandler c s).2 acc) :
    Conforms capacity (.flush maxEntries fuel) n (.call c k) s acc :=
  ⟨hP.emitted _ _ h, fun _ _ hi => hk _ _ (hP.grows _ _ _ _ h hi)⟩

/-- A flush reads the fields of the first entry. -/
theorem First.load {e : FwLogEntry} {t : Nat} (h : First capacity e t s acc) {field : LogField}
    {k : field.type → LogProgram LogResult}
    (hk : ∀ s acc, First capacity e t s acc →
      Conforms capacity (.flush maxEntries fuel) (n + 1) (k (e.get field)) s acc) :
    Conforms capacity (.flush maxEntries fuel) n (.call (.load t field) k) s acc := by
  refine first_steady.conforms h fun s acc h => ?_
  have hload : s.entries.getD t default = e := by
    obtain ⟨q, hq, _, rfl⟩ := h
    exact hq.first
  change Conforms _ _ _ (k ((s.entries.getD t default).get field)) s acc
  rw [hload]
  exact hk s acc h

/-- A flush loses nothing, whatever the interrupts post. -/
theorem flushLoop_conforms (hsize : capacity < T.sizeMod) (rounds flushed : Nat)
    (h : Settled capacity s acc) :
    Conforms capacity (.flush maxEntries fuel) n
      (flushLoop T capacity maxEntries rounds flushed) s acc := by
  induction rounds generalizing s acc n flushed with
  | zero => exact settled_steady.emitted _ _ h
  | succ rounds ih =>
      refine settled_steady.conforms h fun s acc h => ?_
      refine settledAt_steady.conforms (P := SettledAt capacity s.tail) ⟨h, rfl⟩ fun s' acc h => ?_
      obtain ⟨⟨q, hq, hacc⟩, htail⟩ := h
      change Conforms _ _ _ (Program.bind (if s.tail = s'.head then _ else
        if maxEntries > 0 ∧ flushed ≥ maxEntries then _ else _) _) s' acc
      rw [← htail]
      split
      · exact ⟨q, hq, (List.append_nil acc).trans hacc⟩
      · next hne =>
          split
          · exact ⟨q, hq, (List.append_nil acc).trans hacc⟩
          · cases q with
            | nil => exact absurd (hq.empty_iff.mpr rfl) hne
            | cons e q =>
                have hfirst : First capacity e s'.tail s' acc := ⟨q, hq, hacc, rfl⟩
                generalize s'.tail = t at hfirst
                refine first_steady.conforms hfirst fun s acc h => ?_
                have htail : (logHandler .loadTail s).1 = t := h.choose_spec.2.2
                rw [htail]
                refine h.load fun s acc h => h.load fun s acc h => h.load fun s acc h =>
                  h.load fun s acc h => h.load fun s acc h => h.load fun s acc h => ?_
                refine first_steady.conforms h fun s acc h => ?_
                obtain ⟨q, hq, hacc, htail⟩ := h
                -- the sink takes the entry, its slot is released later
                have htaken : Taken capacity e t { s with emitted := s.emitted ++ [e] } acc :=
                  ⟨q, ⟨hq.length_eq, hq.tail_lt, hq.head_eq, hq.length_lt, hq.entry⟩,
                    hacc.trans (List.append_cons _ _ _), htail⟩
                refine taken_steady.conforms htaken fun s acc h => ?_
                have htail : (logHandler .loadTail s).1 = t := h.choose_spec.2.2
                rw [htail]
                refine taken_steady.conforms h fun s acc h => ih _ ?_
                obtain ⟨q, hq, hacc, rfl⟩ := h
                exact ⟨q, hq.pop hsize s.emitted, hacc⟩

end Flush

section Runs

/-- The first access of a call is still to come. -/
theorem program_ne_ret (op : LogOp) (result : LogResult) :
    op.program T capacity ≠ .ret result := by
  cases op with
  | post p => nofun
  | flush maxEntries fuel => cases fuel <;> nofun

theorem program_conforms (hsize : capacity < T.sizeMod) (op : LogOp) {s : LogState}
    {acc : List FwLogEntry} (h : Settled capacity s acc) :
    Conforms capacity op 0 (op.program T capacity) s acc := by
  cases op with
  | post p => exact fwLogPostFast_conforms hsize p h
  | flush maxEntries fuel => exact flushLoop_conforms hsize fuel 0 h

/-- Nothing is lost so far, and the call under way will lose nothing. -/
def Sound (capacity : Nat) (s : LogSystem) (acc : List FwLogEntry) : Prop :=
  match s.pending with
  | none => Settled capacity s.log acc
  | some ⟨op, n, rest⟩ => (∀ result, rest ≠ .ret result) ∧ Conforms capacity op n rest s.log acc

theorem accepted_append (es fs : List LogEvent) :
    accepted (es ++ fs) = accepted es ++ accepted fs :=
  List.filterMap_append

/-- A step that the interrupt does not disturb loses nothing. -/
theorem Sound.step (hsize : capacity < T.sizeMod) {s s' : LogSystem} {es : List LogEvent}
    {e : LogEvent} (h : Sound capacity s (accepted es)) (hcalm : Calm T capacity s e)
    (hstep : LogStep T capacity s e s') : Sound capacity s' (accepted (es ++ [e])) := by
  obtain ⟨log, pending⟩ := s
  obtain ⟨choice, hturn⟩ := hstep
  rw [accepted_append]
  cases choice with
  | start op =>
      cases pending with
      | some _ => cases hturn
      | none =>
          cases hturn
          have hnone : accepted es ++ accepted [.start op] = accepted es := List.append_nil _
          rw [hnone]
          exact ⟨program_ne_ret op, program_conforms hsize op h⟩
  | exec =>
      rcases pending with _ | ⟨op, n, rest⟩
      · cases hturn
      · cases rest with
        | ret result => cases hturn
        | stuck => cases hturn
        | call c k =>
            have hnext := h.2.2 log (accepted es) Interrupted.refl
            simp only [turn] at hturn
            split at hturn
            · next result hret =>
                cases hturn
                rw [hret] at hnext
                exact hnext
            · next hret =>
                cases hturn
                have hnone : accepted es ++ accepted [.access] = accepted es := List.append_nil _
                rw [hnone]
                exact ⟨hret, hnext⟩
  | isr p =>
      simp only [turn] at hturn
      split at hturn
      · next result log' hrun =>
          cases hturn
          rcases pending with _ | ⟨op, n, rest⟩
          · exact settled_steady.grows _ _ _ _ h (grows_of_isrPost _ hsize hrun)
          · refine ⟨h.1, h.2.interrupt h.1 ?_⟩
            have hgrows := grows_of_isrPost (accepted es) hsize hrun
            cases op with
            | flush maxEntries fuel => exact hgrows
            | post q =>
                cases n with
                | zero => exact hgrows
                | succ n =>
                    have hfull := hcalm p result rfl ⟨q, n, rest, rfl⟩
                    obtain ⟨hlog, haccepted⟩ := eq_of_isrPost_full hfull hrun
                    exact ⟨hlog, haccepted.symm ▸ List.append_nil _⟩
      · cases hturn

/-- Nothing is lost when a flush can still give the sink the rest. -/
theorem Sound.lossless (hsize : capacity < T.sizeMod) {s : LogSystem} {es : List LogEvent}
    (h : Sound capacity s (accepted es)) : Lossless T capacity s es := by
  obtain ⟨log, _ | ⟨op, n, rest⟩⟩ := s
  · refine ⟨settled_steady.emitted _ _ h, fun _ => ?_⟩
    obtain ⟨q, hq, hacc⟩ := h
    obtain ⟨result, log', hrun, hemitted, hempty⟩ := flushLoop_run hq hsize 0
    exact ⟨q.length + 1, result, log', hrun, hemitted.trans hacc.symm, hempty⟩
  · exact ⟨h.2.emitted h.1, nofun⟩

/-- A new queue is empty. -/
theorem fwLogInit_settled {storage : List FwLogEntry} {log : LogState}
    (hinit : fwLogInit storage = .ok log) : Settled storage.length log [] := by
  rw [fwLogInit] at hinit
  split at hinit
  · cases hinit
  · next hlen =>
      cases hinit
      have hpos : 0 < storage.length := by omega
      refine ⟨[], ⟨rfl, hpos, (Nat.zero_mod _).symm, hpos, fun i hi => ?_⟩, rfl⟩
      exact absurd hi (Nat.not_lt_zero i)

/-- In a run where no interrupt posts between the accesses of a post, except into a full queue, the
sink gets every accepted entry once, and in order. -/
theorem fwLogPostFast_lossless_of_calm {storage : List FwLogEntry} {log : LogState}
    (hsize : storage.length < T.sizeMod) (hinit : fwLogInit storage = .ok log) {s : LogSystem}
    {es : List LogEvent}
    (run : Run (fun s e s' => LogStep T storage.length s e s' ∧ Calm T storage.length s e)
      ⟨log, none⟩ es s) :
    Lossless T storage.length s es := by
  refine Sound.lossless hsize
    (run.invariant (fun s es => Sound storage.length s (accepted es)) ?_ ?_)
  · exact fwLogInit_settled hinit
  · intro s es e s' h hstep
    exact h.step hsize hstep.2 hstep.1

theorem calmTurn_step (s : LogSystem) (c : Choice) (e : LogEvent) (s' : LogSystem)
    (hturn : calmTurn T capacity s c = some (e, s')) :
    LogStep T capacity s e s' ∧ Calm T capacity s e := by
  obtain ⟨hstep, hcalm⟩ := Option.filter_eq_some_iff.mp hturn
  exact ⟨⟨c, hstep⟩, of_decide_eq_true hcalm⟩

/-- A post of the superloop. -/
def superloopPost : Post := ⟨3, some "APP", some "boot", 1, 2, 10⟩

/-- A post of an interrupt. -/
def isrPost : Post := ⟨1, some "ISR", some "fault", 7, 8, 11⟩

/-- The interrupt posts before the superloop reads `s_head`, and during a flush. -/
def calmChoices : List Choice :=
  Choice.start (.post superloopPost) :: Choice.isr isrPost :: List.replicate 10 Choice.exec ++
    Choice.start (.flush 0 4) :: List.replicate 5 Choice.exec ++
    Choice.isr isrPost :: List.replicate 60 Choice.exec

theorem fwLogPostFast_lossless_of_calm_sample :
    let run := Run.play (calmTurn ⟨4, .inl rfl⟩ 4) calmChoices
      ⟨⟨List.replicate 4 default, 0, 0, []⟩, none⟩
    run.2.pending.isNone ∧
      accepted run.1 = [isrPost.entry, superloopPost.entry, isrPost.entry] ∧
        Lossless ⟨4, .inl rfl⟩ 4 run.2 run.1 := by
  have hsize : (List.replicate 4 (default : FwLogEntry)).length <
      Target.sizeMod ⟨4, .inl rfl⟩ := by decide
  refine ⟨by decide +kernel, by decide +kernel, ?_⟩
  exact fwLogPostFast_lossless_of_calm hsize rfl (Run.play_run calmTurn_step calmChoices _)

/-- The interrupt posts after the superloop has stored the level. -/
def tornChoices : List Choice :=
  Choice.start (.post superloopPost) :: List.replicate 5 Choice.exec ++
    Choice.isr isrPost :: List.replicate 5 Choice.exec ++
    Choice.start (.flush 0 4) :: List.replicate 40 Choice.exec

/-- The sink gets one entry for two accepted posts, with the level of one of them and the text of
the other. -/
theorem fwLogPostFast_torn :
    ∃ s es, fwLogInit (List.replicate 4 default) = .ok ⟨List.replicate 4 default, 0, 0, []⟩ ∧
      Run (LogStep ⟨4, .inl rfl⟩ 4) ⟨⟨List.replicate 4 default, 0, 0, []⟩, none⟩ es s ∧
      s.log.emitted = [⟨11, "APP", "boot", 1, 2, 1⟩] ∧
      accepted es = [isrPost.entry, superloopPost.entry] ∧ ¬ Lossless ⟨4, .inl rfl⟩ 4 s es := by
  let run := Run.play (turn ⟨4, .inl rfl⟩ 4) tornChoices
    ⟨⟨List.replicate 4 default, 0, 0, []⟩, none⟩
  have hemitted : run.2.log.emitted = [⟨11, "APP", "boot", 1, 2, 1⟩] := by decide +kernel
  have haccepted : accepted run.1 = [isrPost.entry, superloopPost.entry] := by decide +kernel
  refine ⟨run.2, run.1, rfl, Run.play_run (fun _ c _ _ h => ⟨c, h⟩) tornChoices _, hemitted,
    haccepted, fun h => ?_⟩
  have hprefix := h.emitted
  rw [hemitted, haccepted] at hprefix
  exact absurd (List.cons_prefix_cons.mp hprefix).1 (by decide)

end Runs

end ZeroEmbedded.Log
