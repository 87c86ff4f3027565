import ZeroEmbedded.Diag.LogPreempt

/-!
# Posts between the entries of a flush

One poster, whose posts are complete: before a flush, between two of its
entries, or after it. Each round of the loop of `fw_log_flush` is then a step
of its own.
-/

namespace ZeroEmbedded.Log

open Foundation

variable {T : Target} {capacity maxEntries flushed : Nat}

section Flush

variable {s : LogState} {q : List FwLogEntry}

/-- The number of entries that a flush still takes out of so many. -/
def flushCount (maxEntries flushed pending : Nat) : Nat :=
  if maxEntries = 0 then pending else min (maxEntries - flushed) pending

/-- An uninterrupted flush gives the sink the first entries, as many as it may. -/
theorem flushLoop_emits (h : Queue capacity s q) (hsize : capacity < T.sizeMod)
    (hflushed : flushed + q.length < T.sizeMod) {fuel : Nat} (hfuel : q.length < fuel) :
    ∃ log, (flushLoop T capacity maxEntries fuel flushed).run logHandler s =
        (some (.flushed (flushed + flushCount maxEntries flushed q.length)), log) ∧
      log.emitted = s.emitted ++ q.take (flushCount maxEntries flushed q.length) := by
  induction q generalizing s flushed fuel with
  | nil =>
      obtain ⟨fuel, rfl⟩ := Nat.exists_eq_succ_of_ne_zero (Nat.ne_of_gt hfuel)
      have hcount : flushCount maxEntries flushed ([] : List FwLogEntry).length = 0 := by
        rw [flushCount, List.length_nil]
        split <;> simp
      refine ⟨s, ?_, ?_⟩
      · rw [flushLoop_succ, Program.run_bind, flushRound_run,
          if_pos (Or.inl (h.empty_iff.mpr rfl)), hcount]
        rfl
      · rw [List.take_nil, List.append_nil]
  | cons e q ih =>
      obtain ⟨fuel, rfl⟩ := Nat.exists_eq_succ_of_ne_zero (Nat.ne_of_gt (Nat.zero_lt_of_lt hfuel))
      have hne : s.tail ≠ s.head := fun heq => List.cons_ne_nil e q (h.empty_iff.mp heq)
      rw [List.length_cons] at hflushed hfuel
      rw [flushLoop_succ, Program.run_bind, flushRound_run, List.length_cons]
      by_cases hmax : maxEntries > 0 ∧ flushed ≥ maxEntries
      · have hcount : flushCount maxEntries flushed (q.length + 1) = 0 := by
          rw [flushCount]
          split <;> omega
        rw [if_pos (Or.inr hmax), hcount]
        exact ⟨s, rfl, by rw [List.take_zero, List.append_nil]⟩
      · have hcount : flushCount maxEntries flushed (q.length + 1) =
            flushCount maxEntries (flushed + 1) q.length + 1 := by
          rw [flushCount, flushCount]
          split <;> omega
        have hnext : T.size (flushed + 1) = flushed + 1 := Nat.mod_eq_of_lt (by omega)
        rw [if_neg (not_or.mpr ⟨hne, hmax⟩), h.first, hcount, hnext]
        have hrest : flushed + 1 + q.length < T.sizeMod := by omega
        have hfuel' : q.length < fuel := by omega
        obtain ⟨log, hrun, hemitted⟩ := ih (h.pop hsize (s.emitted ++ [e])) hrest hfuel'
        refine ⟨log, ?_, ?_⟩
        · rw [Nat.add_right_comm] at hrun
          exact hrun
        · rw [hemitted, List.take_succ_cons]
          exact (List.append_cons _ _ _).symm

end Flush

section Runs

/-- The queue and the flush under way, with its bound and its counter. -/
structure FlushSystem where
  log : LogState
  flush : Option (Nat × Nat)

inductive FlushEvent
  | post (p : Post) (result : LogResult)
  | start (maxEntries : Nat)
  | entry
  | finish (result : Nat)
  deriving DecidableEq

/-- A complete post, or a step of a flush: its start, a round that takes an entry, or the one that
ends it. -/
inductive FlushStep (T : Target) (capacity : Nat) : FlushSystem → FlushEvent → FlushSystem → Prop
  | post {log log' : LogState} {flush : Option (Nat × Nat)} (p : Post) (result : LogResult)
      (hrun : (fwLogPostFast T capacity p).run logHandler log = (some result, log')) :
      FlushStep T capacity ⟨log, flush⟩ (.post p result) ⟨log', flush⟩
  | start (log : LogState) (maxEntries : Nat) :
      FlushStep T capacity ⟨log, none⟩ (.start maxEntries) ⟨log, some (maxEntries, 0)⟩
  | entry {log log' : LogState} {maxEntries flushed flushed' : Nat}
      (hrun : (flushRound T capacity maxEntries flushed).run logHandler log =
        (some (.next flushed'), log')) :
      FlushStep T capacity ⟨log, some (maxEntries, flushed)⟩ .entry
        ⟨log', some (maxEntries, flushed')⟩
  | finish {log log' : LogState} {maxEntries flushed result : Nat}
      (hrun : (flushRound T capacity maxEntries flushed).run logHandler log =
        (some (.done result), log')) :
      FlushStep T capacity ⟨log, some (maxEntries, flushed)⟩ (.finish result) ⟨log', none⟩

/-- The entries of the posts that were not dropped. -/
def acceptedPosts (es : List FlushEvent) : List FwLogEntry :=
  es.filterMap fun
    | .post p .posted => some p.entry
    | _ => none

/-- The sink has taken the accepted entries up to those that are pending. A post is dropped exactly
when they leave one slot, and a flush gives the sink the first of them. -/
structure Ordered (T : Target) (capacity : Nat) (log : LogState) (acc pending : List FwLogEntry) :
    Prop where
  accepted : acc = log.emitted ++ pending
  drops : ∀ p, ∃ result log', (fwLogPostFast T capacity p).run logHandler log =
    (some result, log') ∧ (result = .dropped ↔ pending.length = capacity - 1)
  flushes : ∀ maxEntries fuel, pending.length < fuel → ∃ n log',
    (fwLogFlush T capacity maxEntries fuel).run logHandler log = (some (.flushed n), log') ∧
      n = (if maxEntries = 0 then pending.length else min maxEntries pending.length) ∧
      log'.emitted = log.emitted ++ pending.take n

theorem acceptedPosts_concat (es : List FlushEvent) (e : FlushEvent) :
    acceptedPosts (es ++ [e]) = acceptedPosts es ++ acceptedPosts [e] :=
  List.filterMap_append

/-- A round takes the first entry of the queue, or leaves everything as it is. -/
theorem flushRound_settled {log log' : LogState} {acc : List FwLogEntry} {round : FlushRound}
    (h : Settled capacity log acc) (hsize : capacity < T.sizeMod)
    (hrun : (flushRound T capacity maxEntries flushed).run logHandler log = (some round, log')) :
    Settled capacity log' acc := by
  obtain ⟨q, hq, hacc⟩ := h
  rw [flushRound_run] at hrun
  split at hrun
  · cases hrun
    exact ⟨q, hq, hacc⟩
  · next hgoes =>
      cases hrun
      cases q with
      | nil => exact absurd (Or.inl (hq.empty_iff.mpr rfl)) hgoes
      | cons e q =>
          refine ⟨q, hq.pop hsize _, ?_⟩
          rw [hq.first]
          exact hacc.trans (List.append_cons _ _ _)

/-- A step keeps the accepted entries in the queue and in the sink. -/
theorem FlushStep.settled {s s' : FlushSystem} {es : List FlushEvent} {e : FlushEvent}
    (hstep : FlushStep T capacity s e s') (hsize : capacity < T.sizeMod)
    (h : Settled capacity s.log (acceptedPosts es)) :
    Settled capacity s'.log (acceptedPosts (es ++ [e])) := by
  rw [acceptedPosts_concat]
  cases hstep with
  | @post log log' flush p result hrun =>
      have hgrows := grows_of_isrPost (acceptedPosts es) hsize hrun
      have hevent : acceptedPosts [.post p result] = accepted [.isrPost p result] := by
        cases result <;> rfl
      rw [hevent]
      exact settled_steady.grows _ _ _ _ h hgrows
  | start log maxEntries =>
      rw [show acceptedPosts [.start maxEntries] = [] from rfl, List.append_nil]
      exact h
  | entry hrun =>
      rw [show acceptedPosts [.entry] = [] from rfl, List.append_nil]
      exact flushRound_settled h hsize hrun
  | @finish _ _ _ _ result hrun =>
      rw [show acceptedPosts [.finish result] = [] from rfl, List.append_nil]
      exact flushRound_settled h hsize hrun

/-- The accepted entries of a run are in the sink and in the queue. -/
theorem flushRun_settled {storage : List FwLogEntry} {log : LogState}
    (hsize : storage.length < T.sizeMod) (hinit : fwLogInit storage = .ok log) {s : FlushSystem}
    {es : List FlushEvent} (run : Run (FlushStep T storage.length) ⟨log, none⟩ es s) :
    Settled storage.length s.log (acceptedPosts es) := by
  refine run.invariant (fun s es => Settled storage.length s.log (acceptedPosts es))
    (fwLogInit_settled hinit) ?_
  intro s es e s' h hstep
  exact hstep.settled hsize h

/-- A settled queue keeps the order. -/
theorem Queue.ordered {log : LogState} {acc q : List FwLogEntry} (h : Queue capacity log q)
    (hsize : capacity < T.sizeMod) (hacc : acc = log.emitted ++ q) :
    Ordered T capacity log acc q := by
  constructor
  · exact hacc
  · intro p
    have hlen := h.length_lt
    rw [fwLogPostFast_run]
    split
    · next hfull =>
        have hslots := (h.full_iff hsize).mp hfull
        exact ⟨.dropped, log, rfl, iff_of_true rfl (by omega)⟩
    · next hroom =>
        have hslots := mt (h.full_iff hsize).mpr hroom
        exact ⟨.posted, _, rfl, iff_of_false nofun (by omega)⟩
  · intro maxEntries fuel hfuel
    have hlen := h.length_lt
    have hpending : 0 + q.length < T.sizeMod := by omega
    obtain ⟨log', hrun, hemitted⟩ := flushLoop_emits h hsize hpending hfuel
    refine ⟨flushCount maxEntries 0 q.length, log', ?_, ?_, hemitted⟩
    · rw [Nat.zero_add] at hrun
      exact hrun
    · rw [flushCount, Nat.sub_zero]

/-- With one poster the sink takes the accepted entries once and in their order, and only a post
into a queue with one free slot is dropped. -/
theorem fwLogPostFast_ordered {storage : List FwLogEntry} {log : LogState}
    (hsize : storage.length < T.sizeMod) (hinit : fwLogInit storage = .ok log) {s : FlushSystem}
    {es : List FlushEvent} (run : Run (FlushStep T storage.length) ⟨log, none⟩ es s) :
    ∃ pending, Ordered T storage.length s.log (acceptedPosts es) pending := by
  obtain ⟨pending, hqueue, hacc⟩ := flushRun_settled hsize hinit run
  exact ⟨pending, hqueue.ordered hsize hacc⟩

/-- In a queue of three slots the third post is dropped, and a slot that a flush has freed is taken
by a post before the flush goes on. -/
theorem fwLogPostFast_ordered_sample :
    ∃ s pending, s.log.emitted = [superloopPost.entry, isrPost.entry] ∧
      Run (FlushStep ⟨4, .inl rfl⟩ 3) ⟨⟨List.replicate 3 default, 0, 0, []⟩, none⟩
        [.post superloopPost .posted, .post isrPost .posted, .post superloopPost .dropped,
          .start 0, .entry, .post isrPost .posted, .entry] s ∧
      Ordered ⟨4, .inl rfl⟩ 3 s.log [superloopPost.entry, isrPost.entry, isrPost.entry] pending := by
  let start : FlushSystem := ⟨⟨List.replicate 3 default, 0, 0, []⟩, none⟩
  have hfirst : FlushStep ⟨4, .inl rfl⟩ 3 start (.post superloopPost .posted) _ := .post _ _ rfl
  have run := (((((((Run.nil start).snoc hfirst).snoc (.post isrPost .posted rfl)).snoc
    (.post superloopPost .dropped rfl)).snoc (.start _ 0)).snoc (.entry rfl)).snoc
    (.post isrPost .posted rfl)).snoc (.entry rfl)
  have hsize : (List.replicate 3 (default : FwLogEntry)).length <
      Target.sizeMod ⟨4, .inl rfl⟩ := by decide
  obtain ⟨pending, hordered⟩ := fwLogPostFast_ordered hsize rfl run
  exact ⟨_, pending, by decide +kernel, run, hordered⟩

end Runs

end ZeroEmbedded.Log
