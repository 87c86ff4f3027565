import ZeroEmbedded.Sync.Tasklet

/-!
# Draining the tasklet queue

`fw_tasklet_dispatch_all` calls `fw_tasklet_dispatch_one` until it returns
`FW_FALSE`. Handlers are programs of their own: they may post, also
themselves, and dispatch while they run, and they may not return.

## Implementation notes

Posts from interrupts are the subject of the runs of `Step`; here the only
posts are those of the handlers. A finished call stays as it is, so the states
of a call are the iterates of one function.
-/

namespace ZeroEmbedded.Tasklet

open Foundation

/-- What a handler does next; `σ` is the state that all handlers share. -/
inductive HandlerAct (σ τ : Type)
  | done (s : σ)
  | post (item : FwTaskletItem) (k : FwStatus → τ)
  | dispatch (s : σ) (k : Bool → σ → τ)

/-- The code of the handlers: where a handler begins, called with the context and the argument
of its item, and what it does at each of its points. -/
structure Handlers (σ τ : Type) where
  entry : FwTaskletItem → σ → τ
  act : τ → HandlerAct σ τ

/-- Where `fw_tasklet_dispatch_all` and what it has called stand. -/
inductive DrainPoint (τ : Type)
  | call
  | dispatching (point : DispatchPoint)
  | handler (t : τ)
  | finished

/-- A call of `fw_tasklet_dispatch_all`. `callers` are the handlers that wait for a dispatch of
their own. The last three members are ghosts: the items that were executed, the posts that
were accepted, and how many items were executed for handlers. -/
structure Drain (σ τ : Type) where
  ring : RingBuffer FwTaskletItem
  world : σ
  point : DrainPoint τ
  callers : List (Bool → σ → τ)
  count : Nat
  executed : List FwTaskletItem
  posted : List FwTaskletItem
  nested : Nat

variable {T : Target} {σ τ : Type}

namespace Drain

/-- The beginning of a call. -/
def start (r : RingBuffer FwTaskletItem) (s : σ) : Drain σ τ where
  ring := r
  world := s
  point := .call
  callers := []
  count := 0
  executed := []
  posted := []
  nested := 0

/-- `fw_tasklet_dispatch_one` returns to the handler that called it, or to the loop. -/
def returnTo (T : Target) (d : Drain σ τ) (result : Bool) : Drain σ τ :=
  match d.callers with
  | k :: callers => { d with point := .handler (k result d.world), callers := callers }
  | [] =>
      if result then { d with point := .call, count := T.size (d.count + 1) }
      else { d with point := .finished }

/-- One step. -/
def step (q : FwTaskletQueue T) (H : Handlers σ τ) (d : Drain σ τ) : Drain σ τ :=
  match d.point with
  | .call => { d with point := .dispatching .loadTail }
  | .dispatching (.callHandler item) =>
      { d with
        point := .handler (H.entry item d.world)
        executed := d.executed ++ [item]
        nested := if d.callers.isEmpty then d.nested else d.nested + 1 }
  | .dispatching (.returns result) => d.returnTo T result
  | .dispatching point =>
      match dispatchStep q d.ring point with
      | some (point, ring) => { d with point := .dispatching point, ring := ring }
      | none => d
  | .handler t =>
      match H.act t with
      | .done s => { d with point := .dispatching (.returns true), world := s }
      | .post item k =>
          let (st, ring) := fwTaskletPost q d.ring item.handler item.context item.arg
          { d with
            point := .handler (k st)
            ring := ring
            posted := if st = .ok then d.posted ++ [item] else d.posted }
      | .dispatch s k =>
          { d with point := .dispatching .loadTail, world := s, callers := k :: d.callers }
  | .finished => d

end Drain

/-- The call executes exactly what was pending, in order, returns its number, and leaves what
was posted meanwhile pending. -/
def DispatchesQueued (q : FwTaskletQueue T) (H : Handlers σ τ) (r : RingBuffer FwTaskletItem)
    (s : σ) : Prop :=
  ∃ n, ((Drain.step q H)^[n] (Drain.start r s)).point = .finished ∧
    ((Drain.step q H)^[n] (Drain.start r s)).executed = q.pending r ∧
    ((Drain.step q H)^[n] (Drain.start r s)).count = (q.pending r).length ∧
    q.pending ((Drain.step q H)^[n] (Drain.start r s)).ring =
      ((Drain.step q H)^[n] (Drain.start r s)).posted

/-- The handler returns and leaves the shared state `s`, no post of it is accepted, and while
`rest` is pending it executes nothing. -/
inductive Silent (H : Handlers σ τ) (rest : List FwTaskletItem) : τ → σ → Prop
  | done {t : τ} {s : σ} (hact : H.act t = .done s) : Silent H rest t s
  | post {t : τ} {s : σ} {item : FwTaskletItem} {k : FwStatus → τ}
      (hact : H.act t = .post item k) (hnull : item.handler = fwNull)
      (next : Silent H rest (k .errInvalidArg) s) : Silent H rest t s
  | dispatch {t : τ} {s s' : σ} {k : Bool → σ → τ} (hact : H.act t = .dispatch s' k)
      (hrest : rest = []) (next : Silent H rest (k false s') s) : Silent H rest t s

/-- The handlers of the pending items are silent when they run one after the other. -/
inductive Quiet (H : Handlers σ τ) : List FwTaskletItem → σ → Prop
  | nil (s : σ) : Quiet H [] s
  | cons {item : FwTaskletItem} {rest : List FwTaskletItem} {s s' : σ}
      (first : Silent H rest (H.entry item s) s') (others : Quiet H rest s') :
      Quiet H (item :: rest) s

variable {q : FwTaskletQueue T} {H : Handlers σ τ} {d : Drain σ τ}
  {queue rest : List FwTaskletItem} {item : FwTaskletItem}

section Steps

theorem step_finished (h : d.point = .finished) : d.step q H = d := by
  rw [Drain.step, h]

theorem iterate_finished (h : d.point = .finished) (n : Nat) : (Drain.step q H)^[n] d = d :=
  Function.iterate_fixed (step_finished h) n

/-- An access of the innermost dispatch. -/
theorem step_access {point point' : DispatchPoint} {ring' : RingBuffer FwTaskletItem}
    (hpoint : d.point = .dispatching point)
    (hstep : dispatchStep q d.ring point = some (point', ring')) :
    d.step q H = { d with point := .dispatching point', ring := ring' } := by
  rw [Drain.step, hpoint]
  cases point with
  | callHandler item => cases hstep
  | returns result => cases hstep
  | _ => simp only [hstep]

/-- A call finishes in one state only. -/
theorem finished_unique {m n : Nat} (hm : ((Drain.step q H)^[m] d).point = .finished)
    (hn : ((Drain.step q H)^[n] d).point = .finished) :
    (Drain.step q H)^[m] d = (Drain.step q H)^[n] d := by
  have hlater : ∀ {m k : Nat}, ((Drain.step q H)^[m] d).point = .finished →
      (Drain.step q H)^[m] d = (Drain.step q H)^[k + m] d := by
    intro m k hm
    rw [Function.iterate_add_apply, iterate_finished hm]
  rcases Nat.le_total m n with hle | hle
  · rw [← Nat.sub_add_cancel hle]
    exact hlater hm
  · rw [← Nat.sub_add_cancel hle]
    exact (hlater hn).symm

/-- `d` comes to `d'`. -/
def Reaches (q : FwTaskletQueue T) (H : Handlers σ τ) (d d' : Drain σ τ) : Prop :=
  ∃ n, (Drain.step q H)^[n] d = d'

theorem Reaches.refl (d : Drain σ τ) : Reaches q H d d := ⟨0, rfl⟩

theorem Reaches.trans {d₁ d₂ d₃ : Drain σ τ} (h : Reaches q H d₁ d₂) (h' : Reaches q H d₂ d₃) :
    Reaches q H d₁ d₃ := by
  obtain ⟨n, rfl⟩ := h
  obtain ⟨n', rfl⟩ := h'
  exact ⟨n' + n, Function.iterate_add_apply _ _ _ _⟩

theorem Reaches.head {d' : Drain σ τ} (h : Reaches q H (d.step q H) d') : Reaches q H d d' :=
  Reaches.trans ⟨1, rfl⟩ h

theorem Reaches.access {d' : Drain σ τ} {point point' : DispatchPoint}
    {ring' : RingBuffer FwTaskletItem} (hpoint : d.point = .dispatching point)
    (hstep : dispatchStep q d.ring point = some (point', ring'))
    (h : Reaches q H { d with point := .dispatching point', ring := ring' } d') :
    Reaches q H d d' :=
  Reaches.head ((step_access hpoint hstep).symm ▸ h)

/-- A dispatch takes the oldest item out of the queue. -/
theorem dispatch_pending (h : RingBuffer.Holds q.size d.ring (item :: rest))
    (hitem : item.handler ≠ fwNull) (hpoint : d.point = .dispatching .loadTail) :
    ∃ ring', RingBuffer.Holds q.size ring' rest ∧
      Reaches q H d { d with point := .dispatching (.callHandler item), ring := ring' } := by
  have hfront := h.front 1
  have hslot : slotAt q d.ring d.ring.tail = item := slotAt_front h hfront
  have hne : d.ring.tail ≠ d.ring.head := fun heq => by cases h.empty_iff.mp heq
  have hqueue : RingBuffer.Holds q.size d.ring ([item] ++ rest) := h
  have hrelease : RingBuffer.Holds q.size { d.ring with tail := T.size (d.ring.tail + 1) } rest :=
    hqueue.release rfl
  refine ⟨_, hrelease, ?_⟩
  refine Reaches.access hpoint rfl (Reaches.access rfl (congrArg some
    (congrArg (·, d.ring) (if_neg hne))) ?_)
  refine Reaches.access rfl rfl (Reaches.access rfl rfl (Reaches.access rfl rfl ?_))
  dsimp only
  rw [hslot]
  refine Reaches.access rfl rfl ?_
  dsimp only
  rw [if_pos hitem]
  exact Reaches.refl _

/-- A dispatch finds the queue empty. -/
theorem dispatch_empty (h : RingBuffer.Holds q.size d.ring [])
    (hpoint : d.point = .dispatching .loadTail) :
    Reaches q H d { d with point := .dispatching (.returns false) } := by
  have heq : d.ring.tail = d.ring.head := h.empty_iff.mpr rfl
  refine Reaches.access hpoint rfl (Reaches.access rfl (congrArg some
    (congrArg (·, d.ring) (if_pos heq))) (Reaches.refl _))

end Steps

section Quiet

/-- A silent handler returns to the loop and leaves the queue as it is. -/
theorem Silent.reaches {t : τ} {s : σ} (hsilent : Silent H rest t s)
    (h : RingBuffer.Holds q.size d.ring rest) (hcallers : d.callers = [])
    (hpoint : d.point = .handler t) :
    Reaches q H d { d with point := .dispatching (.returns true), world := s } := by
  induction hsilent generalizing d with
  | done hact =>
      refine Reaches.head ?_
      simp only [Drain.step, hpoint, hact]
      exact Reaches.refl _
  | @post t s item k hact hnull next ih =>
      have hpost : fwTaskletPost q d.ring item.handler item.context item.arg =
          (.errInvalidArg, d.ring) := if_pos hnull
      have hstep : d.step q H = { d with point := .handler (k .errInvalidArg) } := by
        simp only [Drain.step, hpoint, hact, hpost]
        rfl
      exact Reaches.head (hstep ▸ ih h hcallers rfl)
  | @dispatch t s s' k hact hrest next ih =>
      subst hrest
      have hstep : d.step q H =
          { d with point := .dispatching .loadTail, world := s', callers := k :: d.callers } := by
        simp only [Drain.step, hpoint, hact]
      have hempty : Reaches q H (d.step q H)
          { d with
            point := .dispatching (.returns false), world := s', callers := k :: d.callers } := by
        rw [hstep]
        exact dispatch_empty h rfl
      refine Reaches.head (hempty.trans (Reaches.head ?_))
      exact ih h hcallers rfl

/-- The loop over pending items whose handlers are silent. -/
theorem Quiet.reaches {s : σ} (hquiet : Quiet H queue s)
    (h : RingBuffer.Holds q.size d.ring queue) (hhandlers : ∀ item ∈ queue, item.handler ≠ fwNull)
    (hcallers : d.callers = []) (hpoint : d.point = .call) (hworld : d.world = s) {n : Nat}
    (hcount : d.count = T.size n) :
    ∃ d', Reaches q H d d' ∧ d'.point = .finished ∧ d'.executed = d.executed ++ queue ∧
      d'.count = T.size (n + queue.length) ∧ d'.posted = d.posted ∧
      RingBuffer.Holds q.size d'.ring [] := by
  have hcall : d.step q H = { d with point := .dispatching .loadTail } := by
    rw [Drain.step, hpoint]
  induction hquiet generalizing d n with
  | nil s =>
      refine ⟨{ d with point := .finished }, ?_, rfl, (List.append_nil _).symm, hcount, rfl, h⟩
      have hempty : Reaches q H (d.step q H) { d with point := .dispatching (.returns false) } := by
        rw [hcall]
        exact dispatch_empty h rfl
      refine Reaches.head (hempty.trans (Reaches.head ?_))
      simp only [Drain.step, Drain.returnTo, hcallers]
      exact Reaches.refl _
  | @cons item rest s s' first others ih =>
      obtain ⟨ring', hrest, hdispatch⟩ := dispatch_pending (H := H)
        (d := { d with point := .dispatching .loadTail }) h (hhandlers item List.mem_cons_self) rfl
      -- the item leaves the queue and its handler runs
      let running : Drain σ τ :=
        { d with
          ring := ring', world := s, point := .handler (H.entry item s), callers := []
          executed := d.executed ++ [item] }
      have hrunning : Reaches q H d running := by
        refine Reaches.head (hcall ▸ hdispatch.trans (Reaches.head ?_))
        simp only [Drain.step, hcallers, hworld]
        exact Reaches.refl _
      -- it returns, and the loop counts it
      let counted : Drain σ τ :=
        { running with point := .call, world := s', count := T.size (d.count + 1) }
      have hcounted : Reaches q H running counted := by
        refine (first.reaches (d := running) hrest rfl rfl).trans (Reaches.head ?_)
        exact Reaches.refl _
      obtain ⟨d', hreach, hfinished, hexecuted, hcount', hposted, hholds⟩ :=
        ih (d := counted) (n := n + 1) hrest
          (fun x hx => hhandlers x (List.mem_cons_of_mem _ hx)) rfl rfl rfl
          (by
            change T.size (d.count + 1) = _
            rw [hcount]
            exact Nat.mod_add_mod _ _ _)
          rfl
      refine ⟨d', hrunning.trans (hcounted.trans hreach), hfinished, ?_, ?_, hposted, hholds⟩
      · rw [hexecuted]
        exact List.append_assoc _ _ _
      · rw [hcount', List.length_cons, Nat.add_assoc, Nat.add_comm 1]

end Quiet

section Invariant

/-- Whether the loop has taken an item that it has not counted yet. -/
def Drain.uncounted (d : Drain σ τ) : Nat :=
  match d.point with
  | .call => 0
  | .finished => 0
  | .handler _ => 1
  | .dispatching (.returns true) => 1
  | .dispatching _ => if d.callers.isEmpty then 0 else 1

/-- What holds at every point of a call while `queue` is pending. -/
structure Drain.Sound (q : FwTaskletQueue T) (d : Drain σ τ) (queue : List FwTaskletItem) :
    Prop where
  holds : RingBuffer.Holds q.size d.ring queue
  handlers : ∀ item ∈ queue, item.handler ≠ fwNull
  knows : ∀ point, d.point = .dispatching point → q.Knows d.ring point
  empty : d.point = .dispatching (.returns false) → d.callers = [] → queue = []
  ended : d.point = .finished → queue = []
  loop : d.point = .call → d.callers = []
  count : ∃ outer, d.count = T.size outer ∧
    d.executed.length = outer + d.nested + d.uncounted

/-- A dispatch has an item to call as long as every handler is present. -/
theorem dispatchStep_ne_returns_true {point point' : DispatchPoint}
    {r r' : RingBuffer FwTaskletItem}
    (h : RingBuffer.Holds q.size r queue) (hhandlers : ∀ item ∈ queue, item.handler ≠ fwNull)
    (hknows : q.Knows r point) (hstep : dispatchStep q r point = some (point', r')) :
    point' ≠ .returns true := by
  cases point with
  | loadHead tail =>
      cases hstep
      split <;> nofun
  | storeTail tail item =>
      obtain ⟨rest, rfl⟩ := hknows.front queue h
      have hitem : item.handler ≠ fwNull := hhandlers item List.mem_cons_self
      cases hstep
      rw [if_pos hitem]
      nofun
  | callHandler item => cases hstep
  | returns result => cases hstep
  | _ =>
      cases hstep
      nofun

/-- An access of a dispatch keeps the invariant. -/
theorem Drain.Sound.access {point point' : DispatchPoint} {ring' : RingBuffer FwTaskletItem}
    (h : d.Sound q queue) (hpoint : d.point = .dispatching point)
    (hstep : dispatchStep q d.ring point = some (point', ring')) :
    ∃ queue', Drain.Sound q { d with point := .dispatching point', ring := ring' } queue' := by
  have hknows := h.knows point hpoint
  have htrue := dispatchStep_ne_returns_true h.holds h.handlers hknows hstep
  obtain ⟨outer, hcount, hexecuted⟩ := h.count
  -- an access neither takes an item for the loop nor counts one
  have huncounted : Drain.uncounted { d with point := .dispatching point', ring := ring' } =
      d.uncounted := by
    rw [Drain.uncounted, Drain.uncounted, hpoint]
    cases point with
    | returns result => cases hstep
    | _ =>
      cases point' with
      | returns result =>
          cases result with
          | false => rfl
          | true => exact absurd rfl htrue
      | _ => rfl
  rw [← huncounted] at hexecuted
  obtain ⟨rfl, hknows', -, hempty⟩ | ⟨item, rest, rfl, rfl, hrest⟩ :=
    dispatchStep_cases h.holds h.handlers hknows hstep
  · refine ⟨queue, h.holds, h.handlers, ?_, ?_, nofun, nofun, outer, hcount, hexecuted⟩
    · intro p hp
      cases hp
      exact hknows'
    · intro hreturns _
      exact hempty (DrainPoint.dispatching.inj hreturns)
  · refine ⟨rest, hrest, fun x hx => h.handlers x (List.mem_cons_of_mem _ hx), ?_, nofun,
      nofun, nofun, outer, hcount, hexecuted⟩
    intro p hp
    cases hp
    trivial

/-- A return of a dispatch keeps the invariant. -/
theorem Drain.Sound.returnTo {result : Bool} (h : d.Sound q queue)
    (hpoint : d.point = .dispatching (.returns result)) :
    ∃ queue', (d.returnTo T result).Sound q queue' := by
  obtain ⟨outer, hcount, hexecuted⟩ := h.count
  refine ⟨queue, ?_⟩
  rw [Drain.uncounted, hpoint] at hexecuted
  cases hcallers : d.callers with
  | cons k callers =>
      rw [hcallers] at hexecuted
      simp only [Drain.returnTo, hcallers]
      refine ⟨h.holds, h.handlers, nofun, nofun, nofun, nofun, outer, hcount, ?_⟩
      cases result <;> exact hexecuted
  | nil =>
      rw [hcallers] at hexecuted
      simp only [Drain.returnTo, hcallers]
      cases result with
      | true =>
          refine ⟨h.holds, h.handlers, nofun, nofun, nofun, fun _ => rfl, outer + 1, ?_, ?_⟩
          · change T.size (d.count + 1) = _
            rw [hcount]
            exact Nat.mod_add_mod _ _ _
          · change d.executed.length = outer + 1 + d.nested + 0
            rw [hexecuted]
            change outer + d.nested + 1 = _
            omega
      | false =>
          exact ⟨h.holds, h.handlers, nofun, nofun, fun _ => h.empty hpoint hcallers, nofun, outer,
            hcount, hexecuted⟩

/-- A post of a handler keeps the invariant. -/
theorem Drain.Sound.post {t t' : τ} (h : d.Sound q queue) (hpoint : d.point = .handler t)
    (item : FwTaskletItem) (posted : List FwTaskletItem) :
    ∃ queue', Drain.Sound q
      { d with
        point := .handler t'
        ring := (fwTaskletPost q d.ring item.handler item.context item.arg).2
        posted := posted } queue' := by
  obtain ⟨outer, hcount, hexecuted⟩ := h.count
  rw [Drain.uncounted, hpoint] at hexecuted
  obtain ⟨-, hpost⟩ | ⟨-, -, hpost⟩ | ⟨hnull, -, ring', hpost, -, hholds⟩ :=
    fwTaskletPost_cases h.holds item
  · rw [hpost]
    exact ⟨queue, h.holds, h.handlers, nofun, nofun, nofun, nofun, outer, hcount,
      hexecuted⟩
  · rw [hpost]
    exact ⟨queue, h.holds, h.handlers, nofun, nofun, nofun, nofun, outer, hcount,
      hexecuted⟩
  · rw [hpost]
    refine ⟨queue ++ [item], hholds, ?_, nofun, nofun, nofun, nofun, outer, hcount,
      hexecuted⟩
    intro x hx
    rcases List.mem_append.mp hx with hx | hx
    · exact h.handlers x hx
    · rw [List.mem_singleton.mp hx]
      exact hnull

/-- A step keeps the invariant. -/
theorem Drain.Sound.step (h : d.Sound q queue) : ∃ queue', (d.step q H).Sound q queue' := by
  obtain ⟨outer, hcount, hexecuted⟩ := h.count
  cases hpoint : d.point with
  | call =>
      rw [Drain.uncounted, hpoint] at hexecuted
      simp only [Drain.step, hpoint]
      refine ⟨queue, h.holds, h.handlers, ?_, nofun, nofun, nofun, outer, hcount, ?_⟩
      · intro p hp
        cases hp
        trivial
      · rw [Drain.uncounted, h.loop hpoint]
        exact hexecuted
  | dispatching point =>
      cases point with
      | callHandler item =>
          rw [Drain.uncounted, hpoint] at hexecuted
          simp only [Drain.step, hpoint]
          refine ⟨queue, h.holds, h.handlers, nofun, nofun, nofun, nofun, outer, hcount,
            ?_⟩
          rw [List.length_append, hexecuted]
          cases d.callers with
          | nil => rfl
          | cons k callers =>
              change outer + d.nested + 1 + 1 = outer + (d.nested + 1) + 1
              omega
      | returns result =>
          simp only [Drain.step, hpoint]
          exact h.returnTo hpoint
      | _ =>
          rw [step_access hpoint rfl]
          exact h.access hpoint rfl
  | handler t =>
      cases hact : H.act t with
      | done s =>
          rw [Drain.uncounted, hpoint] at hexecuted
          simp only [Drain.step, hpoint, hact]
          refine ⟨queue, h.holds, h.handlers, ?_, nofun, nofun, nofun, outer, hcount,
            hexecuted⟩
          intro p hp
          cases hp
          trivial
      | post item k =>
          simp only [Drain.step, hpoint, hact]
          exact h.post hpoint item _
      | dispatch s k =>
          rw [Drain.uncounted, hpoint] at hexecuted
          simp only [Drain.step, hpoint, hact]
          refine ⟨queue, h.holds, h.handlers, ?_, nofun, nofun, nofun, outer, hcount,
            hexecuted⟩
          intro p hp
          cases hp
          trivial
  | finished =>
      rw [step_finished hpoint]
      exact ⟨queue, h⟩

theorem Drain.Sound.iterate (h : d.Sound q queue) (n : Nat) :
    ∃ queue', ((Drain.step q H)^[n] d).Sound q queue' := by
  induction n with
  | zero => exact ⟨queue, h⟩
  | succ n ih =>
      obtain ⟨queue', hsound⟩ := ih
      rw [Function.iterate_succ_apply']
      exact hsound.step

end Invariant

section Converse

/-- The accepted posts and the executions for handlers only become more. -/
theorem step_grows (d : Drain σ τ) :
    d.posted <+: (d.step q H).posted ∧ d.nested ≤ (d.step q H).nested := by
  rw [Drain.step]
  split
  · exact ⟨List.prefix_rfl, le_rfl⟩
  · refine ⟨List.prefix_rfl, ?_⟩
    dsimp only
    split
    · exact le_rfl
    · exact Nat.le_succ _
  · rw [Drain.returnTo]
    split
    · exact ⟨List.prefix_rfl, le_rfl⟩
    · split <;> exact ⟨List.prefix_rfl, le_rfl⟩
  · split <;> exact ⟨List.prefix_rfl, le_rfl⟩
  · split
    · exact ⟨List.prefix_rfl, le_rfl⟩
    · refine ⟨?_, le_rfl⟩
      dsimp only
      split
      · exact List.prefix_append _ _
      · exact List.prefix_rfl
    · exact ⟨List.prefix_rfl, le_rfl⟩
  · exact ⟨List.prefix_rfl, le_rfl⟩

theorem iterate_grows (n : Nat) (d : Drain σ τ) :
    d.posted <+: ((Drain.step q H)^[n] d).posted ∧ d.nested ≤ ((Drain.step q H)^[n] d).nested := by
  induction n generalizing d with
  | zero => exact ⟨List.prefix_rfl, le_rfl⟩
  | succ n ih =>
      have hfirst := step_grows (q := q) (H := H) d
      have hothers := ih (d.step q H)
      exact ⟨hfirst.1.trans hothers.1, hfirst.2.trans hothers.2⟩

/-- After `n` steps the call has finished, without a further accepted post and without a further
execution for a handler. -/
structure EndsQuietly (q : FwTaskletQueue T) (H : Handlers σ τ) (n : Nat) (d : Drain σ τ) :
    Prop where
  finished : ((Drain.step q H)^[n] d).point = .finished
  posted : ((Drain.step q H)^[n] d).posted = d.posted
  nested : ((Drain.step q H)^[n] d).nested = d.nested

theorem EndsQuietly.step {n : Nat} (h : EndsQuietly q H n d) (hpoint : d.point ≠ .finished) :
    ∃ m < n, EndsQuietly q H m (d.step q H) ∧
      (d.step q H).posted = d.posted ∧ (d.step q H).nested = d.nested := by
  cases n with
  | zero => exact absurd h.finished hpoint
  | succ n =>
      have hfirst := step_grows (q := q) (H := H) d
      have hothers := iterate_grows (q := q) (H := H) n (d.step q H)
      have hposted : (d.step q H).posted = d.posted := by
        have hback : (d.step q H).posted <+: d.posted := h.posted ▸ hothers.1
        exact hback.eq_of_length_le hfirst.1.length_le
      have hnested : (d.step q H).nested = d.nested :=
        le_antisymm (h.nested ▸ hothers.2) hfirst.2
      exact ⟨n, Nat.lt_succ_self n,
        ⟨h.finished, h.posted.trans hposted.symm, h.nested.trans hnested.symm⟩, hposted, hnested⟩

theorem EndsQuietly.reaches {n : Nat} {d' : Drain σ τ} (h : EndsQuietly q H n d)
    (hreach : Reaches q H d d') (hpoint : d'.point ≠ .finished) :
    ∃ m ≤ n, EndsQuietly q H m d' ∧ d'.posted = d.posted ∧ d'.nested = d.nested := by
  obtain ⟨k, rfl⟩ := hreach
  induction k with
  | zero => exact ⟨n, le_rfl, h, rfl, rfl⟩
  | succ k ih =>
      rw [Function.iterate_succ_apply'] at hpoint ⊢
      have hbefore : ((Drain.step q H)^[k] d).point ≠ .finished := by
        intro hfinished
        rw [step_finished hfinished] at hpoint
        exact hpoint hfinished
      obtain ⟨m, hm, hends, hposted, hnested⟩ := ih hbefore
      obtain ⟨m', hm', hends', hposted', hnested'⟩ := hends.step hbefore
      exact ⟨m', hm'.le.trans hm, hends', hposted'.trans hposted, hnested'.trans hnested⟩

/-- A handler that runs in a call that ends quietly is silent. -/
theorem EndsQuietly.silent {n : Nat} {t : τ} (hends : EndsQuietly q H n d)
    (h : RingBuffer.Holds q.size d.ring rest) (hhandlers : ∀ item ∈ rest, item.handler ≠ fwNull)
    (hroom : rest.length < q.capacity) (hcallers : d.callers = []) (hpoint : d.point = .handler t) :
    ∃ s, Silent H rest t s := by
  induction n using Nat.strong_induction_on generalizing d t with
  | _ n ih =>
      obtain ⟨m, hm, hnext, hposted, hnested⟩ := hends.step (by rw [hpoint]; nofun)
      cases hact : H.act t with
      | done s => exact ⟨s, Silent.done hact⟩
      | post item k =>
          simp only [Drain.step, hpoint, hact] at hnext hposted
          obtain ⟨hnull, hpost⟩ | ⟨-, hfull, -⟩ | ⟨-, -, ring', hpost, -, -⟩ :=
            fwTaskletPost_cases h item
          · rw [hpost] at hnext
            obtain ⟨s, hsilent⟩ := ih m hm hnext h hcallers rfl
            exact ⟨s, Silent.post hact hnull hsilent⟩
          · exact absurd hfull (Nat.ne_of_lt hroom)
          · rw [hpost] at hposted
            cases List.append_right_eq_self.mp hposted
      | dispatch s k =>
          simp only [Drain.step, hpoint, hact] at hnext
          cases rest with
          | nil =>
              obtain ⟨m', hm', hempty, -, -⟩ :=
                hnext.reaches (dispatch_empty h rfl) nofun
              obtain ⟨m'', hm'', hback, -, -⟩ := hempty.step nofun
              obtain ⟨s', hsilent⟩ := ih m'' (by omega) hback h hcallers rfl
              exact ⟨s', Silent.dispatch hact rfl hsilent⟩
          | cons item rest =>
              -- the handler would execute an item of the queue itself
              obtain ⟨ring', -, hreach⟩ := dispatch_pending (H := H)
                (d := { d with
                  point := .dispatching .loadTail, world := s, callers := k :: d.callers })
                h (hhandlers item List.mem_cons_self) rfl
              obtain ⟨m', -, htaken, -, -⟩ := hnext.reaches hreach nofun
              obtain ⟨m'', -, -, -, hmore⟩ := htaken.step nofun
              exact absurd hmore (Nat.succ_ne_self _)

/-- A call that ends quietly executes pending items whose handlers are silent. -/
theorem EndsQuietly.quiet {n : Nat} (hends : EndsQuietly q H n d)
    (h : RingBuffer.Holds q.size d.ring queue) (hhandlers : ∀ item ∈ queue, item.handler ≠ fwNull)
    (hcallers : d.callers = []) (hpoint : d.point = .call) : Quiet H queue d.world := by
  induction queue generalizing d n with
  | nil => exact Quiet.nil d.world
  | cons item rest ih =>
      have hroom : rest.length < q.capacity := h.length_le
      have hothers : ∀ x ∈ rest, x.handler ≠ fwNull :=
        fun x hx => hhandlers x (List.mem_cons_of_mem _ hx)
      obtain ⟨n₁, -, hdispatch, -, -⟩ := hends.step (by rw [hpoint]; nofun)
      simp only [Drain.step, hpoint] at hdispatch
      obtain ⟨ring', hrest, hreach⟩ := dispatch_pending (H := H)
        (d := { d with point := .dispatching .loadTail }) h (hhandlers item List.mem_cons_self) rfl
      obtain ⟨n₂, -, htaken, -, -⟩ := hdispatch.reaches hreach nofun
      obtain ⟨n₃, -, hrunning, -, -⟩ := htaken.step nofun
      obtain ⟨s, hsilent⟩ := hrunning.silent hrest hothers hroom hcallers rfl
      obtain ⟨n₄, -, hreturns, -, -⟩ :=
        hrunning.reaches (hsilent.reaches hrest hcallers rfl) nofun
      obtain ⟨n₅, -, hcounted, -, -⟩ := hreturns.step nofun
      simp only [Drain.step, Drain.returnTo, hcallers, if_true] at hcounted
      exact Quiet.cons hsilent (ih hcounted hrest hothers rfl rfl)

end Converse

/-- In every state that posts and dispatches lead to, `fw_tasklet_dispatch_all` executes exactly
what is pending and leaves what is posted meanwhile, if and only if the handlers of the pending
items, run one after the other, return, have no post accepted and execute nothing themselves. -/
theorem fwTaskletDispatchAll_iff (q : FwTaskletQueue T) (H : Handlers σ τ)
    (storage : List FwTaskletItem) (capacity : Nat) (hsize : capacity < T.sizeMod)
    (hstorage : storage.length = capacity) (r : RingBuffer FwTaskletItem)
    (hinit : fwTaskletQueueInit storage capacity hsize = .ok (q, r)) (es : List Event)
    (cfg : Config) (hrun : Run (Step q) (idle r) es cfg) (s : σ) :
    DispatchesQueued q H cfg.ring s ↔ Quiet H (q.pending cfg.ring) s := by
  obtain ⟨hfits, hnone⟩ := fwTaskletQueueInit_fits hstorage hinit
  have hempty : RingBuffer.Holds q.size r [] := by
    have hcontent := hfits.holds
    rwa [show RingBuffer.content q.size r = [] from hnone] at hcontent
  obtain ⟨queue, hsound⟩ := FwTaskletQueue.Sound.run hempty hrun
  have hpending : q.pending cfg.ring = queue := hsound.holds.content_eq
  have hlength : queue.length < T.sizeMod :=
    Nat.lt_of_le_of_lt hsound.holds.length_le q.capacity_lt
  rw [DispatchesQueued, hpending]
  constructor
  · rintro ⟨n, hfinished, hexecuted, hcount, hposted⟩
    have hstart : (Drain.start cfg.ring s : Drain σ τ).Sound q queue :=
      ⟨hsound.holds, hsound.handlers, nofun, nofun, nofun, fun _ => rfl, 0, (Nat.zero_mod _).symm,
        rfl⟩
    obtain ⟨queue', hend⟩ := hstart.iterate (H := H) n
    have hqueue' : queue' = [] := hend.ended hfinished
    have hnothing : q.pending ((Drain.step q H)^[n] (Drain.start cfg.ring s)).ring = [] := by
      rw [← hqueue']
      exact hend.holds.content_eq
    obtain ⟨outer, houter, hsum⟩ := hend.count
    rw [Drain.uncounted, hfinished, hexecuted, Nat.add_zero] at hsum
    rw [hcount, Target.size, Nat.mod_eq_of_lt (by omega)] at houter
    have hends : EndsQuietly q H n (Drain.start cfg.ring s) :=
      ⟨hfinished, hposted.symm.trans hnothing, by
        change _ = 0
        omega⟩
    exact hends.quiet hsound.holds hsound.handlers rfl rfl
  · intro hquiet
    obtain ⟨d', ⟨n, rfl⟩, hfinished, hexecuted, hcount, hposted, hholds⟩ :=
      hquiet.reaches (q := q) (d := Drain.start cfg.ring s) (n := 0) hsound.holds
        hsound.handlers rfl rfl rfl (Nat.zero_mod _).symm
    refine ⟨n, hfinished, hexecuted, ?_, hholds.content_eq.trans hposted.symm⟩
    rw [hcount, Nat.zero_add]
    exact Nat.mod_eq_of_lt hlength

/-- The handler 10 posts the handler 20, and every handler returns. -/
def chain : Handlers Unit (Option FwTaskletItem) where
  entry item _ := if item.handler = 10 then some ⟨20, 2, 2⟩ else none
  act
    | some item => .post item fun _ => none
    | none => .done ()

/-- An empty queue of two slots. -/
def emptyRing : RingBuffer FwTaskletItem := ⟨List.replicate 2 default, 0, 0⟩

theorem fwTaskletDispatchAll_iff_sample :
    DispatchesQueued two chain (fwTaskletPost two emptyRing 20 1 1).2 () := by
  refine (fwTaskletDispatchAll_iff two chain (List.replicate 2 default) 2 (by decide) rfl emptyRing
    rfl _ _ (Run.single (Step.post (idle emptyRing) ⟨20, 1, 1⟩)) ()).mpr ?_
  have hpending : two.pending (fwTaskletPost two emptyRing 20 1 1).2 = [⟨20, 1, 1⟩] := by
    decide +kernel
  change Quiet chain (two.pending (fwTaskletPost two emptyRing 20 1 1).2) ()
  rw [hpending]
  exact Quiet.cons (Silent.done rfl) (Quiet.nil ())

/-- The call executes and counts what a handler has posted while the call was under way. -/
theorem fwTaskletDispatchAll_drains_posts :
    two.pending (fwTaskletPost two emptyRing 10 1 1).2 = [⟨10, 1, 1⟩] ∧
      ¬ DispatchesQueued two chain (fwTaskletPost two emptyRing 10 1 1).2 () := by
  refine ⟨by decide +kernel, ?_⟩
  rintro ⟨n, hfinished, -, hcount, -⟩
  have hend : ((Drain.step two chain)^[25] (Drain.start
      (fwTaskletPost two emptyRing 10 1 1).2 ())).point = .finished := rfl
  rw [finished_unique hfinished hend] at hcount
  revert hcount
  decide +kernel

end ZeroEmbedded.Tasklet
