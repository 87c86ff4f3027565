import ZeroEmbedded.Foundation.Runs
import ZeroEmbedded.Types

/-!
# The table-driven state machine

`fsm.c`. A dispatch takes the first row of the table that fits the event, the
current state and its own guard. The guards of the rows ahead of it have been
called by then, and may have changed the context.

## Implementation notes

A callback is a function on what the context pointer refers to, so that it does
not call back into the machine. A call of the machine returns the hooks and
actions that it has run; an action is named by the index of its row.
-/

namespace ZeroEmbedded.Fsm

open Foundation

variable {σ : Type}

/-- `FW_FSM_STATE_ANY`. -/
def fwFsmStateAny : UInt8 := 0xFF

/-- `fw_fsm_transition_t`. -/
structure FwFsmTransition (σ : Type) where
  fromState : UInt8
  event : UInt8
  guard : Option (σ → UInt8 → Bool × σ)
  action : Option (σ → UInt8 → σ)
  toState : UInt8

/-- `fw_fsm_state_desc_t`. -/
structure FwFsmStateDesc (σ : Type) where
  state : UInt8
  onEnter : Option (σ → σ)
  onExit : Option (σ → σ)

/-- `fw_fsm_t`, with what its context pointer refers to. -/
structure FwFsm (σ : Type) where
  currentState : UInt8
  previousState : UInt8
  transitions : Option (List (FwFsmTransition σ))
  stateDescs : Option (List (FwFsmStateDesc σ))
  context : σ

/-- A callback that has run. -/
inductive FsmHook
  | enter (state : UInt8)
  | exit (state : UInt8)
  | action (row : Nat)
  deriving DecidableEq, Repr

/-- `find_state_desc`. -/
def findStateDesc (fsm : FwFsm σ) (state : UInt8) : Option (FwFsmStateDesc σ) :=
  match fsm.stateDescs with
  | none => none
  | some descs => descs.find? fun desc => desc.state = state

/-- Call a callback that may be null. -/
def callHook (fsm : FwFsm σ) (which : FsmHook) (hook : Option (σ → σ)) :
    FwFsm σ × List FsmHook :=
  match hook with
  | none => (fsm, [])
  | some f => ({ fsm with context := f fsm.context }, [which])

def callEnter (fsm : FwFsm σ) (state : UInt8) : FwFsm σ × List FsmHook :=
  callHook fsm (.enter state) ((findStateDesc fsm state).bind (·.onEnter))

def callExit (fsm : FwFsm σ) (state : UInt8) : FwFsm σ × List FsmHook :=
  callHook fsm (.exit state) ((findStateDesc fsm state).bind (·.onExit))

/-- `fw_fsm_init`. -/
def fwFsmInit (initialState : UInt8) (transitions : Option (List (FwFsmTransition σ)))
    (stateDescs : Option (List (FwFsmStateDesc σ))) (context : σ) : FwFsm σ × List FsmHook :=
  callEnter ⟨initialState, initialState, transitions, stateDescs, context⟩ initialState

/-- What `fw_fsm_dispatch` does with the row that it has found. -/
def takeTransition (fsm : FwFsm σ) (event : UInt8) (row : Nat) (t : FwFsmTransition σ) :
    FwFsm σ × List FsmHook :=
  let stateChanging : Bool := fsm.currentState ≠ t.toState
  let exited := if stateChanging then callExit fsm fsm.currentState else (fsm, [])
  let acted := callHook exited.1 (.action row) (t.action.map fun f c => f c event)
  let moved := { acted.1 with
    previousState := acted.1.currentState
    currentState := t.toState }
  let entered := if stateChanging then callEnter moved moved.currentState else (moved, [])
  (entered.1, exited.2 ++ acted.2 ++ entered.2)

/-- The loop of `fw_fsm_dispatch` from the row with index `row` on. -/
def dispatchLoop (event : UInt8) :
    List (FwFsmTransition σ) → Nat → FwFsm σ → FwStatus × FwFsm σ × List FsmHook
  | [], _, fsm => (.errNotFound, fsm, [])
  | t :: rest, row, fsm =>
      if t.event ≠ event then dispatchLoop event rest (row + 1) fsm
      else if t.fromState ≠ fsm.currentState ∧ t.fromState ≠ fwFsmStateAny then
        dispatchLoop event rest (row + 1) fsm
      else
        match t.guard with
        | none => (.ok, takeTransition fsm event row t)
        | some guard =>
            let answer := guard fsm.context event
            if ¬ answer.1 then dispatchLoop event rest (row + 1) { fsm with context := answer.2 }
            else (.ok, takeTransition { fsm with context := answer.2 } event row t)

/-- `fw_fsm_dispatch`. -/
def fwFsmDispatch (fsm : FwFsm σ) (event : UInt8) : FwStatus × FwFsm σ × List FsmHook :=
  match fsm.transitions with
  | none => (.errNotFound, fsm, [])
  | some rows => dispatchLoop event rows 0 fsm

section Semantics

/-- The row is for this event in this state. -/
def FwFsmTransition.Fits (t : FwFsmTransition σ) (state event : UInt8) : Prop :=
  t.event = event ∧ (t.fromState = state ∨ t.fromState = fwFsmStateAny)

/-- The row has no guard, or its guard accepts and leaves this context. -/
def FwFsmTransition.Accepts (t : FwFsmTransition σ) (event : UInt8) (c c' : σ) : Prop :=
  (t.guard = none ∧ c' = c) ∨ ∃ guard, t.guard = some guard ∧ guard c event = (true, c')

/-- None of the rows is taken, and the guards that were called leave this context. -/
inductive PassesOver (state event : UInt8) : List (FwFsmTransition σ) → σ → σ → Prop
  | nil (c : σ) : PassesOver state event [] c c
  | other {t : FwFsmTransition σ} {rest : List (FwFsmTransition σ)} {c c' : σ}
      (hfits : ¬ t.Fits state event) (hrest : PassesOver state event rest c c') :
      PassesOver state event (t :: rest) c c'
  | refused {t : FwFsmTransition σ} {rest : List (FwFsmTransition σ)} {c c₁ c' : σ}
      {guard : σ → UInt8 → Bool × σ} (hfits : t.Fits state event) (hguard : t.guard = some guard)
      (hanswer : guard c event = (false, c₁)) (hrest : PassesOver state event rest c₁ c') :
      PassesOver state event (t :: rest) c c'

def FwFsm.rows (fsm : FwFsm σ) : List (FwFsmTransition σ) := fsm.transitions.getD []

/-- The callback behind a hook, where there is one. -/
def FwFsm.hook (fsm : FwFsm σ) : FsmHook → Option (UInt8 → σ → σ)
  | .enter state => ((findStateDesc fsm state).bind (·.onEnter)).map fun f _ => f
  | .exit state => ((findStateDesc fsm state).bind (·.onExit)).map fun f _ => f
  | .action row => (fsm.rows[row]?.bind (·.action)).map fun f event c => f c event

def FwFsm.hasHook (fsm : FwFsm σ) (h : FsmHook) : Bool := (fsm.hook h).isSome

/-- The context after the callbacks of these hooks. -/
def FwFsm.perform (fsm : FwFsm σ) (event : UInt8) (hooks : List FsmHook) (c : σ) : σ :=
  hooks.foldl (fun c h => ((fsm.hook h).getD fun _ => id) event c) c

/-- The hooks of a transition: its action alone when the state stays the same. -/
def transitionHooks (old new : UInt8) (row : Nat) : List FsmHook :=
  if old ≠ new then [.exit old, .action row, .enter new] else [.action row]

/-- A dispatch takes the first row that fits and is not refused, or finds none and leaves both
states alone. -/
inductive Dispatches (fsm : FwFsm σ) (event : UInt8) :
    FwStatus × FwFsm σ × List FsmHook → Prop
  | taken {before after : List (FwFsmTransition σ)} {t : FwFsmTransition σ} {c c' : σ}
      (hrows : fsm.rows = before ++ t :: after)
      (hbefore : PassesOver fsm.currentState event before fsm.context c)
      (hfits : t.Fits fsm.currentState event) (haccepts : t.Accepts event c c') :
      Dispatches fsm event (.ok,
        { fsm with
          currentState := t.toState
          previousState := fsm.currentState
          context := fsm.perform event
            (transitionHooks fsm.currentState t.toState before.length) c' },
        (transitionHooks fsm.currentState t.toState before.length).filter fsm.hasHook)
  | notFound {c : σ} (hrows : PassesOver fsm.currentState event fsm.rows fsm.context c) :
      Dispatches fsm event (.errNotFound, { fsm with context := c }, [])

end Semantics

section Dispatch

variable {fsm : FwFsm σ} {event : UInt8}

theorem PassesOver.append {state : UInt8} {rows rows' : List (FwFsmTransition σ)} {c c' c'' : σ}
    (h : PassesOver state event rows c c') (h' : PassesOver state event rows' c' c'') :
    PassesOver state event (rows ++ rows') c c'' := by
  induction h with
  | nil c => exact h'
  | other hfits _ ih => exact .other hfits (ih h')
  | refused hfits hguard hanswer _ ih => exact .refused hfits hguard hanswer (ih h')

/-- A callback that is there changes the context and is recorded. -/
theorem callHook_eq (fsm : FwFsm σ) (which : FsmHook) (hook : Option (σ → σ)) :
    callHook fsm which hook =
      ({ fsm with context := hook.getD id fsm.context }, [which].filter fun _ => hook.isSome) := by
  cases hook <;> rfl

/-- A transition runs the callbacks of its hooks, in this order. -/
theorem takeTransition_eq (fsm : FwFsm σ) {row : Nat} {t : FwFsmTransition σ}
    (hrow : fsm.rows[row]? = some t) :
    takeTransition fsm event row t =
      ({ fsm with
          currentState := t.toState
          previousState := fsm.currentState
          context := fsm.perform event (transitionHooks fsm.currentState t.toState row)
            fsm.context },
        (transitionHooks fsm.currentState t.toState row).filter fsm.hasHook) := by
  have haction : fsm.hook (.action row) = t.action.map fun f event c => f c event := by
    rw [FwFsm.hook, hrow]
    rfl
  by_cases hchange : fsm.currentState ≠ t.toState
  · have hexit : (findStateDesc fsm fsm.currentState).bind (·.onExit) =
        (fsm.hook (.exit fsm.currentState)).map fun f => f event := by
      rw [FwFsm.hook, Option.map_map]
      exact (congrFun Option.map_id _).symm
    have henter : (findStateDesc fsm t.toState).bind (·.onEnter) =
        (fsm.hook (.enter t.toState)).map fun f => f event := by
      rw [FwFsm.hook, Option.map_map]
      exact (congrFun Option.map_id _).symm
    rw [takeTransition, transitionHooks, if_pos hchange]
    simp only [decide_eq_true hchange, if_true, callExit, callEnter, callHook_eq]
    change (({ fsm with
      currentState := t.toState
      previousState := fsm.currentState
      context := ((findStateDesc fsm t.toState).bind (·.onEnter)).getD id _ } : FwFsm σ),
        _ ++ [FsmHook.enter t.toState].filter fun _ =>
          ((findStateDesc fsm t.toState).bind (·.onEnter)).isSome) = _
    rw [hexit, henter]
    cases hexit' : fsm.hook (.exit fsm.currentState) <;>
      cases henter' : fsm.hook (.enter t.toState) <;> cases ht : t.action <;>
      simp [FwFsm.perform, FwFsm.hasHook, haction, hexit', henter', ht]
  · rw [takeTransition, transitionHooks, if_neg hchange]
    simp only [decide_eq_false hchange, callHook_eq]
    cases ht : t.action <;> simp [FwFsm.perform, FwFsm.hasHook, haction, ht]

/-- The loop behind rows that were passed over. -/
theorem dispatchLoop_dispatches {before rest : List (FwFsmTransition σ)} {c : σ}
    (hrows : fsm.rows = before ++ rest)
    (hbefore : PassesOver fsm.currentState event before fsm.context c) :
    Dispatches fsm event (dispatchLoop event rest before.length { fsm with context := c }) := by
  induction rest generalizing before c with
  | nil =>
      rw [List.append_nil] at hrows
      exact Dispatches.notFound (hrows ▸ hbefore)
  | cons t rest ih =>
      have hnext : fsm.rows = (before ++ [t]) ++ rest := by
        rw [hrows, List.append_assoc]
        rfl
      have hlength : (before ++ [t]).length = before.length + 1 := List.length_append
      have hskip : ∀ c', PassesOver fsm.currentState event [t] c c' → Dispatches fsm event
          (dispatchLoop event rest (before.length + 1) { fsm with context := c' }) := by
        intro c' hpass
        rw [← hlength]
        exact ih hnext (hbefore.append hpass)
      have htake : ∀ c', t.Fits fsm.currentState event → t.Accepts event c c' →
          Dispatches fsm event
            (.ok, takeTransition { fsm with context := c' } event before.length t) := by
        intro c' hfits haccepts
        have hrow : fsm.rows[before.length]? = some t := by
          rw [hrows, List.getElem?_append_right (Nat.le_refl _), Nat.sub_self,
            List.getElem?_cons_zero]
        rw [takeTransition_eq { fsm with context := c' } hrow]
        exact Dispatches.taken hrows hbefore hfits haccepts
      rw [dispatchLoop]
      split
      · next hevent => exact hskip c (.other (fun hfits => hevent hfits.1) (.nil c))
      next hevent =>
      split
      · next hfrom =>
          exact hskip c (.other (fun hfits => hfits.2.elim hfrom.1 hfrom.2) (.nil c))
      next hfrom =>
      have hfits : t.Fits fsm.currentState event := by
        refine ⟨not_not.mp hevent, ?_⟩
        by_contra hno
        exact hfrom (not_or.mp hno)
      cases hguard : t.guard with
      | none => exact htake c hfits (Or.inl ⟨hguard, rfl⟩)
      | some guard =>
          rcases hanswer : guard c event with ⟨accepted, c'⟩
          dsimp only
          rw [hanswer]
          cases accepted with
          | false => exact hskip c' (.refused hfits hguard hanswer (.nil c'))
          | true => exact htake c' hfits (Or.inr ⟨guard, hguard, hanswer⟩)

/-- A dispatch takes the first row that fits and is not refused. -/
theorem fwFsmDispatch_dispatches (fsm : FwFsm σ) (event : UInt8) :
    Dispatches fsm event (fwFsmDispatch fsm event) := by
  rw [fwFsmDispatch]
  cases htable : fsm.transitions with
  | none =>
      have hrows : fsm.rows = [] := by rw [FwFsm.rows, htable, Option.getD_none]
      refine Dispatches.notFound (c := fsm.context) ?_
      rw [hrows]
      exact .nil _
  | some rows =>
      have hrows : fsm.rows = [] ++ rows := by
        rw [FwFsm.rows, htable, Option.getD_some, List.nil_append]
      exact dispatchLoop_dispatches hrows (.nil fsm.context)

end Dispatch

section Runs

/-- A dispatch as it is seen from outside. -/
structure FsmEvent where
  event : UInt8
  status : FwStatus
  hooks : List FsmHook
  deriving DecidableEq, Repr

def FsmStep (fsm : FwFsm σ) (e : FsmEvent) (fsm' : FwFsm σ) : Prop :=
  fwFsmDispatch fsm e.event = (e.status, fsm', e.hooks)

/-- A transition of a run, by the index of its row. -/
structure Transit where
  event : UInt8
  row : Nat
  old : UInt8
  new : UInt8
  deriving DecidableEq, Repr

/-- The transition is one of its row. -/
def Transit.Taken (t : Transit) (rows : List (FwFsmTransition σ)) : Prop :=
  ∃ r, rows[t.row]? = some r ∧ r.Fits t.old t.event ∧ r.toState = t.new

/-- The state after these transitions. -/
def reached (s : UInt8) (path : List Transit) : UInt8 := path.foldl (fun _ t => t.new) s

/-- Every transition starts where the one before it has led. -/
def Chained (s : UInt8) (path : List Transit) : Prop :=
  ∀ before t after, path = before ++ t :: after → t.old = reached s before

/-- The hooks of a run: the entry of the first state, and those of each transition. -/
def pathHooks (s : UInt8) (path : List Transit) : List FsmHook :=
  .enter s :: path.flatMap fun t => transitionHooks t.old t.new t.row

/-- The state that a hook enters. -/
def FsmHook.entered : FsmHook → Option UInt8
  | .enter state => some state
  | .exit _ => none
  | .action _ => none

def lastEntered (hooks : List FsmHook) : Option UInt8 := (hooks.filterMap FsmHook.entered).getLast?

/-- A state that is left is the last one entered. -/
def LeavesEntered (hooks : List FsmHook) : Prop :=
  ∀ before s after, hooks = before ++ .exit s :: after → lastEntered before = some s

/-- The transitions behind the events and the trace of a run. -/
structure Explains (s : UInt8) (fsm : FwFsm σ) (es : List FsmEvent) (trace : List FsmHook)
    (path : List Transit) : Prop where
  chained : Chained s path
  state : fsm.currentState = reached s path
  taken : ∀ t ∈ path, t.Taken fsm.rows
  events : path.map (·.event) = (es.filter fun e => e.status = .ok).map (·.event)
  trace : trace = (pathHooks s path).filter fsm.hasHook

variable {s : UInt8} {path : List Transit}

theorem reached_concat (t : Transit) : reached s (path ++ [t]) = t.new := by
  rw [reached, List.foldl_append]
  rfl

theorem Chained.before {t : Transit} (h : Chained s (path ++ [t])) : Chained s path := by
  intro front t' after hpath
  apply h front t' (after ++ [t])
  rw [hpath, List.append_assoc, List.cons_append]

theorem Chained.concat {t : Transit} (h : Chained s path) (ht : t.old = reached s path) :
    Chained s (path ++ [t]) := by
  intro before t' after hsplit
  rcases concat_eq_append_cons hsplit with ⟨rfl, rfl, -⟩ | ⟨rest, -, hpath⟩
  · exact ht
  · exact h before t' rest hpath

theorem pathHooks_concat (t : Transit) :
    pathHooks s (path ++ [t]) = pathHooks s path ++ transitionHooks t.old t.new t.row := by
  simp [pathHooks]

theorem lastEntered_append (hooks hooks' : List FsmHook) :
    lastEntered (hooks ++ hooks') = (lastEntered hooks').or (lastEntered hooks) := by
  rw [lastEntered, List.filterMap_append, List.getLast?_append]
  rfl

/-- The last state entered is the current one. -/
theorem lastEntered_pathHooks (h : Chained s path) :
    lastEntered (pathHooks s path) = some (reached s path) := by
  induction path using List.reverseRecOn with
  | nil => rfl
  | append_singleton path t ih =>
      have hold : t.old = reached s path := h path t [] rfl
      rw [pathHooks_concat, lastEntered_append, reached_concat, ih h.before, transitionHooks]
      by_cases hchange : t.old ≠ t.new
      · rw [if_pos hchange]
        rfl
      · rw [if_neg hchange, ← hold, not_not.mp hchange]
        rfl

theorem LeavesEntered.concat {hooks : List FsmHook} {hook : FsmHook} (h : LeavesEntered hooks)
    (hleft : ∀ s, hook = .exit s → lastEntered hooks = some s) :
    LeavesEntered (hooks ++ [hook]) := by
  intro before s after hsplit
  rcases concat_eq_append_cons hsplit with ⟨rfl, hexit, -⟩ | ⟨rest, -, hhooks⟩
  · exact hleft s hexit.symm
  · exact h before s rest hhooks

/-- What a chain of transitions leaves has been entered last. -/
theorem leavesEntered_pathHooks (h : Chained s path) : LeavesEntered (pathHooks s path) := by
  induction path using List.reverseRecOn with
  | nil =>
      have hempty : LeavesEntered [] := by
        intro before s' after hsplit
        cases before <;> cases hsplit
      apply hempty.concat
      intro s' hexit
      cases hexit
  | append_singleton path t ih =>
      have hprefix : Chained s path := h.before
      have hpath : LeavesEntered (pathHooks s path) := ih hprefix
      rw [pathHooks_concat, transitionHooks]
      by_cases hchange : t.old ≠ t.new
      · rw [if_pos hchange]
        have hexit : LeavesEntered (pathHooks s path ++ [.exit t.old]) := by
          apply hpath.concat
          intro s' hs'
          cases hs'
          rw [lastEntered_pathHooks hprefix, h path t [] rfl]
        have haction : LeavesEntered (pathHooks s path ++ [.exit t.old] ++ [.action t.row]) :=
          hexit.concat fun _ hs' => by cases hs'
        have henter : LeavesEntered
            (pathHooks s path ++ [.exit t.old] ++ [.action t.row] ++ [.enter t.new]) :=
          haction.concat fun _ hs' => by cases hs'
        rwa [List.append_assoc, List.append_assoc] at henter
      · rw [if_neg hchange]
        apply hpath.concat
        intro s' hs'
        cases hs'

/-- A state whose entry is kept is still the last one entered. -/
theorem lastEntered_filter {hooks : List FsmHook} {p : FsmHook → Bool}
    (h : lastEntered hooks = some s) (hp : p (.enter s)) :
    lastEntered (hooks.filter p) = some s := by
  induction hooks using List.reverseRecOn with
  | nil => cases h
  | append_singleton hooks hook ih =>
      rw [lastEntered_append] at h
      rw [List.filter_append, lastEntered_append]
      cases hook with
      | enter s' =>
          obtain rfl : s' = s := Option.some_inj.mp h
          rw [List.filter_singleton, hp]
          rfl
      | exit s' =>
          rw [ih h]
          cases hkept : p (.exit s') <;> simp [hkept, lastEntered, FsmHook.entered]
      | action row =>
          rw [ih h]
          cases hkept : p (.action row) <;> simp [hkept, lastEntered, FsmHook.entered]

/-- The same of the callbacks that have run, for a state that has an entry hook. -/
theorem LeavesEntered.filter {hooks before after : List FsmHook} {p : FsmHook → Bool}
    (h : LeavesEntered hooks) (hsplit : hooks.filter p = before ++ .exit s :: after)
    (hp : p (.enter s)) : lastEntered before = some s := by
  obtain ⟨front, back, rfl, rfl, hback⟩ := List.filter_eq_append_iff.mp hsplit
  obtain ⟨skipped, rest, rfl, hskipped, -, -⟩ := List.filter_eq_cons_iff.mp hback
  have hentered : lastEntered (front ++ skipped) = some s := by
    apply h _ s rest
    rw [List.append_assoc]
  have hkept := lastEntered_filter hentered hp
  rwa [List.filter_append, List.filter_eq_nil_iff.mpr hskipped, List.append_nil] at hkept

section Init

variable {initialState : UInt8} {transitions : Option (List (FwFsmTransition σ))}
  {stateDescs : Option (List (FwFsmStateDesc σ))} {context : σ}

theorem fwFsmInit_tables :
    (fwFsmInit initialState transitions stateDescs context).1.transitions = transitions ∧
      (fwFsmInit initialState transitions stateDescs context).1.stateDescs = stateDescs := by
  rw [fwFsmInit, callEnter, callHook_eq]
  exact ⟨rfl, rfl⟩

theorem fwFsmInit_state :
    (fwFsmInit initialState transitions stateDescs context).1.currentState = initialState := by
  rw [fwFsmInit, callEnter, callHook_eq]

/-- Initialization enters the first state. -/
theorem fwFsmInit_hooks :
    (fwFsmInit initialState transitions stateDescs context).2 =
      [FsmHook.enter initialState].filter
        (fwFsmInit initialState transitions stateDescs context).1.hasHook := by
  rw [fwFsmInit, callEnter, callHook_eq, List.filter_singleton, List.filter_singleton,
    FwFsm.hasHook, FwFsm.hook, Option.isSome_map]
  rfl

end Init

/-- An event continues the explanation of a run. -/
theorem Explains.step {fsm fsm' : FwFsm σ} {es : List FsmEvent} {trace : List FsmHook}
    {e : FsmEvent} (h : Explains s fsm es trace path) (hstep : FsmStep fsm e fsm') :
    fsm'.transitions = fsm.transitions ∧ fsm'.stateDescs = fsm.stateDescs ∧
      ∃ path', Explains s fsm' (es ++ [e]) (trace ++ e.hooks) path' := by
  have hdispatch := fwFsmDispatch_dispatches fsm e.event
  rw [hstep] at hdispatch
  obtain ⟨event, status, hooks⟩ := e
  cases hdispatch with
  | @taken before after t c c' hrows hbefore hfits haccepts =>
      refine ⟨rfl, rfl, path ++ [⟨event, before.length, fsm.currentState, t.toState⟩], ?_⟩
      constructor
      · exact h.chained.concat h.state
      · exact (reached_concat ⟨event, before.length, fsm.currentState, t.toState⟩).symm
      · intro u hu
        rcases List.mem_append.mp hu with hu | hu
        · exact h.taken u hu
        · obtain rfl := List.mem_singleton.mp hu
          refine ⟨t, ?_, hfits, rfl⟩
          change fsm.rows[before.length]? = some t
          rw [hrows, List.getElem?_append_right (Nat.le_refl _), Nat.sub_self,
            List.getElem?_cons_zero]
      · rw [List.map_append, List.filter_append, List.map_append, h.events]
        rfl
      · rw [pathHooks_concat, List.filter_append, h.trace]
        rfl
  | notFound hrows =>
      refine ⟨rfl, rfl, path, ?_⟩
      constructor
      · exact h.chained
      · exact h.state
      · exact h.taken
      · rw [List.filter_append, List.map_append, h.events]
        exact (List.append_nil _).symm
      · rw [List.append_nil]
        exact h.trace

/-- Every run of a machine is explained by a chain of transitions: each dispatch takes the first
row that fits and is not refused, and a state that is left is the last one entered. -/
theorem fwFsmDispatch_semantics {initialState : UInt8}
    {transitions : Option (List (FwFsmTransition σ))}
    {stateDescs : Option (List (FwFsmStateDesc σ))} {context : σ} {fsm : FwFsm σ} {es : List FsmEvent}
    (run : Run FsmStep (fwFsmInit initialState transitions stateDescs context).1 es fsm) :
    fsm.transitions = transitions ∧ fsm.stateDescs = stateDescs ∧
      (∀ event, Dispatches fsm event (fwFsmDispatch fsm event)) ∧
      ∃ path trace,
        trace = (fwFsmInit initialState transitions stateDescs context).2 ++ es.flatMap (·.hooks) ∧
        Explains initialState fsm es trace path ∧
        LeavesEntered (pathHooks initialState path) ∧
        ∀ before s after, trace = before ++ .exit s :: after → fsm.hasHook (.enter s) →
          lastEntered before = some s := by
  have hexplained : fsm.transitions = transitions ∧ fsm.stateDescs = stateDescs ∧
      ∃ path, Explains initialState fsm es
        ((fwFsmInit initialState transitions stateDescs context).2 ++ es.flatMap (·.hooks))
        path := by
    refine run.invariant (fun fsm es => fsm.transitions = transitions ∧
      fsm.stateDescs = stateDescs ∧ ∃ path, Explains initialState fsm es
        ((fwFsmInit initialState transitions stateDescs context).2 ++ es.flatMap (·.hooks))
        path) ?start ?step
    case start =>
      refine ⟨fwFsmInit_tables.1, fwFsmInit_tables.2, [], ?_⟩
      constructor
      · intro before t after hsplit
        cases before <;> cases hsplit
      · exact fwFsmInit_state
      · intro t ht
        cases ht
      · rfl
      · exact (List.append_nil _).trans fwFsmInit_hooks
    case step =>
      rintro fsm es e fsm' ⟨htransitions, hdescs, path, hpath⟩ hstep
      obtain ⟨hrows', hdescs', path', hpath'⟩ := hpath.step hstep
      refine ⟨hrows'.trans htransitions, hdescs'.trans hdescs, path', ?_⟩
      rwa [List.flatMap_append, List.flatMap_singleton, ← List.append_assoc]
  obtain ⟨htransitions, hdescs, path, hpath⟩ := hexplained
  have hleaves := leavesEntered_pathHooks hpath.chained
  refine ⟨htransitions, hdescs, fwFsmDispatch_dispatches fsm, path, _, rfl, hpath, hleaves, ?_⟩
  intro before s after hsplit hentry
  rw [hpath.trace] at hsplit
  exact hleaves.filter hsplit hentry

/-- A guarded row, and one for every state that takes the machine back to its first state. -/
def sampleFsm : FwFsm Nat × List FsmHook :=
  fwFsmInit 1 (some [⟨1, 1, some fun c _ => (c > 1, c + 1), some fun c _ => c + 1, 2⟩,
    ⟨fwFsmStateAny, 9, none, none, 1⟩]) (some [⟨1, some (· + 1), some id⟩]) 0

theorem fwFsmDispatch_semantics_sample :
    ∃ fsm path, Explains 1 (σ := Nat) fsm
      [⟨1, .errNotFound, []⟩, ⟨1, .ok, [.exit 1, .action 0]⟩, ⟨9, .ok, [.enter 1]⟩]
      [.enter 1, .exit 1, .action 0, .enter 1] path := by
  have hrefused : FsmStep sampleFsm.1 ⟨1, .errNotFound, []⟩ _ := rfl
  have htaken : FsmStep (fwFsmDispatch sampleFsm.1 1).2.1 ⟨1, .ok, [.exit 1, .action 0]⟩ _ := rfl
  have hback : FsmStep (fwFsmDispatch (fwFsmDispatch sampleFsm.1 1).2.1 1).2.1
      ⟨9, .ok, [.enter 1]⟩ _ := rfl
  have run := (((Run.nil sampleFsm.1).snoc hrefused).snoc htaken).snoc hback
  obtain ⟨-, -, -, path, trace, rfl, hpath, -⟩ := fwFsmDispatch_semantics run
  exact ⟨_, path, hpath⟩

end Runs

end ZeroEmbedded.Fsm
