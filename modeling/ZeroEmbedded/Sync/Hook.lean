import ZeroEmbedded.Foundation.ExchangeSort
import ZeroEmbedded.Types

/-!
# The hook table

`hook.c`. A dispatch collects the slots of the hooks for its event, sorts them
by priority and calls their callbacks. The callbacks may register and
unregister hooks in the same table while the dispatch goes on.

A dispatch keeps the slots that it has collected, and looks only at the
callback in a slot when its turn comes. `fw_hook_unregister` leaves the
callback in place, and `fw_hook_register` may give the slot to another event.

A free slot is taken only when no active entry is for the same event and the
same callback, so that every hook has one slot. The collected slots of a
dispatch are then the hooks of the event, and the sorting loops put them in the
order of their priorities.

## Implementation notes

What a callback does is not part of the table. A run is given by a script: the
operations on the table and the result of the first call, of the second one,
and so on. The events of a run record each operation and each call together
with the table at that moment.
-/

namespace ZeroEmbedded.Hook

open Foundation

section Table

/-- `FW_NULL`. -/
def fwNull : Nat := 0

/-- `fw_hook_action_t`. -/
inductive FwHookAction
  | stop
  | continue
  deriving DecidableEq, Repr

/-- `fw_hook_entry_t`; the callback and the cookie are addresses. -/
structure FwHookEntry where
  eventId : UInt32
  callback : Nat
  cookie : Nat
  priority : UInt8
  active : Bool
  deriving DecidableEq, Repr

/-- `fw_hook_table_t`. -/
structure FwHookTable where
  entries : Vector FwHookEntry 32
  count : Nat
  totalDispatches : Nat
  totalIntercepts : Nat
  deriving DecidableEq, Repr

/-- `fw_hook_table_init`. -/
def fwHookTableInit : FwHookTable :=
  ⟨Vector.replicate 32 ⟨0, fwNull, fwNull, 0, false⟩, 0, 0, 0⟩

variable (T : Target)

/-- The entry is active for this event and this callback. -/
def FwHookEntry.matches (e : FwHookEntry) (eventId : UInt32) (callback : Nat) : Bool :=
  e.active && e.eventId = eventId && e.callback = callback

/-- The loop of `fw_hook_register` over the remaining slots: the slot of the same hook, or the first
free slot if there is one. -/
def registerLoop (table : FwHookTable) (eventId : UInt32) (callback : Nat) :
    List (Fin 32) → Option (Fin 32) → Fin 32 ⊕ Option (Fin 32)
  | [], freeSlot => .inr freeSlot
  | i :: rest, freeSlot =>
      if table.entries[i].active then
        if table.entries[i].eventId = eventId ∧ table.entries[i].callback = callback then .inl i
        else registerLoop table eventId callback rest freeSlot
      else if freeSlot = none then registerLoop table eventId callback rest (some i)
      else registerLoop table eventId callback rest freeSlot

/-- `fw_hook_register`. -/
def fwHookRegister (table : FwHookTable) (eventId : UInt32) (callback : Nat) (priority : UInt8)
    (cookie : Nat) : FwStatus × FwHookTable :=
  if callback = fwNull then (.errInvalidArg, table)
  else
    match registerLoop table eventId callback (List.finRange 32) none with
    | .inl i =>
        (.ok, { table with
          entries := table.entries.set i
            { table.entries[i] with priority := priority, cookie := cookie } })
    | .inr none => (.errBufferOverflow, table)
    | .inr (some i) =>
        (.ok, { table with
          entries := table.entries.set i ⟨eventId, callback, cookie, priority, true⟩
          count := T.size (table.count + 1) })

/-- The loop of `fw_hook_unregister`: the first slot of the hook. -/
def findHook (table : FwHookTable) (eventId : UInt32) (callback : Nat) : Option (Fin 32) :=
  (List.finRange 32).find? fun i => table.entries[i].matches eventId callback

/-- `fw_hook_unregister`. -/
def fwHookUnregister (table : FwHookTable) (eventId : UInt32) (callback : Nat) :
    FwStatus × FwHookTable :=
  if callback = fwNull then (.errInvalidArg, table)
  else
    match findHook table eventId callback with
    | none => (.errNotFound, table)
    | some i =>
        (.ok, { table with
          entries := table.entries.set i { table.entries[i] with active := false }
          count := if table.count > 0 then table.count - 1 else table.count })

/-- An operation of a callback on the table. -/
inductive HookOp
  | register (eventId : UInt32) (callback : Nat) (priority : UInt8) (cookie : Nat)
  | unregister (eventId : UInt32) (callback : Nat)
  deriving DecidableEq, Repr

/-- The table after an operation. -/
def HookOp.run (table : FwHookTable) : HookOp → FwHookTable
  | .register eventId callback priority cookie =>
      (fwHookRegister T table eventId callback priority cookie).2
  | .unregister eventId callback => (fwHookUnregister table eventId callback).2

/-- What a callback does when it is called. -/
structure Reaction where
  ops : List HookOp
  action : FwHookAction

/-- A callback that has been called: its slot, and what it was called with. -/
structure HookCall where
  slot : Fin 32
  callback : Nat
  cookie : Nat

/-- What happens in a dispatch, with the table at that moment. -/
inductive HookEvent
  | op (op : HookOp) (table : FwHookTable)
  | call (call : HookCall) (table : FwHookTable)

/-- The operations of a callback. -/
def runOps (table : FwHookTable) : List HookOp → FwHookTable × List HookEvent
  | [] => (table, [])
  | op :: ops =>
      let rest := runOps (op.run T table) ops
      (rest.1, .op op table :: rest.2)

/-- The slots of the active entries for an event. -/
def collect (table : FwHookTable) (eventId : UInt32) : List (Fin 32) :=
  (List.finRange 32).filter fun i => table.entries[i].active && table.entries[i].eventId = eventId

/-- A comparison of the sorting loops. -/
def sortStep (table : FwHookTable) (i : Nat) (matched : Array (Fin 32)) (j : Nat) :
    Array (Fin 32) :=
  match matched[i]?, matched[j]? with
  | some a, some b =>
      if table.entries[a].priority > table.entries[b].priority then matched.swapIfInBounds i j
      else matched
  | _, _ => matched

/-- The sorting loops of `fw_hook_dispatch`. -/
def sortMatched (table : FwHookTable) (matched : Array (Fin 32)) : Array (Fin 32) :=
  (List.range matched.size).foldl
    (fun m i => (List.range' (i + 1) (matched.size - (i + 1))).foldl (sortStep table i) m) matched

/-- The loop that calls the remaining hooks, where `n` callbacks have been called. -/
def executeLoop (script : Nat → Reaction) :
    List (Fin 32) → Nat → FwHookTable → FwHookAction × FwHookTable × List HookEvent
  | [], _, table => (.continue, table, [])
  | i :: rest, n, table =>
      let e := table.entries[i]
      if e.callback ≠ fwNull then
        let after := runOps T table (script n).ops
        let events := .call ⟨i, e.callback, e.cookie⟩ table :: after.2
        if (script n).action = .stop then
          (.stop, { after.1 with totalIntercepts := T.size (after.1.totalIntercepts + 1) }, events)
        else
          let others := executeLoop script rest (n + 1) after.1
          (others.1, others.2.1, events ++ others.2.2)
      else executeLoop script rest n table

/-- `fw_hook_dispatch`. -/
def fwHookDispatch (script : Nat → Reaction) (table : FwHookTable) (eventId : UInt32) :
    FwHookAction × FwHookTable × List HookEvent :=
  let table := { table with totalDispatches := T.size (table.totalDispatches + 1) }
  let matched := collect table eventId
  if matched.length = 0 then (.continue, table, [])
  else executeLoop T script (sortMatched table matched.toArray).toList 0 table

end Table

section Stale

variable {T : Target} {table : FwHookTable} {eventId : UInt32} {slots : List (Fin 32)}
  {lost : List (Fin 32)}

/-- The slot has an active entry for the event. -/
def Holds (table : FwHookTable) (eventId : UInt32) (i : Fin 32) : Prop :=
  table.entries[i].active = true ∧ table.entries[i].eventId = eventId

/-- The slot has an active entry for the event with this callback and this cookie. -/
def HookCall.RegisteredAt (call : HookCall) (eventId : UInt32) (table : FwHookTable)
    (i : Fin 32) : Prop :=
  Holds table eventId i ∧ table.entries[i].callback = call.callback ∧
    table.entries[i].cookie = call.cookie

/-- The called hook is registered for the event. -/
def HookCall.Registered (call : HookCall) (eventId : UInt32) (table : FwHookTable) : Prop :=
  ∃ i, call.RegisteredAt eventId table i

instance (call : HookCall) (eventId : UInt32) (table : FwHookTable) (i : Fin 32) :
    Decidable (call.RegisteredAt eventId table i) :=
  inferInstanceAs (Decidable ((_ ∧ _) ∧ _ ∧ _))

instance (call : HookCall) (eventId : UInt32) (table : FwHookTable) :
    Decidable (call.Registered eventId table) :=
  inferInstanceAs (Decidable (∃ i, call.RegisteredAt eventId table i))

/-- The slots that hooks for the event have lost: one that is unregistered loses its slot, and a
hook for the event that is registered in the slot gets it back. -/
def lostAfter (eventId : UInt32) (table : FwHookTable) (lost : List (Fin 32)) :
    HookOp → List (Fin 32)
  | .unregister event callback =>
      if callback = fwNull then lost
      else
        match findHook table event callback with
        | none => lost
        | some i => i :: lost
  | .register event callback _ _ =>
      if callback = fwNull then lost
      else
        match registerLoop table event callback (List.finRange 32) none with
        | .inr (some i) => if event = eventId then lost.filter (· ≠ i) else lost
        | _ => lost

/-- A dispatch at the turn of a slot: the table, the slots that hooks for the event have lost, and
the number of callbacks that have been called. -/
structure Turn where
  table : FwHookTable
  lost : List (Fin 32)
  calls : Nat

variable (T) in
/-- What an operation does to the table and to the lost slots. -/
def Turn.run (eventId : UInt32) (turn : Turn) (op : HookOp) : Turn :=
  { turn with table := op.run T turn.table, lost := lostAfter eventId turn.table turn.lost op }

variable (T) in
/-- The turn behind that of a callback. -/
def Turn.next (script : Nat → Reaction) (eventId : UInt32) (turn : Turn) : Turn :=
  { (script turn.calls).ops.foldl (Turn.run T eventId) turn with calls := turn.calls + 1 }

variable (T) in
/-- The slots whose turns come: a slot that has no callback then is passed over, and the callback of
any other one lets the event pass or ends the dispatch. -/
inductive Comes (script : Nat → Reaction) (eventId : UInt32) :
    Turn → List (Fin 32) → Fin 32 → Turn → Prop
  | first (turn : Turn) (i : Fin 32) (rest : List (Fin 32)) :
      Comes script eventId turn (i :: rest) i turn
  | passed {turn later : Turn} {i j : Fin 32} {rest : List (Fin 32)}
      (hnull : turn.table.entries[i].callback = fwNull)
      (hcomes : Comes script eventId turn rest j later) :
      Comes script eventId turn (i :: rest) j later
  | called {turn later : Turn} {i j : Fin 32} {rest : List (Fin 32)}
      (hcallback : turn.table.entries[i].callback ≠ fwNull)
      (haction : (script turn.calls).action = .continue)
      (hcomes : Comes script eventId (turn.next T script eventId) rest j later) :
      Comes script eventId turn (i :: rest) j later

/-- The slot has no callback, or still belongs to the event, or its callback and its cookie are
registered in another slot. -/
def Turn.Spares (eventId : UInt32) (turn : Turn) (i : Fin 32) : Prop :=
  turn.table.entries[i].callback = fwNull ∨ i ∉ turn.lost ∨ ∃ j ≠ i, HookCall.RegisteredAt
    ⟨i, turn.table.entries[i].callback, turn.table.entries[i].cookie⟩ eventId turn.table j

/-- No callback takes the slot of a hook away from the event before the turn of the hook has come,
unless the same callback is registered with the same cookie in another slot then. -/
def Spares (T : Target) (script : Nat → Reaction) (eventId : UInt32) (table : FwHookTable) : Prop :=
  ∀ i turn, Comes T script eventId ⟨table, [], 0⟩
    (sortMatched table (collect table eventId).toArray).toList i turn → turn.Spares eventId i

/-- The lost slots are those that have no entry for the event. -/
def Tracks (eventId : UInt32) (lost : List (Fin 32)) (table : FwHookTable)
    (slots : List (Fin 32)) : Prop :=
  ∀ i ∈ slots, i ∈ lost ↔ ¬ Holds table eventId i

theorem getElem_set_fin {α : Type} (v : Vector α 32) (i j : Fin 32) (x : α) :
    (v.set i x)[j] = if i = j then x else v[j] := by
  change (v.set i.val x i.isLt)[j.val] = _
  rw [Vector.getElem_set]
  simp only [Fin.ext_iff]
  rfl

/-- Slots that an update does not touch are held as before. -/
theorem holds_set_of_ne {entry : FwHookEntry} {count dispatches intercepts : Nat} {i j : Fin 32}
    (hne : i ≠ j) :
    Holds ⟨table.entries.set i entry, count, dispatches, intercepts⟩ eventId j ↔
      Holds table eventId j := by
  rw [Holds, Holds, getElem_set_fin, if_neg hne]

theorem holds_set_self {entry : FwHookEntry} {count dispatches intercepts : Nat} {i : Fin 32} :
    Holds ⟨table.entries.set i entry, count, dispatches, intercepts⟩ eventId i ↔
      entry.active = true ∧ entry.eventId = eventId := by
  rw [Holds, getElem_set_fin, if_pos rfl]

theorem FwHookEntry.matches_iff {e : FwHookEntry} {event : UInt32} {callback : Nat} :
    e.matches event callback = true ↔
      (e.active = true ∧ e.eventId = event) ∧ e.callback = callback := by
  rw [FwHookEntry.matches, Bool.and_eq_true, Bool.and_eq_true, decide_eq_true_iff,
    decide_eq_true_iff]

/-- The loop of `fw_hook_register` finds the first slot of the hook, or else the first free slot. -/
theorem registerLoop_eq (table : FwHookTable) (event : UInt32) (callback : Nat)
    (rest : List (Fin 32)) (freeSlot : Option (Fin 32)) :
    registerLoop table event callback rest freeSlot =
      match rest.find? fun i => table.entries[i].matches event callback with
      | some i => .inl i
      | none => .inr (freeSlot.or (rest.find? fun i => !table.entries[i].active)) := by
  induction rest generalizing freeSlot with
  | nil => rw [registerLoop, List.find?_nil, List.find?_nil, Option.or_none]
  | cons i rest ih =>
      rw [registerLoop, List.find?_cons, List.find?_cons]
      by_cases hactive : table.entries[i].active = true
      · rw [if_pos hactive]
        split
        · next hsame =>
            rw [FwHookEntry.matches_iff.mpr ⟨⟨hactive, hsame.1⟩, hsame.2⟩]
        · next hother =>
            have hmatches : table.entries[i].matches event callback = false := by
              refine Bool.eq_false_iff.mpr fun hmatches => hother ?_
              obtain ⟨⟨-, hevent⟩, hcallback⟩ := FwHookEntry.matches_iff.mp hmatches
              exact ⟨hevent, hcallback⟩
            rw [hmatches, hactive]
            exact ih freeSlot
      · have hmatches : table.entries[i].matches event callback = false :=
          Bool.eq_false_iff.mpr fun hmatches => hactive (FwHookEntry.matches_iff.mp hmatches).1.1
        rw [if_neg hactive, hmatches, Bool.eq_false_iff.mpr hactive]
        -- only the first free slot is kept
        cases freeSlot with
        | none => exact ih (some i)
        | some j => exact ih (some j)

/-- A free slot that the loop of `fw_hook_register` finds has no active entry. -/
theorem registerLoop_free {event : UInt32} {callback : Nat} {rest : List (Fin 32)} {i : Fin 32}
    (hloop : registerLoop table event callback rest none = .inr (some i)) :
    table.entries[i].active = false := by
  rw [registerLoop_eq] at hloop
  split at hloop
  · cases hloop
  · have hfind : (rest.find? fun i => !table.entries[i].active) = some i := Sum.inr.inj hloop
    have hfree := List.find?_some hfind
    exact (Bool.not_eq_true' _).mp hfree

/-- The lost slots follow `fw_hook_unregister`. -/
theorem Tracks.unregister {event : UInt32} {callback : Nat} (h : Tracks eventId lost table slots) :
    Tracks eventId (lostAfter eventId table lost (.unregister event callback))
      (fwHookUnregister table event callback).2 slots := by
  intro j hj
  rw [lostAfter, fwHookUnregister]
  split
  · exact h j hj
  · cases hfind : findHook table event callback with
    | none => exact h j hj
    | some i =>
        change j ∈ i :: lost ↔ ¬ Holds ⟨table.entries.set i _, _, _, _⟩ eventId j
        by_cases heq : i = j
        · subst heq
          rw [holds_set_self]
          exact iff_of_true List.mem_cons_self (fun hactive => Bool.noConfusion hactive.1)
        · rw [holds_set_of_ne heq, List.mem_cons, or_iff_right (Ne.symm heq)]
          exact h j hj

/-- The lost slots follow `fw_hook_register`. -/
theorem Tracks.register {event : UInt32} {callback cookie : Nat} {priority : UInt8}
    (h : Tracks eventId lost table slots) :
    Tracks eventId (lostAfter eventId table lost (.register event callback priority cookie))
      (fwHookRegister T table event callback priority cookie).2 slots := by
  intro j hj
  rw [lostAfter, fwHookRegister]
  split
  · exact h j hj
  · cases hloop : registerLoop table event callback (List.finRange 32) none with
    | inl i =>
        change j ∈ lost ↔ ¬ Holds ⟨table.entries.set i _, _, _, _⟩ eventId j
        by_cases heq : i = j
        · subst heq
          rw [holds_set_self]
          exact h i hj
        · rw [holds_set_of_ne heq]
          exact h j hj
    | inr freeSlot =>
        cases freeSlot with
        | none => exact h j hj
        | some i =>
            have hfree : table.entries[i].active = false := registerLoop_free hloop
            change j ∈ (if event = eventId then lost.filter (· ≠ i) else lost) ↔
              ¬ Holds ⟨table.entries.set i _, _, _, _⟩ eventId j
            by_cases heq : i = j
            · subst heq
              rw [holds_set_self]
              split
              · next hevent => simp [hevent]
              · next hevent =>
                  have hlost : i ∈ lost := (h i hj).mpr fun hholds => by
                    rw [Holds, hfree] at hholds
                    exact Bool.noConfusion hholds.1
                  exact iff_of_true hlost fun hheld => hevent hheld.2
            · rw [holds_set_of_ne heq, ← h j hj]
              split
              · simp [List.mem_filter, Ne.symm heq]
              · rfl

/-- The operations of a callback call nothing themselves. -/
theorem call_notMem_runOps (ops : List HookOp) (call : HookCall) (t : FwHookTable) :
    .call call t ∉ (runOps T table ops).2 := by
  induction ops generalizing table with
  | nil => exact List.not_mem_nil
  | cons op ops ih =>
      intro hmem
      rcases List.mem_cons.mp hmem with hfirst | hrest
      · cases hfirst
      · exact ih hrest

/-- The lost slots follow every operation. -/
theorem Tracks.run {turn : Turn} (h : Tracks eventId turn.lost turn.table slots) (op : HookOp) :
    Tracks eventId (turn.run T eventId op).lost (turn.run T eventId op).table slots := by
  cases op with
  | register event callback priority cookie => exact h.register
  | unregister event callback => exact h.unregister

/-- The operations of a callback are followed by the lost slots. -/
theorem Tracks.foldl_run {turn : Turn} (h : Tracks eventId turn.lost turn.table slots)
    (ops : List HookOp) :
    (ops.foldl (Turn.run T eventId) turn).table = (runOps T turn.table ops).1 ∧
      Tracks eventId (ops.foldl (Turn.run T eventId) turn).lost
        (ops.foldl (Turn.run T eventId) turn).table slots := by
  induction ops generalizing turn with
  | nil => exact ⟨rfl, h⟩
  | cons op ops ih => exact ih (h.run op)

/-- A call of a tracked slot finds its hook registered exactly when the slot is not lost or the
hook is registered elsewhere. -/
theorem Tracks.registered_iff (h : Tracks eventId lost table slots) {i : Fin 32} (hi : i ∈ slots) :
    HookCall.Registered ⟨i, table.entries[i].callback, table.entries[i].cookie⟩ eventId table ↔
      i ∉ lost ∨ ∃ j ≠ i, HookCall.RegisteredAt ⟨i, table.entries[i].callback,
        table.entries[i].cookie⟩ eventId table j := by
  rw [h i hi, not_not]
  constructor
  · rintro ⟨j, hj⟩
    by_cases heq : j = i
    · subst heq
      exact Or.inl hj.1
    · exact Or.inr ⟨j, heq, hj⟩
  · rintro (hholds | ⟨j, -, hj⟩)
    · exact ⟨i, hholds, rfl, rfl⟩
    · exact ⟨j, hj⟩

/-- What holds at the turns that come holds at the first one, and at those of the other slots. -/
theorem comes_cons_iff {script : Nat → Reaction} {P : Fin 32 → Turn → Prop} {turn : Turn}
    {i : Fin 32} {rest : List (Fin 32)} :
    (∀ j later, Comes T script eventId turn (i :: rest) j later → P j later) ↔
      P i turn ∧
        (turn.table.entries[i].callback = fwNull →
          ∀ j later, Comes T script eventId turn rest j later → P j later) ∧
        (turn.table.entries[i].callback ≠ fwNull → (script turn.calls).action = .continue →
          ∀ j later, Comes T script eventId (turn.next T script eventId) rest j later →
            P j later) := by
  constructor
  · intro hall
    refine ⟨hall _ _ (.first _ _ _), ?_, ?_⟩
    · exact fun hnull j later hcomes => hall j later (.passed hnull hcomes)
    · exact fun hcallback haction j later hcomes => hall j later (.called hcallback haction hcomes)
  · rintro ⟨hfirst, hpassed, hcalled⟩ j later hcomes
    cases hcomes with
    | first => exact hfirst
    | passed hnull hcomes => exact hpassed hnull j later hcomes
    | called hcallback haction hcomes => exact hcalled hcallback haction j later hcomes

/-- The calls of the loop, slot by slot. -/
theorem executeLoop_calls_iff (script : Nat → Reaction) {i : Fin 32} {rest : List (Fin 32)}
    {n : Nat} {table : FwHookTable} {P : HookCall → FwHookTable → Prop} :
    (∀ call t, .call call t ∈ (executeLoop T script (i :: rest) n table).2.2 → P call t) ↔
      (table.entries[i].callback = fwNull →
        ∀ call t, .call call t ∈ (executeLoop T script rest n table).2.2 → P call t) ∧
      (table.entries[i].callback ≠ fwNull →
        P ⟨i, table.entries[i].callback, table.entries[i].cookie⟩ table ∧
        ((script n).action = .continue → ∀ call t, .call call t ∈
          (executeLoop T script rest (n + 1) (runOps T table (script n).ops).1).2.2 →
            P call t)) := by
  rw [executeLoop]
  dsimp only
  by_cases hnull : table.entries[i].callback = fwNull
  · rw [if_neg (not_not_intro hnull)]
    exact ⟨fun hall => ⟨fun _ => hall, fun hcallback => absurd hnull hcallback⟩,
      fun hall => hall.1 hnull⟩
  · rw [if_pos hnull]
    have hnone : ∀ call t, .call call t ∉ (runOps T table (script n).ops).2 :=
      call_notMem_runOps (script n).ops
    cases haction : (script n).action with
    | stop =>
        -- the dispatch ends here
        rw [if_pos rfl]
        constructor
        · intro hall
          exact ⟨fun h => absurd h hnull, fun _ => ⟨hall _ _ List.mem_cons_self, nofun⟩⟩
        · rintro ⟨-, hcalled⟩ call t hmem
          rcases List.mem_cons.mp hmem with heq | hmem
          · cases heq
            exact (hcalled hnull).1
          · exact (hnone call t hmem).elim
    | «continue» =>
        rw [if_neg (by decide)]
        constructor
        · intro hall
          refine ⟨fun h => absurd h hnull, fun _ => ⟨hall _ _ List.mem_cons_self, ?_⟩⟩
          exact fun _ call t hmem =>
            hall call t (List.mem_cons_of_mem _ (List.mem_append_right _ hmem))
        · rintro ⟨-, hcalled⟩ call t hmem
          obtain ⟨hfirst, hothers⟩ := hcalled hnull
          rcases List.mem_cons.mp hmem with heq | hmem
          · cases heq
            exact hfirst
          · rcases List.mem_append.mp hmem with hmem | hmem
            · exact (hnone call t hmem).elim
            · exact hothers rfl call t hmem

/-- The loop calls only registered hooks exactly when the callbacks spare the slots. -/
theorem executeLoop_iff (script : Nat → Reaction) {rest : List (Fin 32)} {turn : Turn}
    (hrest : ∀ i ∈ rest, i ∈ slots) (h : Tracks eventId turn.lost turn.table slots) :
    (∀ call t, .call call t ∈ (executeLoop T script rest turn.calls turn.table).2.2 →
      call.Registered eventId t) ↔
      ∀ i later, Comes T script eventId turn rest i later → later.Spares eventId i := by
  induction rest generalizing turn with
  | nil => exact iff_of_true (fun _ _ hmem => (List.not_mem_nil hmem).elim) nofun
  | cons i rest ih =>
      have hothers : ∀ j ∈ rest, j ∈ slots := fun j hj => hrest j (List.mem_cons_of_mem _ hj)
      have hcall := h.registered_iff (hrest i List.mem_cons_self)
      obtain ⟨htable, hnext⟩ := h.foldl_run (T := T) (script turn.calls).ops
      replace hnext : Tracks eventId (turn.next T script eventId).lost
        (turn.next T script eventId).table slots := hnext
      have hlater := ih hothers hnext
      have hcalls : (turn.next T script eventId).calls = turn.calls + 1 := rfl
      have hsame : (turn.next T script eventId).table =
          (runOps T turn.table (script turn.calls).ops).1 := htable
      rw [hcalls, hsame] at hlater
      rw [executeLoop_calls_iff, comes_cons_iff, hcall, ih hothers h, hlater, Turn.Spares]
      by_cases hnull : turn.table.entries[i].callback = fwNull
      · constructor
        · rintro ⟨hpassed, -⟩
          exact ⟨Or.inl hnull, hpassed, fun hcallback => absurd hnull hcallback⟩
        · rintro ⟨-, hpassed, -⟩
          exact ⟨hpassed, fun hcallback => absurd hnull hcallback⟩
      · constructor
        · rintro ⟨hpassed, hcalled⟩
          exact ⟨Or.inr (hcalled hnull).1, hpassed, fun hcallback => (hcalled hcallback).2⟩
        · rintro ⟨hspares, hpassed, hcalled⟩
          exact ⟨hpassed, fun hcallback => ⟨hspares.resolve_left hnull, hcalled hcallback⟩⟩

/-- The hook in the first slot comes after the one in the second. -/
def FwHookTable.comesBehind (table : FwHookTable) (a b : Fin 32) : Bool :=
  table.entries[a].priority > table.entries[b].priority

/-- The sorting loops are an exchange sort. -/
theorem sortMatched_eq (table : FwHookTable) (matched : Array (Fin 32)) :
    sortMatched table matched = exchangeSort table.comesBehind matched := by
  have hstep : ∀ i, sortStep table i = exchange table.comesBehind i := by
    intro i
    funext m j
    rw [sortStep, exchange]
    cases m[i]? <;> cases m[j]? <;> simp [FwHookTable.comesBehind]
  rw [sortMatched, exchangeSort]
  simp only [hstep]
  rfl

/-- The sorting loops keep the collected slots. -/
theorem sortMatched_perm (table : FwHookTable) (matched : Array (Fin 32)) :
    (sortMatched table matched).toList.Perm matched.toList := by
  rw [sortMatched_eq]
  exact (exchangeSort_perm matched).toList

/-- A dispatch calls only hooks that are registered at that moment, with their cookies, exactly
when the callbacks do not take a slot away from the event whose turn has not come. -/
theorem fwHookDispatch_registered_iff (T : Target) (script : Nat → Reaction) (table : FwHookTable)
    (eventId : UInt32) :
    (∀ call t, .call call t ∈ (fwHookDispatch T script table eventId).2.2 →
      call.Registered eventId t) ↔
      Spares T script eventId
        { table with totalDispatches := T.size (table.totalDispatches + 1) } := by
  rw [fwHookDispatch]
  generalize (⟨table.entries, table.count, T.size (table.totalDispatches + 1),
    table.totalIntercepts⟩ : FwHookTable) = table
  have hperm := sortMatched_perm table (collect table eventId).toArray
  let start : Turn := ⟨table, [], 0⟩
  have htracks : Tracks eventId start.lost start.table (collect table eventId) := fun i hi => by
    have hholds := (List.mem_filter.mp hi).2
    simp only [Bool.and_eq_true, decide_eq_true_eq] at hholds
    exact iff_of_false List.not_mem_nil (not_not_intro hholds)
  split
  · next hnone =>
      rw [List.length_eq_zero_iff.mp hnone] at hperm
      rw [Spares, List.length_eq_zero_iff.mp hnone, hperm.eq_nil]
      exact iff_of_true (fun _ _ hmem => (List.not_mem_nil hmem).elim) nofun
  · exact executeLoop_iff script (fun i hi => hperm.mem_iff.mp hi) htracks

/-- Two hooks for event 1 in the order of their priorities. -/
def sampleTable : FwHookTable :=
  let first := (fwHookRegister target32 fwHookTableInit 1 0x100 0 7).2
  (fwHookRegister target32 first 1 0x200 1 8).2

/-- The first callback unregisters the second hook. -/
def unregisterSecond (_ : Nat) : Reaction := ⟨[.unregister 1 0x200], .continue⟩

/-- A hook that an earlier callback of the same dispatch has unregistered is called. -/
theorem fwHookDispatch_calls_unregistered :
    ¬ ∀ (T : Target) (script : Nat → Reaction) (table : FwHookTable) (eventId : UInt32),
      ∀ call t, .call call t ∈ (fwHookDispatch T script table eventId).2.2 →
        call.Registered eventId t := by
  intro hclaim
  have hall := hclaim ⟨4, Or.inl rfl⟩ unregisterSecond sampleTable 1
  have hbad : ((fwHookDispatch ⟨4, Or.inl rfl⟩ unregisterSecond sampleTable 1).2.2.any fun
      | .call call t => !decide (call.Registered 1 t)
      | .op _ _ => false) = true := by decide +kernel
  obtain ⟨event, hmem, hevent⟩ := List.any_eq_true.mp hbad
  cases event with
  | op op t => cases hevent
  | call call t => simp [hall call t hmem] at hevent

end Stale

section Runs

variable {T : Target} {table : FwHookTable} {eventId : UInt32} {callback cookie : Nat}
  {priority : UInt8}

def FwHookTable.activeSlots (table : FwHookTable) : Finset (Fin 32) :=
  Finset.univ.filter fun i => table.entries[i].active

/-- The hook is registered. -/
def FwHookTable.Has (table : FwHookTable) (eventId : UInt32) (callback : Nat) : Prop :=
  ∃ i, Holds table eventId i ∧ table.entries[i].callback = callback

/-- Every hook has one slot and a callback, and the counter counts the slots. -/
structure FwHookTable.Consistent (table : FwHookTable) : Prop where
  unique : ∀ i j : Fin 32, table.entries[i].active → table.entries[j].active →
    table.entries[i].eventId = table.entries[j].eventId →
    table.entries[i].callback = table.entries[j].callback → i = j
  count : table.count = table.activeSlots.card
  callable : ∀ i : Fin 32, table.entries[i].active → table.entries[i].callback ≠ fwNull

section Registration

theorem mem_activeSlots {i : Fin 32} : i ∈ table.activeSlots ↔ table.entries[i].active := by
  rw [FwHookTable.activeSlots, Finset.mem_filter]
  exact and_iff_right (Finset.mem_univ i)

theorem activeSlots_card_le (table : FwHookTable) : table.activeSlots.card ≤ 32 :=
  card_finset_fin_le table.activeSlots

/-- The slot of an active entry that the loop of `fw_hook_register` finds. -/
theorem registerLoop_found {rest : List (Fin 32)} {i : Fin 32}
    (hloop : registerLoop table eventId callback rest none = .inl i) :
    Holds table eventId i ∧ table.entries[i].callback = callback := by
  rw [registerLoop_eq] at hloop
  split at hloop
  · next hfind =>
      obtain rfl := Sum.inl.inj hloop
      have hmatches := List.find?_some hfind
      exact FwHookEntry.matches_iff.mp hmatches
  · cases hloop

/-- When the loop finds no entry, none of the slots has it. -/
theorem registerLoop_absent {rest : List (Fin 32)} {result : Option (Fin 32)}
    (hloop : registerLoop table eventId callback rest none = .inr result) :
    ∀ i ∈ rest, ¬ (Holds table eventId i ∧ table.entries[i].callback = callback) := by
  rw [registerLoop_eq] at hloop
  split at hloop
  · cases hloop
  · next hfind =>
      intro i hi hholds
      exact List.find?_eq_none.mp hfind i hi (FwHookEntry.matches_iff.mpr hholds)

/-- When the loop finds no free slot, all of the slots are active. -/
theorem registerLoop_full {rest : List (Fin 32)}
    (hloop : registerLoop table eventId callback rest none = .inr none) :
    ∀ i ∈ rest, table.entries[i].active := by
  rw [registerLoop_eq] at hloop
  split at hloop
  · cases hloop
  · have hfind : (rest.find? fun i => !table.entries[i].active) = none := Sum.inr.inj hloop
    intro i hi
    have hfree := List.find?_eq_none.mp hfind i hi
    exact of_not_not fun hinactive => hfree (by rw [Bool.eq_false_iff.mpr hinactive]; rfl)

/-- `fw_hook_register` updates the slot of the hook, takes a free slot for a new hook, or fails. -/
theorem fwHookRegister_cases (T : Target) (table : FwHookTable) (eventId : UInt32) (callback : Nat)
    (priority : UInt8) (cookie : Nat) :
    (fwHookRegister T table eventId callback priority cookie =
        (if callback = fwNull then .errInvalidArg else .errBufferOverflow, table) ∧
      (callback = fwNull ∨ ¬ table.Has eventId callback ∧ ∀ i : Fin 32, table.entries[i].active)) ∨
    (callback ≠ fwNull ∧ ∃ i, Holds table eventId i ∧ table.entries[i].callback = callback ∧
      fwHookRegister T table eventId callback priority cookie = (.ok, { table with
        entries := table.entries.set i
          { table.entries[i] with priority := priority, cookie := cookie } })) ∨
    (callback ≠ fwNull ∧ ¬ table.Has eventId callback ∧
      ∃ i : Fin 32, table.entries[i].active = false ∧
      fwHookRegister T table eventId callback priority cookie = (.ok, { table with
        entries := table.entries.set i ⟨eventId, callback, cookie, priority, true⟩
        count := T.size (table.count + 1) })) := by
  rw [fwHookRegister]
  by_cases hnull : callback = fwNull
  · rw [if_pos hnull, if_pos hnull]
    exact Or.inl ⟨rfl, Or.inl hnull⟩
  · rw [if_neg hnull, if_neg hnull]
    cases hloop : registerLoop table eventId callback (List.finRange 32) none with
    | inl i =>
        obtain ⟨hholds, hcallback⟩ := registerLoop_found hloop
        exact Or.inr (Or.inl ⟨hnull, i, hholds, hcallback, rfl⟩)
    | inr freeSlot =>
        have habsent : ¬ table.Has eventId callback := by
          rintro ⟨i, hi⟩
          exact registerLoop_absent hloop i (List.mem_finRange i) hi
        cases freeSlot with
        | none =>
            have hfull := registerLoop_full hloop
            exact Or.inl ⟨rfl, Or.inr ⟨habsent, fun i => hfull i (List.mem_finRange i)⟩⟩
        | some i =>
            have hfree : table.entries[i].active = false := registerLoop_free hloop
            exact Or.inr (Or.inr ⟨hnull, habsent, i, hfree, rfl⟩)

end Registration

section Consistency

theorem fwHookTableInit_consistent : fwHookTableInit.Consistent := by
  have hfree : ∀ i : Fin 32, fwHookTableInit.entries[i].active = false := by decide
  constructor
  · intro i j hi
    rw [hfree i] at hi
    cases hi
  · symm
    apply Finset.card_eq_zero.mpr
    apply Finset.eq_empty_of_forall_notMem
    intro i hi
    rw [mem_activeSlots, hfree i] at hi
    cases hi
  · intro i hi
    rw [hfree i] at hi
    cases hi

/-- An update of the priority and the cookie of a hook. -/
theorem FwHookTable.Consistent.update (h : table.Consistent) (i : Fin 32) :
    FwHookTable.Consistent { table with
      entries := table.entries.set i
        { table.entries[i] with priority := priority, cookie := cookie } } := by
  have hsame : ∀ j : Fin 32,
      let entry := (table.entries.set i
        { table.entries[i] with priority := priority, cookie := cookie })[j]
      entry.active = table.entries[j].active ∧ entry.eventId = table.entries[j].eventId ∧
        entry.callback = table.entries[j].callback := by
    intro j
    dsimp only
    rw [getElem_set_fin]
    split
    · next heq =>
        subst heq
        exact ⟨rfl, rfl, rfl⟩
    · exact ⟨rfl, rfl, rfl⟩
  constructor
  · intro j k hj hk hevent hcallback
    rw [(hsame j).1] at hj
    rw [(hsame k).1] at hk
    rw [(hsame j).2.1, (hsame k).2.1] at hevent
    rw [(hsame j).2.2, (hsame k).2.2] at hcallback
    exact h.unique j k hj hk hevent hcallback
  · rw [h.count]
    congr 1
    ext j
    rw [mem_activeSlots, mem_activeSlots, (hsame j).1]
  · intro j hj
    rw [(hsame j).1] at hj
    rw [(hsame j).2.2]
    exact h.callable j hj

/-- A new hook in a free slot. -/
theorem FwHookTable.Consistent.insert (h : table.Consistent) {i : Fin 32}
    (hfree : table.entries[i].active = false) (habsent : ¬ table.Has eventId callback)
    (hnull : callback ≠ fwNull) :
    FwHookTable.Consistent { table with
      entries := table.entries.set i ⟨eventId, callback, cookie, priority, true⟩
      count := T.size (table.count + 1) } := by
  constructor
  · intro j k hj hk hevent hcallback
    rw [getElem_set_fin] at hj hevent hcallback
    rw [getElem_set_fin] at hk hevent hcallback
    by_cases hij : i = j
    · by_cases hik : i = k
      · exact hij.symm.trans hik
      · rw [if_neg hik] at hk hevent hcallback
        rw [if_pos hij] at hevent hcallback
        exact absurd ⟨k, ⟨hk, hevent.symm⟩, hcallback.symm⟩ habsent
    · rw [if_neg hij] at hj hevent hcallback
      by_cases hik : i = k
      · rw [if_pos hik] at hevent hcallback
        exact absurd ⟨j, ⟨hj, hevent⟩, hcallback⟩ habsent
      · rw [if_neg hik] at hk hevent hcallback
        exact h.unique j k hj hk hevent hcallback
  · have hslots : FwHookTable.activeSlots { table with
        entries := table.entries.set i ⟨eventId, callback, cookie, priority, true⟩
        count := T.size (table.count + 1) } = Insert.insert i table.activeSlots := by
      ext j
      rw [mem_activeSlots, Finset.mem_insert, mem_activeSlots, getElem_set_fin]
      by_cases hij : i = j
      · rw [if_pos hij]
        exact iff_of_true rfl (Or.inl hij.symm)
      · rw [if_neg hij, or_iff_right (Ne.symm hij)]
    have hnot : i ∉ table.activeSlots := by
      rw [mem_activeSlots, hfree]
      exact Bool.false_ne_true
    have hle := activeSlots_card_le table
    rw [hslots, Finset.card_insert_of_notMem hnot, ← h.count]
    exact T.size_of_lt (by rw [h.count]; omega)
  · intro j hj
    rw [getElem_set_fin] at hj ⊢
    split
    · exact hnull
    · next hij =>
        rw [if_neg hij] at hj
        exact h.callable j hj

/-- A hook that leaves its slot. -/
theorem FwHookTable.Consistent.erase (h : table.Consistent) {i : Fin 32}
    (hactive : table.entries[i].active) :
    FwHookTable.Consistent { table with
      entries := table.entries.set i { table.entries[i] with active := false }
      count := if table.count > 0 then table.count - 1 else table.count } := by
  have hother : ∀ j : Fin 32,
      (table.entries.set i { table.entries[i] with active := false })[j].active →
        i ≠ j ∧ (table.entries.set i { table.entries[i] with active := false })[j] =
          table.entries[j] := by
    intro j hj
    rw [getElem_set_fin] at hj ⊢
    by_cases hij : i = j
    · rw [if_pos hij] at hj
      cases hj
    · exact ⟨hij, if_neg hij⟩
  constructor
  · intro j k hj hk hevent hcallback
    obtain ⟨-, hentryj⟩ := hother j hj
    obtain ⟨-, hentryk⟩ := hother k hk
    rw [hentryj] at hj hevent hcallback
    rw [hentryk] at hk hevent hcallback
    exact h.unique j k hj hk hevent hcallback
  · have hslots : FwHookTable.activeSlots { table with
        entries := table.entries.set i { table.entries[i] with active := false }
        count := if table.count > 0 then table.count - 1 else table.count } =
        table.activeSlots.erase i := by
      ext j
      rw [mem_activeSlots, Finset.mem_erase, mem_activeSlots]
      constructor
      · intro hj
        obtain ⟨hij, heq⟩ := hother j hj
        rw [heq] at hj
        exact ⟨Ne.symm hij, hj⟩
      · rintro ⟨hij, hj⟩
        rw [getElem_set_fin, if_neg (Ne.symm hij)]
        exact hj
    have hmem : i ∈ table.activeSlots := mem_activeSlots.mpr hactive
    have hpos := Finset.card_pos.mpr ⟨i, hmem⟩
    rw [hslots, Finset.card_erase_of_mem hmem, h.count, if_pos hpos]
  · intro j hj
    obtain ⟨-, hentry⟩ := hother j hj
    rw [hentry] at hj ⊢
    exact h.callable j hj

/-- Every operation keeps the table consistent. -/
theorem FwHookTable.Consistent.run (h : table.Consistent) (op : HookOp) :
    (op.run T table).Consistent := by
  cases op with
  | register eventId callback priority cookie =>
      rw [HookOp.run]
      rcases fwHookRegister_cases T table eventId callback priority cookie with
        ⟨heq, -⟩ | ⟨-, i, -, -, heq⟩ | ⟨hnull, habsent, i, hfree, heq⟩
      · rw [heq]
        exact h
      · rw [heq]
        exact h.update i
      · rw [heq]
        exact h.insert hfree habsent hnull
  | unregister eventId callback =>
      rw [HookOp.run, fwHookUnregister]
      split
      · exact h
      · cases hfind : findHook table eventId callback with
        | none => exact h
        | some i =>
            have hmatches := List.find?_some hfind
            rw [FwHookEntry.matches, Bool.and_eq_true, Bool.and_eq_true] at hmatches
            exact h.erase hmatches.1.1

theorem runOps_consistent (h : table.Consistent) (ops : List HookOp) :
    (runOps T table ops).1.Consistent := by
  induction ops generalizing table with
  | nil => exact h
  | cons op ops ih => exact ih (h.run op)

end Consistency

section Dispatch

/-- The hooks of the event, each once, by their priorities. -/
structure FwHookTable.InPriorityOrder (table : FwHookTable) (eventId : UInt32)
    (order : List (Fin 32)) : Prop where
  nodup : order.Nodup
  mem_iff : ∀ i, i ∈ order ↔ Holds table eventId i
  sorted : order.Pairwise fun i j => table.entries[i].priority ≤ table.entries[j].priority

/-- All the hooks are called and let the event pass, or those up to the first one that stops it. -/
inductive CalledInOrder (result : Nat → FwHookAction) (order : List (Fin 32)) :
    FwHookAction → List (Fin 32) → Prop
  | all (hcontinue : ∀ k < order.length, result k = .continue) :
      CalledInOrder result order .continue order
  | stop {k : Nat} (hk : k < order.length) (hbefore : ∀ m < k, result m = .continue)
      (hstop : result k = .stop) : CalledInOrder result order .stop (order.take (k + 1))

/-- The call of the hook in a slot, with its own cookie. -/
def callEvent (table : FwHookTable) (i : Fin 32) : HookEvent :=
  .call ⟨i, table.entries[i].callback, table.entries[i].cookie⟩ table

/-- Callbacks that leave the table alone. -/
def resultsOnly (result : Nat → FwHookAction) (n : Nat) : Reaction := ⟨[], result n⟩

theorem CalledInOrder.cons {result : Nat → FwHookAction} {rest called : List (Fin 32)}
    {action : FwHookAction} {i : Fin 32} (hfirst : result 0 = .continue)
    (h : CalledInOrder (fun k => result (k + 1)) rest action called) :
    CalledInOrder result (i :: rest) action (i :: called) := by
  cases h with
  | all hcontinue =>
      apply CalledInOrder.all
      intro k hk
      cases k with
      | zero => exact hfirst
      | succ k => exact hcontinue k (Nat.lt_of_succ_lt_succ hk)
  | @stop k hk hbefore hstop =>
      refine CalledInOrder.stop (k := k + 1) (Nat.succ_lt_succ hk) ?_ hstop
      intro m hm
      cases m with
      | zero => exact hfirst
      | succ m => exact hbefore m (Nat.lt_of_succ_lt_succ hm)

/-- The loop that calls hooks whose slots have callbacks. -/
theorem executeLoop_calledInOrder (T : Target) (table : FwHookTable) (result : Nat → FwHookAction)
    {order : List (Fin 32)} (hcallable : ∀ i ∈ order, table.entries[i].callback ≠ fwNull)
    (n : Nat) :
    ∃ called intercepts, CalledInOrder (fun k => result (n + k)) order
        (executeLoop T (resultsOnly result) order n table).1 called ∧
      (executeLoop T (resultsOnly result) order n table).2 =
        ({ table with totalIntercepts := intercepts }, called.map (callEvent table)) := by
  induction order generalizing n with
  | nil => exact ⟨[], table.totalIntercepts, .all fun k hk => absurd hk (Nat.not_lt_zero k), rfl⟩
  | cons i rest ih =>
      rw [executeLoop]
      dsimp only
      rw [if_pos (hcallable i List.mem_cons_self)]
      by_cases hstop : (resultsOnly result n).action = .stop
      · rw [if_pos hstop]
        refine ⟨[i], T.size (table.totalIntercepts + 1), ?_, rfl⟩
        exact CalledInOrder.stop (k := 0) (Nat.succ_pos _)
          (fun m hm => absurd hm (Nat.not_lt_zero m)) hstop
      · rw [if_neg hstop]
        have hfirst : result n = .continue := by
          cases hresult : result n with
          | stop => exact absurd hresult hstop
          | «continue» => rfl
        obtain ⟨called, intercepts, hcalled, heq⟩ :=
          ih (fun j hj => hcallable j (List.mem_cons_of_mem _ hj)) (n + 1)
        refine ⟨i :: called, intercepts, ?_, ?_⟩
        · apply CalledInOrder.cons hfirst
          simp only [Nat.add_assoc, Nat.add_comm 1] at hcalled
          exact hcalled
        · change ((executeLoop T (resultsOnly result) rest (n + 1) table).2.1,
            [callEvent table i] ++ (executeLoop T (resultsOnly result) rest (n + 1) table).2.2) = _
          rw [heq]
          rfl

/-- The sorted slots are the hooks of the event in the order of their priorities. -/
theorem sortMatched_inPriorityOrder (table : FwHookTable) (eventId : UInt32) :
    table.InPriorityOrder eventId
      (sortMatched table (collect table eventId).toArray).toList := by
  have hperm : (sortMatched table (collect table eventId).toArray).toList.Perm
      (collect table eventId) := sortMatched_perm table _
  constructor
  · exact hperm.nodup_iff.mpr ((List.nodup_finRange 32).filter _)
  · intro i
    rw [hperm.mem_iff, collect, List.mem_filter, and_iff_right (List.mem_finRange i),
      Bool.and_eq_true, decide_eq_true_eq]
    exact Iff.rfl
  · rw [sortMatched_eq]
    have hirrefl : ∀ i, ¬ table.comesBehind i i := by
      intro i hbehind
      exact UInt8.lt_irrefl _ (of_decide_eq_true hbehind)
    have htrans : ∀ i j k, table.comesBehind i j → table.comesBehind j k →
        table.comesBehind i k := by
      intro i j k hij hjk
      exact decide_eq_true (UInt8.lt_trans (of_decide_eq_true hjk) (of_decide_eq_true hij))
    apply (exchangeSort_pairwise hirrefl htrans _).imp
    intro i j hbehind
    exact UInt8.not_lt.mp fun hlt => hbehind (decide_eq_true hlt)

/-- A dispatch calls the hooks of the event in the order of their priorities until one stops it. -/
theorem FwHookTable.Consistent.dispatch (h : table.Consistent) (T : Target)
    (result : Nat → FwHookAction) (eventId : UInt32) :
    ∃ order called dispatches intercepts, table.InPriorityOrder eventId order ∧
      CalledInOrder result order
        (fwHookDispatch T (resultsOnly result) table eventId).1 called ∧
      (fwHookDispatch T (resultsOnly result) table eventId).2 =
        ({ table with totalDispatches := dispatches, totalIntercepts := intercepts },
          called.map (callEvent { table with totalDispatches := dispatches })) := by
  have hsorted := sortMatched_inPriorityOrder
    { table with totalDispatches := T.size (table.totalDispatches + 1) } eventId
  have horder : table.InPriorityOrder eventId _ :=
    ⟨hsorted.nodup, hsorted.mem_iff, hsorted.sorted⟩
  rw [fwHookDispatch]
  split
  · next hnone =>
      rw [List.length_eq_zero_iff.mp hnone] at horder
      exact ⟨[], [], T.size (table.totalDispatches + 1), table.totalIntercepts, horder,
        .all fun k hk => absurd hk (Nat.not_lt_zero k), rfl⟩
  · obtain ⟨called, intercepts, hcalled, heq⟩ := executeLoop_calledInOrder T
      { table with totalDispatches := T.size (table.totalDispatches + 1) } result
      (fun i hi => h.callable i ((horder.mem_iff i).mp hi).1) 0
    simp only [Nat.zero_add] at hcalled
    exact ⟨_, called, _, intercepts, horder, hcalled, heq⟩

end Dispatch

/-- In every run of registrations the table stays consistent, a registration fails and changes
nothing exactly for a null callback or a new hook in a full table, and a dispatch calls the hooks
of its event in the order of their priorities until one stops it. -/
theorem fwHookTable_runs (T : Target) (ops : List HookOp) :
    let table := (runOps T fwHookTableInit ops).1
    table.Consistent ∧
      (∀ eventId callback priority cookie,
        let outcome := fwHookRegister T table eventId callback priority cookie
        (outcome.1 ≠ .ok ↔ callback = fwNull ∨
          ¬ table.Has eventId callback ∧ ∀ i : Fin 32, table.entries[i].active) ∧
          (outcome.1 = .ok ∨ outcome.2 = table)) ∧
      ∀ result eventId, ∃ order called dispatches intercepts,
        table.InPriorityOrder eventId order ∧
          CalledInOrder result order
            (fwHookDispatch T (resultsOnly result) table eventId).1 called ∧
          (fwHookDispatch T (resultsOnly result) table eventId).2 =
            ({ table with totalDispatches := dispatches, totalIntercepts := intercepts },
              called.map (callEvent { table with totalDispatches := dispatches })) := by
  intro table
  have hconsistent : table.Consistent := runOps_consistent fwHookTableInit_consistent ops
  refine ⟨hconsistent, ?_, hconsistent.dispatch T⟩
  intro eventId callback priority cookie outcome
  rcases fwHookRegister_cases T table eventId callback priority cookie with
    ⟨heq, hfails⟩ | ⟨hnull, i, hholds, hcallback, heq⟩ | ⟨hnull, habsent, i, hfree, heq⟩
  · have hstatus : outcome.1 ≠ .ok := by
      change (fwHookRegister T table eventId callback priority cookie).1 ≠ .ok
      rw [heq]
      split <;> exact FwStatus.noConfusion
    refine ⟨iff_of_true hstatus hfails, Or.inr ?_⟩
    exact congrArg Prod.snd heq
  · have hstatus : outcome.1 = .ok := congrArg Prod.fst heq
    refine ⟨iff_of_false (not_not_intro hstatus) ?_, Or.inl hstatus⟩
    rintro (hzero | ⟨habsent, -⟩)
    · exact hnull hzero
    · exact habsent ⟨i, hholds, hcallback⟩
  · have hstatus : outcome.1 = .ok := congrArg Prod.fst heq
    refine ⟨iff_of_false (not_not_intro hstatus) ?_, Or.inl hstatus⟩
    rintro (hzero | ⟨-, hfull⟩)
    · exact hnull hzero
    · exact Bool.false_ne_true (hfree.symm.trans (hfull i))

/-- A null callback is refused although there is a free slot. -/
theorem fwHookRegister_refuses_null :
    ¬ ∀ (T : Target) (ops : List HookOp) (eventId : UInt32) (callback : Nat) (priority : UInt8)
      (cookie : Nat), (fwHookRegister T (runOps T fwHookTableInit ops).1 eventId callback priority
          cookie).1 ≠ .ok ↔
        ¬ (runOps T fwHookTableInit ops).1.Has eventId callback ∧
          ∀ i : Fin 32, (runOps T fwHookTableInit ops).1.entries[i].active := by
  intro hclaim
  have hfull := ((hclaim ⟨4, Or.inl rfl⟩ [] 1 fwNull 0 0).mp (by decide)).2 0
  cases hfull

end Runs

end ZeroEmbedded.Hook
