import ZeroEmbedded.Foundation.RingThreads

/-!
# Two rings and a line between them

A line takes elements from one ring and puts them into another one, in order and
after any time. It is the only producer of the second ring. What is delivered
behind the line, what is under way and what the first ring still stores is what
the first ring accepted, unless the second ring was full.
-/

namespace ZeroEmbedded.Foundation

open Threads (Completed Turn)

/-- Two rings; `putting` is the element that a call puts into the second one. -/
structure RingLink (α Op Res Op' Res' : Type) where
  source : RingCalls α Op Res
  target : RingCalls α Op' Res'
  putting : Op' → Option α
  putting_side : ∀ {op x}, putting op = some x → target.side op = .producer
  accepted_cases : ∀ d, target.accepted d = [] ∨ target.accepted d = (putting d.op).toList

namespace RingLink

variable {α Op Res Op' Res' : Type}

/-- The threads of both rings, and the elements on the line. -/
structure State (α Op Res Op' Res' : Type) where
  source : Threads.Config RingEnd (RingCommand α) RingCommand.Reply (RingBuffer α) Op Res
  target : Threads.Config RingEnd (RingCommand α) RingCommand.Reply (RingBuffer α) Op' Res'
  wire : List α

/-- A step of a thread of one of the rings, and the call that it completes. -/
inductive Event (α Op Res Op' Res' : Type)
  | source (completed : Option (Completed (RingBuffer α) Op Res))
  | target (completed : Option (Completed (RingBuffer α) Op' Res'))

/-- A choice of the scheduler. -/
inductive LinkTurn (Op Op' : Type)
  | source (turn : Turn RingEnd Op)
  | target (turn : Turn RingEnd Op')

variable [DecidableEq α] (L : RingLink α Op Res Op' Res')

/-- The line without the first element, which has to be the given one. -/
def takeFirst (wire : List α) : Option α → Option (List α)
  | none => some wire
  | some x =>
      match wire with
      | y :: rest => if x = y then some rest else none
      | [] => none

theorem takeFirst_eq_some {wire wire' : List α} {x : Option α}
    (h : takeFirst wire x = some wire') : wire = x.toList ++ wire' := by
  cases x with
  | none => exact Option.some.inj h
  | some x =>
      cases wire with
      | nil => cases h
      | cons y rest =>
          rw [takeFirst] at h
          split at h
          · next hxy =>
              rw [hxy, Option.some.inj h]
              rfl
          · cases h

/-- The line after a turn at the second ring, whose start of a put takes the first element. -/
def line (wire : List α) : Turn RingEnd Op' → Option (List α)
  | .exec _ => some wire
  | .start op => takeFirst wire (L.putting op)

/-- The step that the scheduler has chosen, if it is possible. -/
def turn (s : State α Op Res Op' Res') :
    LinkTurn Op Op' → Option (Event α Op Res Op' Res' × State α Op Res Op' Res')
  | .source t =>
      (L.source.threads.turn s.source t).map fun next =>
        (.source next.1, ⟨next.2, s.target, s.wire ++ L.source.deliveredBy next.1⟩)
  | .target t =>
      match L.line s.wire t, L.target.threads.turn s.target t with
      | some wire, some next => some (.target next.1, ⟨s.source, next.2, wire⟩)
      | _, _ => none

/-- One step of the link. -/
def Step (s : State α Op Res Op' Res') (e : Event α Op Res Op' Res')
    (t : State α Op Res Op' Res') : Prop :=
  ∃ choice, L.turn s choice = some (e, t)

/-- No call is under way and nothing is on the line. -/
def idle (r r' : RingBuffer α) : State α Op Res Op' Res' :=
  ⟨Threads.idle r, Threads.idle r', []⟩

/-- The steps at the first ring. -/
def sourceEvents (es : List (Event α Op Res Op' Res')) :
    List (Option (Completed (RingBuffer α) Op Res)) :=
  es.filterMap fun
    | .source e => some e
    | .target _ => none

/-- The steps at the second ring. -/
def targetEvents (es : List (Event α Op Res Op' Res')) :
    List (Option (Completed (RingBuffer α) Op' Res')) :=
  es.filterMap fun
    | .source _ => none
    | .target e => some e

/-- The element of a put that a step completes. -/
def putBy (e : Option (Completed (RingBuffer α) Op' Res')) : List α :=
  e.elim [] fun d => (L.putting d.op).toList

/-- The element of a put that is under way. -/
def underWay (cfg : Threads.Config RingEnd (RingCommand α) RingCommand.Reply (RingBuffer α)
    Op' Res') : List α :=
  (cfg.pending .producer).elim [] fun b => (L.putting b.op).toList

variable {L} {s t : State α Op Res Op' Res'} {e : Event α Op Res Op' Res'}
  {es : List (Event α Op Res Op' Res')}
  {cfg cfg' : Threads.Config RingEnd (RingCommand α) RingCommand.Reply (RingBuffer α) Op' Res'}

omit [DecidableEq α] in
/-- A put is completed or under way. -/
theorem settle_put (op : Op') (seen : RingBuffer α) (p : RingProgram α Res') :
    L.putBy (Threads.settle op seen p).2 ++
        ((Threads.settle op seen p).1.elim [] fun b => (L.putting b.op).toList) =
      (L.putting op).toList := by
  cases p with
  | ret a => exact List.append_nil _
  | call c k => rfl
  | stuck => rfl

/-- Every call under way belongs to its thread. -/
def Owned (L : RingLink α Op Res Op' Res') (cfg : Threads.Config RingEnd (RingCommand α)
    RingCommand.Reply (RingBuffer α) Op' Res') : Prop :=
  ∀ i b, cfg.pending i = some b → L.target.side b.op = i

omit [DecidableEq α] in
theorem Owned.settle (h : L.Owned cfg) {i : RingEnd} {op : Op'} (hside : L.target.side op = i)
    (shared seen : RingBuffer α) (p : RingProgram α Res') :
    L.Owned ⟨shared, Function.update cfg.pending i (Threads.settle op seen p).1⟩ := by
  intro j b hb
  dsimp only at hb
  by_cases hj : j = i
  · subst hj
    rw [Function.update_self] at hb
    obtain ⟨rfl, -⟩ := Threads.Contract.settle_pending hb
    exact hside
  · rw [Function.update_of_ne hj] at hb
    exact h j b hb

omit [DecidableEq α] in
/-- What one thread of the second ring has under way, when a call of it goes on. -/
theorem underWay_settle {i : RingEnd} {op : Op'} (hside : L.target.side op = i)
    (shared seen : RingBuffer α) (p : RingProgram α Res') (before : List α)
    (hbefore : i = .producer → before = (L.putting op).toList)
    (hkept : i = .consumer → before = L.underWay cfg) :
    L.putBy (Threads.settle op seen p).2 ++
        L.underWay ⟨shared, Function.update cfg.pending i (Threads.settle op seen p).1⟩ =
      before := by
  cases i with
  | producer =>
      rw [underWay]
      dsimp only
      rw [Function.update_self, settle_put, hbefore rfl]
  | consumer =>
      have hnone : L.putting op = none := by
        cases hput : L.putting op with
        | none => rfl
        | some x =>
            have hproducer := L.putting_side hput
            rw [hside] at hproducer
            cases hproducer
      have hputs : L.putBy (Threads.settle op seen p).2 = [] := by
        have hall := L.settle_put op seen p
        rw [hnone] at hall
        exact (List.append_eq_nil_iff.mp hall).1
      rw [hputs, hkept rfl, underWay, underWay]
      dsimp only
      rw [Function.update_of_ne (by decide), List.nil_append]

/-- A turn at the second ring completes puts in the order in which they were started. -/
theorem line_spec (howned : L.Owned cfg) {choice : Turn RingEnd Op'}
    {e : Option (Completed (RingBuffer α) Op' Res')} {wire wire' : List α}
    (hline : L.line wire choice = some wire')
    (hturn : L.target.threads.turn cfg choice = some (e, cfg')) :
    L.Owned cfg' ∧ L.putBy e ++ (L.underWay cfg' ++ wire') = L.underWay cfg ++ wire := by
  cases choice with
  | start op =>
      rw [Threads.turn] at hturn
      split at hturn
      · next hidle =>
          obtain ⟨rfl, rfl⟩ := Prod.mk.inj (Option.some.inj hturn)
          have howner : L.target.side op = L.target.threads.owner op := rfl
          refine ⟨howned.settle howner _ _ _, ?_⟩
          have htaken := takeFirst_eq_some hline
          rw [← List.append_assoc, L.underWay_settle howner _ _ _
            (L.underWay cfg ++ (L.putting op).toList), List.append_assoc, ← htaken]
          · intro hproducer
            rw [underWay, ← hproducer, hidle]
            rfl
          · intro hconsumer
            cases hput : L.putting op with
            | none => exact List.append_nil _
            | some x =>
                have hproducer := L.putting_side hput
                rw [howner, hconsumer] at hproducer
                cases hproducer
      · cases hturn
  | exec i =>
      cases hline
      rw [Threads.turn] at hturn
      split at hturn
      · next op c k seen hnext =>
          obtain ⟨rfl, rfl⟩ := Prod.mk.inj (Option.some.inj hturn)
          have howner : L.target.side op = i := howned i _ hnext
          refine ⟨howned.settle howner _ _ _, ?_⟩
          rw [← List.append_assoc, L.underWay_settle howner _ _ _ (L.underWay cfg)]
          · intro hproducer
            rw [underWay, ← hproducer, hnext]
            rfl
          · exact fun _ => rfl
      · cases hturn

/-- The line between the histories of both rings. -/
structure Linked (L : RingLink α Op Res Op' Res') (r r' : RingBuffer α)
    (s : State α Op Res Op' Res') (es : List (Event α Op Res Op' Res')) : Prop where
  source : Run (Threads.Step L.source.threads) (Threads.idle r) (sourceEvents es) s.source
  target : Run (Threads.Step L.target.threads) (Threads.idle r') (targetEvents es) s.target
  owned : L.Owned s.target
  line : (sourceEvents es).flatMap L.source.deliveredBy =
    (targetEvents es).flatMap L.putBy ++ (L.underWay s.target ++ s.wire)

theorem run_linked {r r' : RingBuffer α} (run : Run L.Step (idle r r') es s) :
    L.Linked r r' s es := by
  refine run.invariant (L.Linked r r')
    ⟨Run.nil _, Run.nil _, fun _ _ hb => (nomatch hb), rfl⟩ ?_
  rintro s es e t h ⟨choice, hturn⟩
  cases choice with
  | source choice =>
      obtain ⟨⟨e, cfg⟩, hnext, heq⟩ := Option.map_eq_some_iff.mp hturn
      obtain ⟨rfl, rfl⟩ := Prod.mk.inj heq
      have hsource : sourceEvents (es ++ [.source e] : List (Event α Op Res Op' Res')) =
          sourceEvents es ++ [e] := List.filterMap_append
      have htarget : targetEvents (es ++ [.source e] : List (Event α Op Res Op' Res')) =
          targetEvents es := List.filterMap_append.trans (List.append_nil _)
      refine ⟨?_, ?_, h.owned, ?_⟩
      · rw [hsource]
        exact h.source.snoc (L.source.threads.turn_step _ _ _ _ hnext)
      · rw [htarget]
        exact h.target
      · rw [hsource, htarget, List.flatMap_append, h.line, List.flatMap_singleton]
        dsimp only
        rw [List.append_assoc, List.append_assoc]
  | target choice =>
      rw [turn] at hturn
      split at hturn
      · next wire next hline hnext =>
          obtain ⟨e, cfg⟩ := next
          obtain ⟨rfl, rfl⟩ := Prod.mk.inj (Option.some.inj hturn)
          have hsource : sourceEvents (es ++ [.target e] : List (Event α Op Res Op' Res')) =
              sourceEvents es := List.filterMap_append.trans (List.append_nil _)
          have htarget : targetEvents (es ++ [.target e] : List (Event α Op Res Op' Res')) =
              targetEvents es ++ [e] := List.filterMap_append
          obtain ⟨howned, hwire⟩ := line_spec h.owned hline hnext
          refine ⟨?_, ?_, howned, ?_⟩
          · rw [hsource]
            exact h.source
          · rw [htarget]
            exact h.target.snoc (L.target.threads.turn_step _ _ _ _ hnext)
          · rw [hsource, htarget, List.flatMap_append, List.flatMap_singleton, h.line,
              List.append_assoc, hwire]
      · cases hturn

section InOrder

variable {r r' : RingBuffer α}
  {events : List (Option (Completed (RingBuffer α) Op' Res'))}

omit [DecidableEq α] in
/-- The second ring accepts some of the elements that are put in. -/
theorem accepted_sublist (events : List (Option (Completed (RingBuffer α) Op' Res'))) :
    (events.flatMap L.target.acceptedBy).Sublist (events.flatMap L.putBy) := by
  induction events with
  | nil => exact List.Sublist.refl _
  | cons e rest ih =>
      rw [List.flatMap_cons, List.flatMap_cons]
      refine List.Sublist.append ?_ ih
      cases e with
      | none => exact List.Sublist.refl _
      | some d =>
          change (L.target.accepted d).Sublist (L.putting d.op).toList
          rcases L.accepted_cases d with hnone | hall
          · rw [hnone]
            exact List.nil_sublist _
          · rw [hall]

omit [DecidableEq α] in
/-- It accepts all of them when every put is accepted. -/
theorem accepted_eq (hall : ∀ d, some d ∈ events → L.target.accepted d = (L.putting d.op).toList) :
    events.flatMap L.target.acceptedBy = events.flatMap L.putBy := by
  induction events with
  | nil => rfl
  | cons e rest ih =>
      rw [List.flatMap_cons, List.flatMap_cons, ih fun d hd => hall d (List.mem_cons_of_mem _ hd)]
      congr 1
      cases e with
      | none => rfl
      | some d => exact hall d List.mem_cons_self

/-- What the rings and the line hold, by what was accepted at the one end and delivered at the
other one. -/
structure InOrder (L : RingLink α Op Res Op' Res') (s : State α Op Res Op' Res')
    (es : List (Event α Op Res Op' Res')) (sent arrived : List α) : Prop where
  sentStores : L.source.Stores s.source.shared sent
  arrivedStores : L.target.Stores s.target.shared arrived
  sourceMeets : ∀ d, some d ∈ sourceEvents es → L.source.meets d
  targetMeets : ∀ d, some d ∈ targetEvents es → L.target.meets d
  sublist : ((targetEvents es).flatMap L.target.deliveredBy ++ arrived).Sublist
    ((sourceEvents es).flatMap L.source.acceptedBy)
  exact : (∀ d, some d ∈ targetEvents es → L.target.accepted d = (L.putting d.op).toList) →
    (sourceEvents es).flatMap L.source.acceptedBy =
      (targetEvents es).flatMap L.target.deliveredBy ++ arrived ++
        (L.underWay s.target ++ s.wire) ++ sent
  sourceSafe : L.source.contract.Safe s.source
  targetSafe : L.target.contract.Safe s.target

/-- Calls that keep their contracts make the link a queue that delivers in order, and loses
only what finds the second ring full. -/
theorem inOrder
    (hsource : ∀ op s, L.source.contract.Starts L.source.threads op s)
    (htarget : ∀ op s, L.target.contract.Starts L.target.threads op s)
    (hr : L.source.Stores r []) (hr' : L.target.Stores r' [])
    (run : Run L.Step (idle r r') es s) : ∃ sent arrived, L.InOrder s es sent arrived := by
  have h := run_linked run
  obtain ⟨sent, hsent, hsentEq, hsentMeets, hsentSafe⟩ :=
    RingCalls.lossless (fun op s _ => hsource op s) hr h.source
  obtain ⟨arrived, harrived, harrivedEq, harrivedMeets, harrivedSafe⟩ :=
    RingCalls.lossless (fun op s _ => htarget op s) hr' h.target
  rw [List.nil_append] at hsentEq harrivedEq
  refine ⟨sent, arrived, ⟨hsent, harrived, hsentMeets, harrivedMeets, ?_, ?_, hsentSafe,
    harrivedSafe⟩⟩
  · rw [← harrivedEq, hsentEq, h.line, List.append_assoc]
    exact (accepted_sublist _).trans (List.sublist_append_left _ _)
  · intro hall
    rw [hsentEq, h.line, ← accepted_eq hall, harrivedEq]

end InOrder

end RingLink

end ZeroEmbedded.Foundation
