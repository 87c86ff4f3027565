import ZeroEmbedded.Foundation.RingThreads

/-!
# Calls that pass on a call of a ring

A call that makes a call of a ring and turns its result into another one keeps
the contract of its end, when both results say the same about the elements that
were accepted and delivered. It may rely on a fact about the ring that neither
the other end nor the call itself makes false before it returns.
-/

namespace ZeroEmbedded.Foundation

open Threads (Completed)

/-- Two results computed one from the other at the end of a program. -/
theorem Program.bind_ret_bind {C : Type} {R : C → Type} {α β γ : Type} (p : Program C R α)
    (f : α → β) (g : β → γ) :
    ((p.bind fun a => .ret (f a)).bind fun b => .ret (g b)) = p.bind fun a => .ret (g (f a)) :=
  Program.bind_assoc p (fun a => .ret (f a)) fun b => .ret (g b)

namespace RingCalls

variable {α Op Res Op' Res' : Type}

/-- The call `op'` of the end `i` makes the call `op` while `fact` holds, and passes on its
result. -/
structure PassesOn (P : RingCalls α Op Res) (P' : RingCalls α Op' Res') (i : RingEnd) (op : Op)
    (op' : Op') (g : Res → Res') (fact : RingBuffer α → Prop) : Prop where
  size_eq : P'.size = P.size
  element_eq : P'.element = P.element
  stable : ∀ s t, fact s → P.Relies i s t → fact t
  quiet : ∀ s t, fact s → P.Guarantees i none s t → fact t
  meets : ∀ a seen, fact seen → P.meets ⟨op, a, seen⟩ → P'.meets ⟨op', g a, seen⟩
  accepted_eq : ∀ a seen, P.meets ⟨op, a, seen⟩ →
    P'.accepted ⟨op', g a, seen⟩ = P.accepted ⟨op, a, seen⟩
  delivered_eq : ∀ a seen, P.meets ⟨op, a, seen⟩ →
    P'.delivered ⟨op', g a, seen⟩ = P.delivered ⟨op, a, seen⟩

namespace PassesOn

variable {P : RingCalls α Op Res} {P' : RingCalls α Op' Res'} {op : Op} {op' : Op'}
  {g : Res → Res'} {fact : RingBuffer α → Prop} {i : RingEnd} {p : RingProgram α Res}
  {r r' s t seen : RingBuffer α} {items : List α} {c : RingCommand α}

theorem stores_iff (h : P.PassesOn P' i op op' g fact) {q : List α} : P'.Stores r q ↔ P.Stores r q := by
  constructor
  · rintro ⟨hholds, helements⟩
    rw [h.size_eq] at hholds
    rw [h.element_eq] at helements
    exact ⟨hholds, helements⟩
  · rintro ⟨hholds, helements⟩
    rw [← h.size_eq] at hholds
    rw [← h.element_eq] at helements
    exact ⟨hholds, helements⟩

theorem produces_iff (h : P.PassesOn P' i op op' g fact) :
    P'.Produces r r' items ↔ P.Produces r r' items :=
  ⟨fun hp => ⟨hp.tail_eq, fun q hq => h.stores_iff.mp (hp.stores q (h.stores_iff.mpr hq))⟩,
    fun hp => ⟨hp.tail_eq, fun q hq => h.stores_iff.mpr (hp.stores q (h.stores_iff.mp hq))⟩⟩

theorem consumes_iff (h : P.PassesOn P' i op op' g fact) :
    P'.Consumes r r' items ↔ P.Consumes r r' items := by
  constructor
  · refine fun hc => ⟨hc.head_eq, hc.slots_eq, fun q hq => ?_⟩
    obtain ⟨rest, hrest, hstores⟩ := hc.stores q (h.stores_iff.mpr hq)
    exact ⟨rest, hrest, h.stores_iff.mp hstores⟩
  · refine fun hc => ⟨hc.head_eq, hc.slots_eq, fun q hq => ?_⟩
    obtain ⟨rest, hrest, hstores⟩ := hc.stores q (h.stores_iff.mp hq)
    exact ⟨rest, hrest, h.stores_iff.mpr hstores⟩

theorem relies_iff (h : P.PassesOn P' i op op' g fact) :
    P'.Relies i s t ↔ P.Relies i s t := by
  cases i with
  | producer => exact exists_congr fun _ => h.consumes_iff
  | consumer => exact exists_congr fun _ => h.produces_iff

theorem allowed_iff (h : P.PassesOn P' i op op' g fact) : P'.Allowed s c ↔ P.Allowed s c := by
  have hlive : ∀ slot, P'.Live s slot ↔ P.Live s slot := by
    intro slot
    rw [Live, Live, h.size_eq]
  cases c <;> simp only [Allowed, h.size_eq, hlive]

/-- What remains of the call guarantees what the call of the ring guarantees. -/
theorem guarantees (h : P.PassesOn P' i op op' g fact) (hseen : fact seen)
    (hp : P.Guarantees i (Threads.settle op seen p).2 r r') :
    P'.Guarantees i (Threads.settle op' seen (p.bind fun a => .ret (g a))).2 r r' := by
  obtain ⟨hmeets, hends⟩ := hp
  cases p with
  | call c k =>
      refine ⟨nofun, ?_⟩
      cases i with
      | producer => exact ⟨h.produces_iff.mpr hends.1, rfl⟩
      | consumer => exact ⟨h.consumes_iff.mpr hends.1, rfl⟩
  | stuck =>
      refine ⟨nofun, ?_⟩
      cases i with
      | producer => exact ⟨h.produces_iff.mpr hends.1, rfl⟩
      | consumer => exact ⟨h.consumes_iff.mpr hends.1, rfl⟩
  | ret a =>
      have hmet : P.meets ⟨op, a, seen⟩ := hmeets _ rfl
      have haccepted : P'.acceptedBy (some ⟨op', g a, seen⟩) = P.acceptedBy (some ⟨op, a, seen⟩) :=
        h.accepted_eq a seen hmet
      have hdelivered :
          P'.deliveredBy (some ⟨op', g a, seen⟩) = P.deliveredBy (some ⟨op, a, seen⟩) :=
        h.delivered_eq a seen hmet
      constructor
      · rintro d ⟨⟩
        exact h.meets a seen hseen hmet
      · cases i with
        | producer =>
            change P'.Produces r r' (P'.acceptedBy (some ⟨op', g a, seen⟩)) ∧
              P'.deliveredBy (some ⟨op', g a, seen⟩) = []
            rw [haccepted, hdelivered]
            exact ⟨h.produces_iff.mpr hends.1, hends.2⟩
        | consumer =>
            change P'.Consumes r r' (P'.deliveredBy (some ⟨op', g a, seen⟩)) ∧
              P'.acceptedBy (some ⟨op', g a, seen⟩) = []
            rw [haccepted, hdelivered]
            exact ⟨h.consumes_iff.mpr hends.1, hends.2⟩

/-- What remains of the call conforms, by induction on what remains of the call of the ring. -/
theorem conforms (h : P.PassesOn P' i op op' g fact) (hfact : fact s) (hseen : fact seen)
    (hp : P.contract.Conforms P.threads i op p s seen) :
    P'.contract.Conforms P'.threads i op' (p.bind fun a => .ret (g a)) s seen := by
  induction p generalizing s seen with
  | ret a => trivial
  | stuck => exact hp
  | call c k ih =>
      intro t hrely hinv
      obtain ⟨q, hq⟩ := hinv
      have hnow : fact t := h.stable s t hfact (h.relies_iff.mp hrely)
      obtain ⟨hallowed, hguar, hrest⟩ :=
        hp t (h.relies_iff.mp hrely) ⟨q, h.stores_iff.mp hq⟩
      have hsees : fact (Threads.see P.threads c t seen) := by
        rw [Threads.see]
        split
        · exact hnow
        · exact hseen
      refine ⟨h.allowed_iff.mpr hallowed, h.guarantees hsees hguar, ?_⟩
      -- the fact still holds when the call goes on
      have hlater : (Threads.settle op (Threads.see P.threads c t seen)
          (k (P.threads.handler c t).1)).2 = none → fact (P.threads.handler c t).2 := by
        intro hnone
        rw [hnone] at hguar
        exact h.quiet t _ hnow hguar
      change P'.contract.Conforms P'.threads i op'
        ((k (P.threads.handler c t).1).bind fun a => .ret (g a)) _ _
      cases hnext : k (P.threads.handler c t).1 with
      | ret a => trivial
      | stuck =>
          rw [hnext] at hrest
          exact hrest
      | call c' k' =>
          rw [hnext] at hlater
          rw [← hnext]
          exact ih _ (hlater rfl) hsees hrest

/-- A call that passes on what keeps the contract keeps the contract. -/
theorem after (h : P.PassesOn P' i op op' g fact) (hfact : fact s)
    (hp : P.contract.After P.threads i op p s s s) :
    P'.contract.After P'.threads i op' (p.bind fun a => .ret (g a)) s s s :=
  ⟨h.guarantees hfact hp.guarantee, h.conforms hfact hfact hp.conforms⟩

/-- A call that only passes on a call that keeps the contract keeps the contract. -/
theorem starts (h : P.PassesOn P' i op op' g fact) (hfact : fact s) (hside : P.side op = i)
    (hside' : P'.side op' = i)
    (hprogram : P'.program op' = (P.program op).bind fun a => .ret (g a))
    (hstart : P.contract.Starts P.threads op s) : P'.contract.Starts P'.threads op' s := by
  have howner : P.threads.owner op = i := hside
  have howner' : P'.threads.owner op' = i := hside'
  have hprogram' : P'.threads.program op' = (P.threads.program op).bind fun a => .ret (g a) :=
    hprogram
  rw [Threads.Contract.Starts, howner] at hstart
  rw [Threads.Contract.Starts, howner', hprogram']
  exact h.after hfact hstart

end PassesOn

section Queries

variable {P : RingCalls α Op Res} {op : Op} {r r' s t seen : RingBuffer α} {items : List α}
  {n : Nat}

variable (P) in
/-- At most `n` elements are in the queue. -/
def AtMost (n : Nat) (r : RingBuffer α) : Prop := ∃ q, P.Stores r q ∧ q.length ≤ n

variable (P) in
/-- At least `n` elements are in the queue. -/
def AtLeast (n : Nat) (r : RingBuffer α) : Prop := ∃ q, P.Stores r q ∧ n ≤ q.length

theorem AtMost.consumes (h : P.AtMost n r) (hcons : P.Consumes r r' items) : P.AtMost n r' := by
  obtain ⟨q, hq, hle⟩ := h
  obtain ⟨rest, rfl, hrest⟩ := hcons.stores q hq
  rw [List.length_append] at hle
  exact ⟨rest, hrest, by omega⟩

theorem AtLeast.produces (h : P.AtLeast n r) (hprod : P.Produces r r' items) :
    P.AtLeast n r' := by
  obtain ⟨q, hq, hle⟩ := h
  exact ⟨q ++ items, hprod.stores q hq, by rw [List.length_append]; omega⟩

/-- What the producer knows about the free slots stays true until it appends an element. -/
theorem AtMost.stable (h : P.AtMost n s) (hrely : P.Relies .producer s t) : P.AtMost n t := by
  obtain ⟨items, hcons⟩ := hrely
  exact h.consumes hcons

theorem AtMost.quiet (h : P.AtMost n s) (hguar : P.Guarantees .producer none s t) :
    P.AtMost n t := by
  obtain ⟨q, hq, hle⟩ := h
  have hnext := hguar.2.1.stores q hq
  rw [acceptedBy, Option.elim_none, List.append_nil] at hnext
  exact ⟨q, hnext, hle⟩

/-- What the consumer knows about the elements stays true until it removes one. -/
theorem AtLeast.stable (h : P.AtLeast n s) (hrely : P.Relies .consumer s t) : P.AtLeast n t := by
  obtain ⟨items, hprod⟩ := hrely
  exact h.produces hprod

theorem AtLeast.quiet (h : P.AtLeast n s) (hguar : P.Guarantees .consumer none s t) :
    P.AtLeast n t := by
  obtain ⟨q, hq, hle⟩ := h
  obtain ⟨rest, hrest, hnext⟩ := hguar.2.1.stores q hq
  rw [deliveredBy, Option.elim_none, List.nil_append] at hrest
  exact ⟨rest, hnext, hrest ▸ hle⟩

/-- Both counters, in either order. -/
def loadBoth (headFirst : Bool) : RingProgram α (Nat × Nat) :=
  if headFirst then
    RingProgram.loadHead.bind fun head => RingProgram.loadTail.bind fun tail => .ret (head, tail)
  else
    RingProgram.loadTail.bind fun tail => RingProgram.loadHead.bind fun head => .ret (head, tail)

/-- In either order the producer loads both counters of a state from which only elements have been
removed since. -/
theorem producer_asks {headFirst : Bool} {k : Nat × Nat → RingProgram α Res}
    (hk : ∀ t u q items, P.Stores t q → P.Consumes t u items →
      P.contract.After P.threads .producer op (k (t.head, t.tail)) u u u) :
    P.contract.After P.threads .producer op ((loadBoth headFirst).bind k) s s s := by
  cases headFirst with
  | true =>
      apply producer_continues rfl
      exact producer_loads fun t q hq => hk t t q [] hq (Consumes.refl t)
  | false =>
      apply producer_continues rfl
      apply Threads.Contract.Conforms.command
      rintro t _ ⟨q, hq⟩
      refine ⟨trivial, Guarantees.quiet_producer rfl (Produces.refl t), ?_⟩
      apply Threads.Contract.Conforms.command
      rintro u ⟨items, hcons⟩ -
      have hafter := hk t u q items hq hcons
      have hhead : u.head = t.head := hcons.head_eq
      rw [← hhead] at hafter
      exact ⟨trivial, hafter⟩

/-- In either order the consumer loads both counters of a state to which only elements have been
appended since. -/
theorem consumer_asks {headFirst : Bool} {k : Nat × Nat → RingProgram α Res}
    (hk : ∀ t u q items, P.Stores t q → P.Produces t u items →
      P.contract.After P.threads .consumer op (k (t.head, t.tail)) u u u) :
    P.contract.After P.threads .consumer op ((loadBoth headFirst).bind k) s s s := by
  cases headFirst with
  | true =>
      apply consumer_continues rfl
      refine consumer_peeks fun t u q items hq hprod => ?_
      have hafter := hk t u q items hq hprod
      rwa [← hprod.tail_eq] at hafter
  | false =>
      apply consumer_continues rfl
      exact consumer_loads fun t q hq => hk t t q [] hq (Produces.refl t)

end Queries

end RingCalls

end ZeroEmbedded.Foundation
