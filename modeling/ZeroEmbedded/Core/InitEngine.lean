import ZeroEmbedded.Foundation.ExchangeSort
import ZeroEmbedded.Foundation.Runs
import ZeroEmbedded.Types

/-!
# The initialization engine

`init.c`. Every level sorts its own entries within the table of all the levels
and then calls their functions, until one of them fails.

## Implementation notes

The array of the entries ends at `s_init_count`. An init function is a function
on the rest of the system, so that it does not register others.
-/

namespace ZeroEmbedded.InitEngine

open Foundation

variable {σ : Type}

/-- `FW_NULL`. -/
def fwNull : Nat := 0

/-- `FW_INIT_LEVEL_COUNT`. -/
def fwInitLevelCount : Nat := 4

/-- `FW_INIT_MAX_ENTRIES`. -/
def fwInitMaxEntries : Nat := 32

/-- `fw_init_entry_t`; the function is an address. -/
structure FwInitEntry where
  name : String
  initFn : Nat
  level : UInt8
  priority : UInt8
  deriving DecidableEq, Repr

/-- The static variables of the engine. -/
structure InitTable where
  entries : Array FwInitEntry
  levelExecuted : Vector Bool 4

/-- `fw_init_register`. -/
def fwInitRegister (name : Option String) (fn : Nat) (level priority : UInt8)
    (table : InitTable) : FwStatus × InitTable :=
  if fn = fwNull ∨ level.toNat ≥ fwInitLevelCount then (.errInvalidArg, table)
  else if table.entries.size ≥ fwInitMaxEntries then (.errBufferOverflow, table)
  else if table.entries.any fun e => e.initFn = fn then (.ok, table)
  else
    (.ok, { table with
      entries := table.entries.push ⟨name.getD "unnamed_init", fn, level, priority⟩ })

def FwInitEntry.atLevel (level : Nat) (e : FwInitEntry) : Bool := e.level = UInt8.ofNat level

/-- Two entries of the level that the sorting loops of `fw_init_level` exchange. -/
def comesBehind (level : Nat) (a b : FwInitEntry) : Bool :=
  a.atLevel level && b.atLevel level && a.priority > b.priority

/-- The call of an init function and its result. -/
structure InitCall where
  entry : FwInitEntry
  status : FwStatus
  deriving DecidableEq, Repr

/-- The loop of `fw_init_level` that calls the functions. -/
def executeLoop (fns : Nat → σ → FwStatus × σ) (level : Nat) :
    List FwInitEntry → σ → FwStatus × σ × List InitCall
  | [], w => (.ok, w, [])
  | e :: rest, w =>
      if e.atLevel level ∧ e.initFn ≠ fwNull then
        let result := fns e.initFn w
        if result.1 ≠ .ok then (result.1, result.2, [⟨e, result.1⟩])
        else
          let others := executeLoop fns level rest result.2
          (others.1, others.2.1, ⟨e, result.1⟩ :: others.2.2)
      else executeLoop fns level rest w

section Registration

/-- The arguments of a call of `fw_init_register`. -/
structure Registration where
  name : Option String
  fn : Nat
  level : UInt8
  priority : UInt8

def Registration.run (table : InitTable) (r : Registration) : InitTable :=
  (fwInitRegister r.name r.fn r.level r.priority table).2

/-- The arguments are accepted. -/
def Registration.Valid (r : Registration) : Prop :=
  r.fn ≠ fwNull ∧ r.level.toNat < fwInitLevelCount

instance (r : Registration) : Decidable r.Valid := inferInstanceAs (Decidable (_ ∧ _))

def Registration.entry (r : Registration) : FwInitEntry :=
  ⟨r.name.getD "unnamed_init", r.fn, r.level, r.priority⟩

/-- The functions that are registered. -/
def registeredFns (calls : List Registration) : Finset Nat :=
  ((calls.filter fun r => r.Valid).map (·.fn)).toFinset

/-- The entry is that of the first accepted call for its function. -/
def FirstRegistration (calls : List Registration) (e : FwInitEntry) : Prop :=
  ∃ before r after, calls = before ++ r :: after ∧ r.Valid ∧ r.fn ∉ registeredFns before ∧
    e = r.entry

/-- The table holds one entry for every registered function. -/
structure Registered (calls : List Registration) (entries : List FwInitEntry) : Prop where
  nodup : (entries.map (·.initFn)).Nodup
  fns : ∀ fn, fn ∈ entries.map (·.initFn) ↔ fn ∈ registeredFns calls
  entries : ∀ e, e ∈ entries ↔ FirstRegistration calls e

variable {calls : List Registration} {r : Registration} {e : FwInitEntry}

theorem registeredFns_concat (calls : List Registration) (r : Registration) :
    registeredFns (calls ++ [r]) =
      if r.Valid then insert r.fn (registeredFns calls) else registeredFns calls := by
  rw [registeredFns, List.filter_append, List.map_append, List.toFinset_append]
  split
  · next hvalid =>
      rw [List.filter_singleton, decide_eq_true hvalid, cond_true, List.map_singleton,
        List.toFinset_cons, List.toFinset_nil, Finset.union_comm]
      rfl
  · next hvalid =>
      rw [List.filter_singleton, decide_eq_false hvalid, cond_false]
      exact Finset.union_empty _

theorem firstRegistration_concat :
    FirstRegistration (calls ++ [r]) e ↔
      FirstRegistration calls e ∨ r.Valid ∧ r.fn ∉ registeredFns calls ∧ e = r.entry := by
  constructor
  · rintro ⟨before, r', after, hsplit, hrest⟩
    rcases concat_eq_append_cons hsplit with ⟨rfl, rfl, -⟩ | ⟨rest, -, hcalls⟩
    · exact Or.inr hrest
    · exact Or.inl ⟨before, r', rest, hcalls, hrest⟩
  · rintro (⟨before, r', after, rfl, hrest⟩ | hrest)
    · exact ⟨before, r', after ++ [r], by rw [List.append_assoc, List.cons_append], hrest⟩
    · exact ⟨calls, r, [], rfl, hrest⟩

theorem Registered.length_eq {entries : List FwInitEntry} (h : Registered calls entries) :
    entries.length = (registeredFns calls).card := by
  have hfns : (entries.map (·.initFn)).toFinset = registeredFns calls := by
    ext fn
    rw [List.mem_toFinset, h.fns]
  rw [← hfns, List.toFinset_card_of_nodup h.nodup, List.length_map]

/-- A call keeps the table up to date while there is room for its function. -/
theorem Registered.register {table : InitTable} (h : Registered calls table.entries.toList)
    (hroom : (registeredFns (calls ++ [r])).card ≤ fwInitMaxEntries) :
    Registered (calls ++ [r]) (r.run table).entries.toList := by
  rw [Registration.run, fwInitRegister]
  by_cases hvalid : r.Valid
  · rw [if_neg (not_or.mpr ⟨hvalid.1, Nat.not_le.mpr hvalid.2⟩)]
    by_cases hknown : r.fn ∈ registeredFns calls
    · -- nothing changes, whether the table is full or not
      have hany : table.entries.any (fun e => e.initFn = r.fn) = true := by
        obtain ⟨e, he, hfn⟩ := List.mem_map.mp ((h.fns r.fn).mpr hknown)
        rw [← Array.any_toList, List.any_eq_true]
        exact ⟨e, he, decide_eq_true hfn⟩
      have hsame : Registered (calls ++ [r]) table.entries.toList := by
        constructor
        · exact h.nodup
        · intro fn
          rw [h.fns, registeredFns_concat, if_pos hvalid, Finset.insert_eq_self.mpr hknown]
        · intro e
          rw [h.entries, firstRegistration_concat]
          exact ⟨Or.inl, fun hnew => hnew.resolve_right fun hr => hr.2.1 hknown⟩
      rw [if_pos hany]
      split
      · exact hsame
      · exact hsame
    · have hcard := Finset.card_insert_of_notMem hknown
      rw [registeredFns_concat, if_pos hvalid, hcard, ← h.length_eq, Array.length_toList] at hroom
      have hany : ¬ table.entries.any (fun e => e.initFn = r.fn) = true := by
        rw [← Array.any_toList, List.any_eq_true]
        rintro ⟨e, he, hfn⟩
        exact hknown ((h.fns r.fn).mp (List.mem_map.mpr ⟨e, he, of_decide_eq_true hfn⟩))
      have hnotMem : r.fn ∉ table.entries.toList.map (·.initFn) := fun hmem =>
        hknown ((h.fns r.fn).mp hmem)
      rw [if_neg (by omega), if_neg hany, Array.toList_push]
      constructor
      · rw [List.map_append, List.map_singleton]
        exact List.nodup_append'.mpr ⟨h.nodup, List.nodup_singleton _,
          List.disjoint_singleton.mpr hnotMem⟩
      · intro fn
        rw [List.map_append, List.mem_append, h.fns, registeredFns_concat, if_pos hvalid,
          Finset.mem_insert, List.map_singleton, List.mem_singleton, or_comm]
      · intro e
        rw [List.mem_append, h.entries, firstRegistration_concat, List.mem_singleton]
        exact or_congr_right ⟨fun he => ⟨hvalid, hknown, he⟩, fun he => he.2.2⟩
  · rw [if_pos (by rw [Registration.Valid] at hvalid; omega)]
    constructor
    · exact h.nodup
    · intro fn
      rw [h.fns, registeredFns_concat, if_neg hvalid]
    · intro e
      rw [h.entries, firstRegistration_concat]
      exact ⟨Or.inl, fun hnew => hnew.resolve_right fun hr => hvalid hr.1⟩

end Registration

section Order

/-- The entries are called in turn and succeed, or those before one that fails. -/
inductive RanUntilFailure (order : List FwInitEntry) : FwStatus → List InitCall → Prop
  | all : RanUntilFailure order .ok (order.map fun e => ⟨e, .ok⟩)
  | failed {before after : List FwInitEntry} {e : FwInitEntry} {status : FwStatus}
      (horder : order = before ++ e :: after) (hfailed : status ≠ .ok) :
      RanUntilFailure order status ((before.map fun e => ⟨e, .ok⟩) ++ [⟨e, status⟩])

variable {order rest : List FwInitEntry} {status : FwStatus} {ran : List InitCall}
  {level : Nat} {levels : List Nat} {e : FwInitEntry}

theorem RanUntilFailure.first (hfailed : status ≠ .ok) :
    RanUntilFailure (e :: order) status [⟨e, status⟩] :=
  RanUntilFailure.failed (List.nil_append (e :: order)).symm hfailed

theorem RanUntilFailure.cons (h : RanUntilFailure order status ran) :
    RanUntilFailure (e :: order) status (⟨e, .ok⟩ :: ran) := by
  cases h with
  | all => exact RanUntilFailure.all
  | @failed before after e' _ horder hfailed =>
      have horder' : e :: order = (e :: before) ++ e' :: after := by
        rw [horder, List.cons_append]
      have hran := RanUntilFailure.failed horder' hfailed
      exact hran

/-- Entries that follow when all have succeeded. -/
theorem RanUntilFailure.append {ran' : List InitCall} (h : RanUntilFailure order .ok ran)
    (h' : RanUntilFailure rest status ran') :
    RanUntilFailure (order ++ rest) status (ran ++ ran') := by
  cases h with
  | failed _ hfailed => exact absurd rfl hfailed
  | all =>
      induction order with
      | nil => exact h'
      | cons e order ih => exact ih.cons

end Order

section Execution

variable {fns : Nat → σ → FwStatus × σ} {level : Nat} {levels : List Nat}

end Execution

end ZeroEmbedded.InitEngine
