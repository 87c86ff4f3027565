import ZeroEmbedded.Foundation.Runs

/-!
# Accumulators by keys in a bounded table

A table has one entry for each key. An event is added to the entry of its key, or
makes a new entry while there is room. The entries are then the folds of the
events of the first keys.
-/

namespace ZeroEmbedded.Foundation

variable {ε κ μ : Type*} [DecidableEq κ]

/-- How events make entries and are added to them. -/
structure KeyedFold (ε κ μ : Type*) where
  key : ε → κ
  entryKey : μ → κ
  start : ε → μ
  add : μ → ε → μ
  entryKey_start : ∀ e, entryKey (start e) = key e
  entryKey_add : ∀ m e, entryKey (add m e) = entryKey m

/-- The key is one of the first distinct keys, of which there are so many. -/
def AmongFirst (capacity : Nat) (keys : List κ) (k : κ) : Prop :=
  ∃ before after, keys = before ++ k :: after ∧ k ∉ before ∧ before.toFinset.card < capacity

variable {capacity : Nat} {keys : List κ} {k k' : κ}

theorem AmongFirst.mem (h : AmongFirst capacity keys k) : k ∈ keys := by
  obtain ⟨before, after, rfl, -, -⟩ := h
  exact List.mem_append_right _ List.mem_cons_self

/-- One more key is among the first ones when it is new and there is room. -/
theorem amongFirst_concat : AmongFirst capacity (keys ++ [k']) k ↔
    AmongFirst capacity keys k ∨ k = k' ∧ k' ∉ keys ∧ keys.toFinset.card < capacity := by
  constructor
  · rintro ⟨before, after, heq, hnew, hroom⟩
    rcases concat_eq_append_cons heq with ⟨rfl, rfl, -⟩ | ⟨rest, -, hkeys⟩
    · exact Or.inr ⟨rfl, hnew, hroom⟩
    · exact Or.inl ⟨before, rest, hkeys, hnew, hroom⟩
  · rintro (⟨before, after, rfl, hnew, hroom⟩ | ⟨rfl, hnew, hroom⟩)
    · exact ⟨before, after ++ [k'], by rw [List.append_assoc]; rfl, hnew, hroom⟩
    · exact ⟨keys, [], rfl, hnew, hroom⟩

/-- Few distinct keys are all among the first ones. -/
theorem amongFirst_of_card_le (hcard : keys.toFinset.card ≤ capacity) (hk : k ∈ keys) :
    AmongFirst capacity keys k := by
  obtain ⟨before, after, rfl, hnew⟩ := List.eq_append_cons_of_mem hk
  refine ⟨before, after, rfl, hnew, Nat.lt_of_lt_of_le ?_ hcard⟩
  apply Finset.card_lt_card
  refine ⟨fun x hx => ?_, fun hsubset => ?_⟩
  · exact List.mem_toFinset.mpr (List.mem_append_left _ (List.mem_toFinset.mp hx))
  · exact hnew (List.mem_toFinset.mp (hsubset (List.mem_toFinset.mpr hk)))

theorem card_toFinset_concat (keys : List κ) (k : κ) : (keys ++ [k]).toFinset.card =
    if k ∈ keys then keys.toFinset.card else keys.toFinset.card + 1 := by
  have hinsert : (keys ++ [k]).toFinset = insert k keys.toFinset := by
    ext x
    rw [List.mem_toFinset, List.mem_append, List.mem_singleton, Finset.mem_insert,
      List.mem_toFinset, or_comm]
  rw [hinsert, Finset.card_insert_eq_ite]
  simp only [List.mem_toFinset]

namespace KeyedFold

variable (F : KeyedFold ε κ μ)

/-- The table with the event added to the entry of its key, if there is one. -/
def addToEntry (e : ε) : List μ → Option (List μ)
  | [] => none
  | m :: rest =>
      if F.entryKey m = F.key e then some (F.add m e :: rest) else (addToEntry e rest).map (m :: ·)

/-- The table behind an event. -/
def record (capacity : Nat) (e : ε) (table : List μ) : List μ :=
  match F.addToEntry e table with
  | some updated => updated
  | none => if table.length ≥ capacity then table else table ++ [F.start e]

/-- The entry for these events. -/
def tally : List ε → Option μ
  | [] => none
  | e :: rest => some (rest.foldl F.add (F.start e))

/-- The events of a key. -/
def events (es : List ε) (k : κ) : List ε := es.filter fun e => F.key e = k

/-- The table has the entries of the first keys, and nothing else. -/
structure Tabulates (capacity : Nat) (es : List ε) (table : List μ) : Prop where
  nodup : (table.map F.entryKey).Nodup
  entry : ∀ m ∈ table, F.tally (F.events es (F.entryKey m)) = some m
  keys : ∀ k, k ∈ table.map F.entryKey ↔ AmongFirst capacity (es.map F.key) k
  length : table.length = min capacity (es.map F.key).toFinset.card

variable {F} {e : ε} {es : List ε} {table updated : List μ}

omit [DecidableEq κ] in
theorem tally_concat (es : List ε) (e : ε) :
    F.tally (es ++ [e]) = some ((F.tally es).elim (F.start e) fun m => F.add m e) := by
  cases es with
  | nil => rfl
  | cons first rest =>
      rw [List.cons_append, tally, List.foldl_append]
      rfl

omit [DecidableEq κ] in
theorem tally_eq_none_iff : F.tally es = none ↔ es = [] := by
  cases es with
  | nil => exact iff_of_true rfl rfl
  | cons e rest => exact iff_of_false (fun h => nomatch h) (List.cons_ne_nil e rest)

theorem addToEntry_none (h : F.addToEntry e table = none) :
    F.key e ∉ table.map F.entryKey := by
  induction table with
  | nil => exact List.not_mem_nil
  | cons m rest ih =>
      rw [addToEntry] at h
      split at h
      · cases h
      · next hother =>
          rw [List.map_cons, List.mem_cons, not_or]
          exact ⟨Ne.symm hother, ih (Option.map_eq_none_iff.mp h)⟩

/-- The entry of the key is replaced, and the other ones stay. -/
theorem addToEntry_some (h : F.addToEntry e table = some updated) :
    ∃ before m after, table = before ++ m :: after ∧ F.entryKey m = F.key e ∧
      updated = before ++ F.add m e :: after := by
  induction table generalizing updated with
  | nil => cases h
  | cons m rest ih =>
      rw [addToEntry] at h
      split at h
      · next hkey => exact ⟨[], m, rest, rfl, hkey, (Option.some_inj.mp h).symm⟩
      · obtain ⟨tail, htail, rfl⟩ := Option.map_eq_some_iff.mp h
        obtain ⟨before, m', after, rfl, hkey, rfl⟩ := ih htail
        exact ⟨m :: before, m', after, rfl, hkey, rfl⟩

theorem events_concat_self (es : List ε) (e : ε) :
    F.events (es ++ [e]) (F.key e) = F.events es (F.key e) ++ [e] := by
  rw [events, List.filter_append, List.filter_singleton, decide_eq_true rfl]
  rfl

theorem events_concat_of_ne (es : List ε) (hk : F.key e ≠ k) :
    F.events (es ++ [e]) k = F.events es k := by
  rw [events, List.filter_append, List.filter_singleton, decide_eq_false hk]
  exact List.append_nil _

theorem events_eq_nil (hk : k ∉ es.map F.key) : F.events es k = [] := by
  apply List.filter_eq_nil_iff.mpr
  intro e he heq
  exact hk (List.mem_map.mpr ⟨e, he, of_decide_eq_true heq⟩)

theorem tabulates_nil : F.Tabulates capacity [] [] := by
  refine ⟨List.nodup_nil, fun m hm => absurd hm List.not_mem_nil, fun k => ?_, ?_⟩
  · exact iff_of_false List.not_mem_nil fun h => List.not_mem_nil h.mem
  · exact (Nat.min_zero capacity).symm

/-- An event of an entry of the table. -/
theorem Tabulates.add (h : F.Tabulates capacity es table) (e : ε) {before after : List μ} {m : μ}
    (htable : table = before ++ m :: after) (hm : F.entryKey m = F.key e) :
    F.Tabulates capacity (es ++ [e]) (before ++ F.add m e :: after) := by
  have hkeys : (before ++ F.add m e :: after).map F.entryKey = table.map F.entryKey := by
    rw [htable, List.map_append, List.map_append, List.map_cons, List.map_cons, F.entryKey_add]
  have hmem : m ∈ table := htable ▸ List.mem_append_right _ List.mem_cons_self
  have hold : F.key e ∈ es.map F.key :=
    ((h.keys _).mp (List.mem_map.mpr ⟨m, hmem, hm⟩)).mem
  constructor
  · rw [hkeys]
    exact h.nodup
  · have hothers : ∀ m' ∈ before ++ after, m' ∈ table ∧ F.key e ≠ F.entryKey m' := by
      have hperm : (before ++ m :: after).Perm (m :: (before ++ after)) := List.perm_middle
      have hnodup := h.nodup
      rw [htable, (hperm.map F.entryKey).nodup_iff, List.map_cons, List.nodup_cons, hm] at hnodup
      intro m' hm'
      refine ⟨htable ▸ hperm.symm.subset (List.mem_cons_of_mem m hm'), fun heq => ?_⟩
      exact hnodup.1 (heq ▸ List.mem_map_of_mem hm')
    have hother : ∀ m' ∈ before ++ after,
        F.tally (F.events (es ++ [e]) (F.entryKey m')) = some m' := by
      intro m' hm'
      rw [events_concat_of_ne es (hothers m' hm').2]
      exact h.entry m' (hothers m' hm').1
    intro m' hm'
    rcases List.mem_append.mp hm' with hm' | hm'
    · exact hother m' (List.mem_append_left _ hm')
    · rcases List.mem_cons.mp hm' with rfl | hm'
      · have hentry := h.entry m hmem
        rw [hm] at hentry
        rw [F.entryKey_add, hm, events_concat_self, tally_concat, hentry]
        rfl
      · exact hother m' (List.mem_append_right _ hm')
  · intro k
    rw [hkeys, List.map_append, List.map_singleton, amongFirst_concat, h.keys,
      or_iff_left fun hnew => hnew.2.1 hold]
  · have hlength := congrArg List.length hkeys
    rw [List.length_map, List.length_map] at hlength
    rw [hlength, List.map_append, List.map_singleton, card_toFinset_concat, if_pos hold]
    exact h.length

/-- An event of a key without an entry. -/
theorem Tabulates.append (h : F.Tabulates capacity es table) (e : ε)
    (hnew : F.key e ∉ table.map F.entryKey) : F.Tabulates capacity (es ++ [e])
      (if table.length ≥ capacity then table else table ++ [F.start e]) := by
  have hothers : ∀ m ∈ table, F.tally (F.events (es ++ [e]) (F.entryKey m)) = some m := by
    intro m hm
    rw [events_concat_of_ne es fun heq => hnew (heq ▸ List.mem_map_of_mem hm)]
    exact h.entry m hm
  have hlength := h.length
  split
  · next hfull =>
      refine ⟨h.nodup, hothers, fun k => ?_, ?_⟩
      · rw [List.map_append, List.map_singleton, amongFirst_concat, h.keys,
          or_iff_left fun hroom => by omega]
      · rw [List.map_append, List.map_singleton, card_toFinset_concat]
        split <;> omega
  · next hroom =>
      have hcard : (es.map F.key).toFinset.card < capacity := by omega
      have hfirst : F.key e ∉ es.map F.key := fun hold =>
        hnew ((h.keys _).mpr (amongFirst_of_card_le (Nat.le_of_lt hcard) hold))
      constructor
      · rw [List.map_append, List.map_singleton, F.entryKey_start, ← List.concat_eq_append]
        exact h.nodup.concat hnew
      · intro m hm
        rcases List.mem_append.mp hm with hm | hm
        · exact hothers m hm
        · rw [List.mem_singleton.mp hm, F.entryKey_start, events_concat_self, events_eq_nil hfirst]
          rfl
      · intro k
        rw [List.map_append, List.map_singleton, F.entryKey_start, List.mem_append,
          List.mem_singleton, h.keys, List.map_append, List.map_singleton, amongFirst_concat]
        exact or_congr_right (and_iff_left ⟨hfirst, hcard⟩).symm
      · rw [List.length_append, List.length_singleton, List.map_append, List.map_singleton,
          card_toFinset_concat, if_neg hfirst]
        omega

theorem Tabulates.record (h : F.Tabulates capacity es table) (e : ε) :
    F.Tabulates capacity (es ++ [e]) (F.record capacity e table) := by
  rw [KeyedFold.record]
  cases hadd : F.addToEntry e table with
  | none => exact h.append e (addToEntry_none hadd)
  | some updated =>
      obtain ⟨before, m, after, htable, hm, rfl⟩ := addToEntry_some hadd
      exact h.add e htable hm

/-- The table behind a run has the folds of the events of the first keys. -/
theorem tabulates_foldl (capacity : Nat) (es : List ε) :
    F.Tabulates capacity es (es.foldl (fun table e => F.record capacity e table) []) := by
  induction es using List.reverseRecOn with
  | nil => exact tabulates_nil
  | append_singleton es e ih =>
      rw [List.foldl_append]
      exact ih.record e

end KeyedFold

end ZeroEmbedded.Foundation
