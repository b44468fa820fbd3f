import WiscKey.Attempts
import WiscKey.Runs
import WiscKey.NewDb.CollectSpec
import WiscKey.NewDb.Sessions

namespace WiscKey.NewDb.FailedPut

open WiscKey.Maps WiscKey.Runs WiscKey.NewDb.Model WiscKey.NewDb.Collect WiscKey.NewDb.CollectSpec

/-- `Put` with the results of the attempts to write to `keydb_` and to
`valuedb_`. The second component is whether it returns OK. -/
def putAttempts (s : State) (k : Key) (v : Value) (keyOk valueOk : Nat → Bool) :
    Option (State × Bool) :=
  let (t, seq) := (s.collectOld s.keydb[k]?).getNewSeq
  let index := Attempts.write keyOk
  let t := if index.applied then t.putKey k seq else t
  if index.acknowledged then
    if Fits k v then
      let value := Attempts.write valueOk
      some (if value.applied then t.putValue seq (encode k v) else t, value.acknowledged)
    else none
  else some (t, false)

inductive Op where
  | reopen
  | put (k : Key) (v : Value) (keyOk valueOk : Nat → Bool)
  | delete (k : Key)
  | gc (levels : List Level) (compactFiles : CompactFiles)

def step (s : State) : Op → Option State
  | .reopen => some (reopen s)
  | .put k v keyOk valueOk => (putAttempts s k v keyOk valueOk).map Prod.fst
  | .delete k => some (delete s k)
  | .gc levels compactFiles => vLogGarbageCollect s levels compactFiles

def Fresh (s : State) : Prop :=
  (∀ k : Key, s.keydb[k]? ≠ some s.sequence) ∧ s.valuedb[s.sequence]? = none ∧
    s.sequence ∉ s.phyKeysForGc

def Unused (s : State) : Prop := ∀ p ∈ s.phyKeysForGc, ∀ k : Key, s.keydb[k]? ≠ some p

/-- A failed `Put` does no harm: the key has no entry when the index is left
alone, no value when the index is written, and the value it is to have when that
is written as well. -/
def Harmless (s : State) (k : Key) (v : Value) (keyOk valueOk : Nat → Bool) : Prop :=
  if (Attempts.write keyOk).acknowledged then
    if (Attempts.write valueOk).applied then lookup s k = some (encode k v) else lookup s k = none
  else if (Attempts.write keyOk).applied then lookup s k = none
  else s.keydb[k]? = none

instance (s : State) (k : Key) (v : Value) (keyOk valueOk : Nat → Bool) :
    Decidable (Harmless s k v keyOk valueOk) :=
  inferInstanceAs (Decidable (ite _ _ _))

def Careful (s : State) : Op → Prop
  | .put k v keyOk valueOk => Fresh s ∧
      (∀ t, putAttempts s k v keyOk valueOk = some (t, false) → Harmless s k v keyOk valueOk)
  | _ => True

variable {s s' : State} {k : Key} {v : Value} {keyOk valueOk : Nat → Bool}

def after (s : State) (k : Key) (v : Value) (index value : Bool) : State where
  keydb := if index then s.keydb.insert k s.sequence else s.keydb
  valuedb := if value then s.valuedb.insert s.sequence (encode k v) else s.valuedb
  sequence := s.sequence + 1
  phyKeysForGc := s.phyKeysForGc ++ s.keydb[k]?.toList

theorem putAttempts_cases {b : Bool} (h : putAttempts s k v keyOk valueOk = some (s', b)) :
    ((Attempts.write keyOk).acknowledged = true ∧ b = (Attempts.write valueOk).acknowledged ∧
        s' = after s k v true (Attempts.write valueOk).applied) ∨
      ((Attempts.write keyOk).acknowledged = false ∧ b = false ∧
        s' = after s k v (Attempts.write keyOk).applied false) := by
  simp only [putAttempts, State.getNewSeq, State.collectOld] at h
  cases ha : (Attempts.write keyOk).acknowledged with
  | true =>
    rw [ha, Attempts.write_applied ha, if_pos rfl, if_pos rfl] at h
    split at h
    · cases h
      refine Or.inl ⟨rfl, rfl, ?_⟩
      cases (Attempts.write valueOk).applied with
      | true => rfl
      | false => rfl
    · cases h
  | false =>
    rw [ha] at h
    cases h
    refine Or.inr ⟨rfl, rfl, ?_⟩
    cases (Attempts.write keyOk).applied with
    | true => rfl
    | false => rfl

theorem putAttempts_ok (s : State) (k : Key) (v : Value) :
    putAttempts s k v (fun _ => true) (fun _ => true) = (put s k v).map fun t => (t, true) := by
  simp only [putAttempts, put, State.getNewSeq, State.collectOld, Attempts.write, if_true]
  split
  · rfl
  · rfl

theorem after_lookup (hf : Fresh s) (index value : Bool) (k' : Key) :
    lookup (after s k v index value) k' =
      if index = true ∧ k = k' then if value then some (encode k v) else none
      else lookup s k' := by
  have hold (p : UInt64) (hp : s.keydb[k']? = some p) :
      (after s k v index value).valuedb[p]? = s.valuedb[p]? := by
    cases value with
    | true =>
      simp only [after, if_true]
      rw [getElem?_insert, if_neg]
      rintro rfl
      exact hf.1 k' hp
    | false => rfl
  by_cases h : index = true ∧ k = k'
  · obtain ⟨rfl, rfl⟩ := h
    cases value with
    | true => simp [lookup, after, getElem?_insert]
    | false => simp [lookup, after, hf.2.1]
  · have hk : (after s k v index value).keydb[k']? = s.keydb[k']? := by
      rw [after]
      split
      · rw [getElem?_insert, if_neg (fun he => h ⟨‹_›, he⟩)]
      · rfl
    rw [if_neg h, lookup, hk]
    exact Option.bind_congr hold

theorem after_unique (hu : Sessions.Unique s) (hf : Fresh s) (index value : Bool) :
    Sessions.Unique (after s k v index value) := by
  cases index with
  | false => exact hu
  | true => exact Sessions.insert_unique hu hf.1 rfl

theorem after_unused (hg : Unused s) (hu : Sessions.Unique s) (hf : Fresh s) (value : Bool) :
    Unused (after s k v true value) := by
  intro p hp k' hk'
  simp only [after, if_true, getElem?_insert] at hp hk'
  obtain hp | hp := List.mem_append.mp hp
  · split at hk'
    · cases hk'
      exact hf.2.2 hp
    · exact hg p hp k' hk'
  · have hold : s.keydb[k]? = some p := Option.mem_toList.mp hp
    split at hk'
    · cases hk'
      exact hf.1 k hold
    · exact absurd (hu k k' p hold hk') ‹_›

/-- The old physical key is recorded as garbage before the index is written. -/
theorem after_unused_iff (hg : Unused s) (value : Bool) :
    Unused (after s k v false value) ↔ s.keydb[k]? = none := by
  constructor
  · intro h
    cases hk : s.keydb[k]? with
    | none => rfl
    | some p =>
      have hp : p ∈ (after s k v false value).phyKeysForGc := by
        rw [after, hk]
        simp
      exact absurd hk (h p hp k)
  · intro hk p hp
    rw [after, hk, Option.toList_none, List.append_nil] at hp
    exact hg p hp

theorem after_unchanged_iff (hg : Unused s) (hu : Sessions.Unique s) (hf : Fresh s)
    (index value : Bool) :
    ((∀ k', lookup (after s k v index value) k' = lookup s k') ∧
        Unused (after s k v index value)) ↔
      if index then lookup s k = if value then some (encode k v) else none
      else s.keydb[k]? = none := by
  cases index with
  | true =>
    rw [and_iff_left (after_unused hg hu hf value), if_pos rfl]
    constructor
    · intro h
      rw [← h k, after_lookup hf, if_pos ⟨rfl, rfl⟩]
    · intro h k'
      rw [after_lookup hf]
      split
      · rename_i he
        rw [← h, he.2]
      · rfl
  | false =>
    rw [after_unused_iff hg value]
    refine and_iff_right ?_
    intro k'
    rw [after_lookup hf, if_neg (fun h => nomatch h.1)]

theorem failed_iff (hg : Unused s) (hu : Sessions.Unique s) (hf : Fresh s)
    (hp : putAttempts s k v keyOk valueOk = some (s', false)) :
    ((∀ k', lookup s' k' = lookup s k') ∧ Unused s') ↔ Harmless s k v keyOk valueOk := by
  rw [Harmless]
  obtain ⟨ha, -, rfl⟩ | ⟨ha, -, rfl⟩ := putAttempts_cases hp
  · rw [after_unchanged_iff hg hu hf, ha, if_pos rfl, if_pos rfl]
    split
    · rfl
    · rfl
  · rw [after_unchanged_iff hg hu hf, ha, if_neg Bool.false_ne_true, if_neg Bool.false_ne_true]

theorem put_kept {b : Bool} (hg : Unused s) (hu : Sessions.Unique s) (hf : Fresh s)
    (hh : b = false → Harmless s k v keyOk valueOk)
    (hp : putAttempts s k v keyOk valueOk = some (s', b)) : Unused s' ∧ Sessions.Unique s' := by
  have hunique : Sessions.Unique s' := by
    obtain ⟨-, -, rfl⟩ | ⟨-, -, rfl⟩ := putAttempts_cases hp
    · exact after_unique hu hf _ _
    · exact after_unique hu hf _ _
  refine ⟨?_, hunique⟩
  cases b with
  | false => exact ((failed_iff hg hu hf hp).mpr (hh rfl)).2
  | true =>
    obtain ⟨-, -, rfl⟩ | ⟨-, hb, -⟩ := putAttempts_cases hp
    · exact after_unused hg hu hf _
    · cases hb

theorem delete_unused (hg : Unused s) : Unused (delete s k) := by
  intro p hp k' hk'
  rw [delete, State.deleteKey, getElem?_erase] at hk'
  split at hk'
  · cases hk'
  · exact hg p hp k' hk'

theorem step_kept {op : Op} (h : Unused s ∧ Sessions.Unique s) (hc : Careful s op)
    (hs : step s op = some s') : Unused s' ∧ Sessions.Unique s' := by
  cases op with
  | reopen =>
    cases hs
    exact ⟨fun p hp => absurd hp List.not_mem_nil, h.2⟩
  | put k v keyOk valueOk =>
    obtain ⟨⟨t, b⟩, hp, rfl⟩ := Option.map_eq_some_iff.mp hs
    refine put_kept h.1 h.2 hc.1 ?_ hp
    rintro rfl
    exact hc.2 t hp
  | delete k =>
    cases hs
    exact ⟨delete_unused h.1, Sessions.delete_unique h.2⟩
  | gc levels compactFiles =>
    obtain ⟨hk, -, hsub, -⟩ := collect_frame hs
    constructor
    · intro p hp k
      rw [hk]
      exact h.1 p (hsub hp) k
    · intro a b p ha hb
      rw [hk] at ha hb
      exact h.2 a b p ha hb

/-- In a run without harm, a failed `Put` changes no lookup and leaves no key in
use among the garbage just when it is harmless. -/
theorem failed_put_invisible_iff (ops : List Op) (s s' : State) (k : Key) (v : Value)
    (keyOk valueOk : Nat → Bool) (hc : AlongM step Careful openFresh ops)
    (hrun : ops.foldlM step openFresh = some s) (hf : Fresh s)
    (hp : putAttempts s k v keyOk valueOk = some (s', false)) :
    ((∀ k', lookup s' k' = lookup s k') ∧ Unused s') ↔ Harmless s k v keyOk valueOk := by
  have h : Unused s ∧ Sessions.Unique s := by
    refine hc.keeps (fun _ _ _ _ h hc hs => step_kept h hc hs) ?_ hrun
    refine ⟨fun p hp => absurd hp List.not_mem_nil, ?_⟩
    intro a b p ha
    simp [openFresh] at ha
  exact failed_iff h.1 h.2 hf hp

theorem failed_put_invisible_new : ∃ s s',
    [Op.put [1] [10] (fun _ => true) (fun _ => true)].foldlM step openFresh = some s ∧
      putAttempts s [2] [20] (fun _ => true) (fun _ => false) = some (s', false) ∧
      lookup s [1] = some [1, 1, 10] ∧ (∀ k', lookup s' k' = lookup s k') ∧ Unused s' := by
  have hfresh : Fresh openFresh := by
    refine ⟨fun k => ?_, rfl, List.not_mem_nil⟩
    simp [openFresh]
  have hf : Fresh (after openFresh [1] [10] true true) := by
    refine ⟨fun k => ?_, ?_, ?_⟩
    · simp only [after, if_true, getElem?_insert]
      split
      · decide
      · simp [openFresh]
    · decide +kernel
    · decide +kernel
  refine ⟨after openFresh [1] [10] true true, _, rfl, rfl, by decide +kernel, ?_⟩
  refine (failed_put_invisible_iff [.put [1] [10] (fun _ => true) (fun _ => true)] _ _ [2] [20]
    (fun _ => true) (fun _ => false) ?_ rfl hf rfl).mpr ?_
  · refine ⟨⟨hfresh, ?_⟩, ?_⟩
    · intro t ht
      rw [putAttempts_ok] at ht
      obtain ⟨u, -, hu⟩ := Option.map_eq_some_iff.mp ht
      cases hu
    · intro t _
      trivial
  · decide +kernel

/-- A `Put` over an old value whose new value is never written: the key is lost. -/
theorem failed_put_loses : ∃ s s',
    [Op.put [1] [10] (fun _ => true) (fun _ => true)].foldlM step openFresh = some s ∧
      putAttempts s [1] [11] (fun _ => true) (fun _ => false) = some (s', false) ∧
      lookup s [1] = some [1, 1, 10] ∧ lookup s' [1] = none := by
  refine ⟨_, _, rfl, rfl, ?_, ?_⟩
  · decide +kernel
  · decide +kernel

end WiscKey.NewDb.FailedPut
