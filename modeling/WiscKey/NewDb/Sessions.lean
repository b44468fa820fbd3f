import WiscKey.Runs
import WiscKey.NewDb.Model

namespace WiscKey.NewDb.Sessions

open WiscKey.Maps WiscKey.Runs WiscKey.NewDb.Model

inductive Op where
  | put (k : Key) (v : Value)
  | delete (k : Key)
  | get (k : Key)
  | reopen

def step (s : State) : Op → Option State
  | .put k v => put s k v
  | .delete k => some (delete s k)
  | .get _ => some s
  | .reopen => some (reopen s)

/-- What an observer of the calls notes down: how many `Put`s there were since
the last open, and of every live key the last `Put`, by its number in its
session and its value. -/
structure Tally where
  puts : Nat
  last : Std.ExtTreeMap Key (Nat × Value)

def Tally.empty : Tally := ⟨0, ∅⟩

def Tally.step (t : Tally) : Op → Tally
  | .put k v => ⟨t.puts + 1, t.last.insert k (t.puts, v)⟩
  | .delete k => { t with last := t.last.erase k }
  | .get _ => t
  | .reopen => { t with puts := 0 }

def tally (ops : List Op) : Tally := ops.foldl Tally.step Tally.empty

/-- No key is live whose last `Put` had the number of this one, counted modulo
`2 ^ 64`. -/
def Apart (t : Tally) : Op → Prop
  | .put _ _ => ∀ (k : Key) (n : Nat) (v : Value), t.last[k]? = some (n, v) →
      n % 2 ^ 64 ≠ t.puts % 2 ^ 64
  | _ => True

instance (t : Tally) : DecidablePred (Apart t)
  | .put _ _ => decidable_of_iff (∀ e ∈ t.last.toList, e.2.1 % 2 ^ 64 ≠ t.puts % 2 ^ 64) (by
      simp only [Apart, Prod.forall, Std.ExtTreeMap.mem_toList_iff_getElem?_eq_some])
  | .delete _ | .get _ | .reopen => inferInstanceAs (Decidable True)

def Unique (s : State) : Prop :=
  ∀ (k k' : Key) (p : UInt64), s.keydb[k]? = some p → s.keydb[k']? = some p → k = k'

def Overwrites (s : State) : Prop :=
  ∃ (k : Key) (p : UInt64), s.keydb[k]? = some p ∧ p ∈ s.valuedb ∧ p = s.sequence

def Resolves (t : Tally) (s : State) : Prop :=
  ∀ k, lookup s k = t.last[k]?.map fun e => encode k e.2

structure Counts (s : State) (t : Tally) : Prop where
  sequence : s.sequence = UInt64.ofNat t.puts
  keydb : ∀ k : Key, s.keydb[k]? = t.last[k]?.map fun e => UInt64.ofNat e.1

variable {s s' : State} {t : Tally} {k : Key} {v : Value} {op : Op}

theorem openFresh_counts : Counts openFresh Tally.empty where
  sequence := rfl
  keydb k := by simp [openFresh, Tally.empty]

theorem step_counts (h : Counts s t) (hs : step s op = some s') : Counts s' (t.step op) := by
  cases op with
  | put k v =>
    obtain ⟨-, rfl⟩ := put_eq_some.mp hs
    refine ⟨?_, ?_⟩
    · simp only [Tally.step, h.sequence, UInt64.ofNat_add]
      rfl
    · intro k'
      simp only [Tally.step, getElem?_insert, h.keydb, h.sequence]
      split
      · rfl
      · rfl
  | delete k =>
    cases hs
    refine ⟨h.sequence, ?_⟩
    intro k'
    simp only [delete, State.deleteKey, Tally.step, getElem?_erase, h.keydb]
    split
    · rfl
    · rfl
  | get k =>
    cases hs
    exact h
  | reopen =>
    cases hs
    exact ⟨rfl, h.keydb⟩

theorem ofNat_eq_iff {m n : Nat} : UInt64.ofNat m = UInt64.ofNat n ↔ m % 2 ^ 64 = n % 2 ^ 64 := by
  rw [← UInt64.toNat_inj, UInt64.toNat_ofNat', UInt64.toNat_ofNat']

theorem apart_iff (h : Counts s t) :
    Apart t (.put k v) ↔ ∀ k' : Key, s.keydb[k']? ≠ some s.sequence := by
  simp only [Apart, h.keydb, h.sequence, ne_eq, Option.map_eq_some_iff, Prod.exists, not_exists,
    not_and, ofNat_eq_iff]

theorem insert_unique (h : Unique s) (hf : ∀ k' : Key, s.keydb[k']? ≠ some s.sequence)
    (hk : s'.keydb = s.keydb.insert k s.sequence) : Unique s' := by
  intro a b p ha hb
  simp only [hk, getElem?_insert] at ha hb
  split at ha
  · cases ha
    split at hb
    · rename_i hka hkb
      exact hka.symm.trans hkb
    · exact absurd hb (hf b)
  · split at hb
    · cases hb
      exact absurd ha (hf a)
    · exact h a b p ha hb

theorem put_unique (h : Unique s) (hf : ∀ k' : Key, s.keydb[k']? ≠ some s.sequence)
    (hp : put s k v = some s') : Unique s' := by
  obtain ⟨-, rfl⟩ := put_eq_some.mp hp
  exact insert_unique h hf rfl

theorem put_resolves (h : Resolves t s) (hf : ∀ k' : Key, s.keydb[k']? ≠ some s.sequence)
    (hp : put s k v = some s') : Resolves (t.step (.put k v)) s' := by
  intro k'
  rw [put_lookup hf hp, Tally.step, getElem?_insert]
  split
  · rename_i hk
    rw [← hk]
    rfl
  · exact h k'

theorem delete_unique (h : Unique s) : Unique (delete s k) := by
  intro a b p ha hb
  simp only [delete, State.deleteKey, getElem?_erase] at ha hb
  split at ha
  · cases ha
  · split at hb
    · cases hb
    · exact h a b p ha hb

theorem step_sound (hc : Counts s t) (hu : Unique s) (hr : Resolves t s) (ha : Apart t op)
    (hs : step s op = some s') : Unique s' ∧ Resolves (t.step op) s' := by
  cases op with
  | put k v =>
    have hf := (apart_iff hc).mp ha
    exact ⟨put_unique hu hf hs, put_resolves hr hf hs⟩
  | delete k =>
    cases hs
    refine ⟨delete_unique hu, fun k' => ?_⟩
    rw [delete_lookup, Tally.step, getElem?_erase]
    split
    · rfl
    · exact hr k'
  | get k =>
    cases hs
    exact ⟨hu, hr⟩
  | reopen =>
    cases hs
    exact ⟨hu, hr⟩

theorem openFresh_sound : Unique openFresh ∧ Resolves Tally.empty openFresh := by
  constructor
  · intro a b p ha hb
    simp [openFresh] at ha
  · intro k
    simp [lookup, openFresh, Tally.empty]

theorem run_counts {ops : List Op} (hrun : ops.foldlM step openFresh = some s) :
    Counts s (tally ops) :=
  (along_of_forall (q := fun _ => True) (fun _ _ => trivial)).simulates_run Counts openFresh_counts
    (fun _ _ _ _ h _ hs => step_counts h hs) hrun

theorem run_sound {ops : List Op} (ha : Along Tally.step Apart Tally.empty ops)
    (hrun : ops.foldlM step openFresh = some s) : Unique s ∧ Resolves (tally ops) s := by
  refine (ha.simulates_run (fun s t => Counts s t ∧ Unique s ∧ Resolves t s)
    ⟨openFresh_counts, openFresh_sound⟩ ?_ hrun).2
  exact fun s t op s' h hap hs => ⟨step_counts h.1 hs, step_sound h.1 h.2.1 h.2.2 hap hs⟩

theorem overwrites_iff (hc : Counts s t) (hr : Resolves t s) :
    ¬Overwrites s ↔ Apart t (.put k v) := by
  rw [apart_iff hc, not_iff_comm]
  push Not
  constructor
  · rintro ⟨k', hk⟩
    refine ⟨k', s.sequence, hk, ?_, rfl⟩
    have hl := hr k'
    have hm := hc.keydb k'
    rw [hk] at hm
    obtain ⟨e, he, -⟩ := Option.map_eq_some_iff.mp hm.symm
    rw [he, Option.map_some] at hl
    obtain ⟨p, hp, hv⟩ := lookup_eq_some.mp hl
    rw [hk] at hp
    cases hp
    exact Std.ExtTreeMap.mem_iff_isSome_getElem?.mpr (by rw [hv]; rfl)
  · rintro ⟨k', p, hk, -, rfl⟩
    exact ⟨k', hk⟩

/-- Physical keys stay unique over all sessions of a run, no `Put` writes over
an entry in use and every key resolves to its last `Put`, just when no `Put`
has the number of the last `Put` of a live key. -/
theorem physical_keys_unique {ops : List Op} (hrun : ops.foldlM step openFresh = some s) :
    Along Tally.step Apart Tally.empty ops ↔
      ∀ pre u, pre <+: ops → pre.foldlM step openFresh = some u →
        Unique u ∧ Resolves (tally pre) u ∧
        ∀ k v, pre ++ [.put k v] <+: ops → ¬Overwrites u := by
  constructor
  · intro ha pre u hpre hu
    obtain ⟨hun, hr⟩ := run_sound (ha.initial hpre) hu
    refine ⟨hun, hr, ?_⟩
    intro k v hput
    exact (overwrites_iff (run_counts hu) hr).mpr (along_iff_each.mp ha pre (.put k v) hput)
  · intro h
    rw [along_iff_each]
    intro pre op hop
    have hpre : pre <+: ops := (List.prefix_append pre [op]).trans hop
    obtain ⟨u, hu⟩ := foldlM_initial hrun hpre
    obtain ⟨-, hr, hno⟩ := h pre u hpre hu
    cases op with
    | put k v => exact (overwrites_iff (run_counts hu) hr).mp (hno k v hop)
    | delete k => trivial
    | get k => trivial
    | reopen => trivial

theorem physical_keys_unique_reopened :
    ∃ s, [Op.put [1] [10], .put [2] [20], .delete [1], .reopen, .put [3] [30]].foldlM step
        openFresh = some s ∧ lookup s [2] = some (encode [2] [20]) := by
  have hrun : ([Op.put [1] [10], .put [2] [20], .delete [1], .reopen, .put [3] [30]].foldlM step
      openFresh).isSome := by
    decide +kernel
  obtain ⟨s, hs⟩ := Option.isSome_iff_exists.mp hrun
  have hr := ((physical_keys_unique hs).mp (by decide +kernel) _ s List.prefix_rfl hs).2.1 [2]
  refine ⟨s, hs, hr.trans ?_⟩
  decide +kernel

/-- The first `Put` after the reopen takes the number of a live key. -/
theorem physical_keys_collide :
    ∃ s, [Op.put [1] [10], .reopen, .put [2] [20]].foldlM step openFresh = some s ∧
      ¬Unique s ∧ lookup s [1] = some (encode [2] [20]) ∧ get s [1] = .ok [20] := by
  have hrun : ([Op.put [1] [10], .reopen, .put [2] [20]].foldlM step openFresh).map
      (fun s => (s.keydb[([1] : Key)]?, s.keydb[([2] : Key)]?, lookup s [1], get s [1])) =
        some (some 0, some 0, some (encode [2] [20]), .ok [20]) := by
    decide +kernel
  obtain ⟨s, hs, he⟩ := Option.map_eq_some_iff.mp hrun
  simp only [Prod.mk.injEq] at he
  refine ⟨s, hs, ?_, he.2.2⟩
  intro hu
  have hk := hu [1] [2] 0 he.1 he.2.1
  cases hk

end WiscKey.NewDb.Sessions
