import WiscKey.Runs
import WiscKey.NewDb.CollectDefined
import WiscKey.NewDb.Sessions

namespace WiscKey.NewDb.Refinement

open WiscKey.Maps WiscKey.Runs WiscKey.NewDb.Model WiscKey.NewDb.Collect WiscKey.NewDb.CollectSpec
  WiscKey.NewDb.CollectDefined

open WiscKey.NewDb.Sessions (put_unique delete_unique)

/-- The calls of one client in one session, a collection with what RocksDB
reports and does, and the compactions that RocksDB starts by itself. -/
inductive Op where
  | put (k : Key) (v : Value)
  | delete (k : Key)
  | get (k : Key)
  | gc (levels : List Level) (compactFiles : CompactFiles)
  | compaction (held : UInt64 → Bool)

def step (s : State) : Op → Option State
  | .put k v => put s k v
  | .delete k => some (delete s k)
  | .get _ => some s
  | .gc levels compactFiles => vLogGarbageCollect s levels compactFiles
  | .compaction held => some { s with valuedb := rewrite none held s.valuedb }

abbrev Store := Key → Option Value

def mapStep (m : Store) : Op → Store
  | .put k v => Function.update m k (some v)
  | .delete k => Function.update m k none
  | _ => m

def lastWrite (ops : List Op) : Store := ops.foldl mapStep (fun _ => none)

def Op.isPut : Op → Bool
  | .put _ _ => true
  | _ => false

def Defined (s : State) : Op → Prop
  | .put k v => Fits k v
  | .gc levels _ => Collectable s.phyKeysForGc levels
  | _ => True

instance (s : State) : DecidablePred (Defined s)
  | .put k v => inferInstanceAs (Decidable (Fits k v))
  | .gc levels _ => inferInstanceAs (Decidable (Collectable s.phyKeysForGc levels))
  | .delete _ | .get _ | .compaction _ => inferInstanceAs (Decidable True)

/-- After a number of `Put`s, the two stores have the map, and no garbage key
is in use. -/
structure Refines (n : Nat) (m : Store) (s : State) : Prop where
  sequence : s.sequence = UInt64.ofNat n
  lookup : ∀ k, lookup s k = (m k).map (encode k)
  unique : Sessions.Unique s
  drawn : ∀ (k : Key) (p : UInt64), s.keydb[k]? = some p → p.toNat < n
  old : ∀ p ∈ s.phyKeysForGc, p.toNat < n
  unused : ∀ p ∈ s.phyKeysForGc, ∀ k : Key, s.keydb[k]? ≠ some p

variable {n : Nat} {m : Store} {s s' : State} {k : Key} {v : Value} {op : Op}

theorem defined_iff (s : State) (op : Op) : Defined s op ↔ (step s op).isSome := by
  cases op with
  | put k v =>
    rw [Option.isSome_iff_exists]
    simp only [step, put_eq_some, exists_and_left, exists_eq, and_true]
    rfl
  | gc levels cf => exact collect_isSome.symm
  | delete k | get k | compaction held => exact iff_of_true trivial rfl

theorem Refines.fresh (h : Refines n m s) (hn : n < 2 ^ 64) {p : UInt64} (hp : p.toNat < n) :
    p ≠ s.sequence := by
  rintro rfl
  rw [h.sequence, UInt64.toNat_ofNat_of_lt' hn] at hp
  exact lt_irrefl n hp

theorem Refines.put (h : Refines n m s) (hn : n < 2 ^ 64) (hp : put s k v = some s') :
    Refines (n + 1) (Function.update m k (some v)) s' := by
  have hf : ∀ k' : Key, s.keydb[k']? ≠ some s.sequence :=
    fun k' hk => h.fresh hn (h.drawn k' _ hk) rfl
  have hl := put_lookup hf hp
  have hu := put_unique h.unique hf hp
  obtain ⟨-, rfl⟩ := put_eq_some.mp hp
  have hseq : s.sequence.toNat = n := by
    rw [h.sequence, UInt64.toNat_ofNat_of_lt' hn]
  refine ⟨?_, ?_, hu, ?_, ?_, ?_⟩
  · simp only [h.sequence, UInt64.ofNat_add]
    rfl
  · intro k'
    rw [hl, Function.update_apply, h.lookup]
    by_cases hk : k = k'
    · rw [if_pos hk, if_pos hk.symm, hk]
      rfl
    · rw [if_neg hk, if_neg (Ne.symm hk)]
  · intro k' p hk
    rw [getElem?_insert] at hk
    split at hk
    · cases hk
      omega
    · exact Nat.lt_succ_of_lt (h.drawn k' p hk)
  · intro p hm
    obtain hm | hm := List.mem_append.mp hm
    · exact Nat.lt_succ_of_lt (h.old p hm)
    · exact Nat.lt_succ_of_lt (h.drawn k p (Option.mem_toList.mp hm))
  · intro p hm k' hk
    rw [getElem?_insert] at hk
    split at hk
    · cases hk
      obtain hm | hm := List.mem_append.mp hm
      · exact h.fresh hn (h.old _ hm) rfl
      · exact hf k (Option.mem_toList.mp hm)
    · rename_i hne
      obtain hm | hm := List.mem_append.mp hm
      · exact h.unused p hm k' hk
      · exact hne (h.unique k k' p (Option.mem_toList.mp hm) hk)

theorem Refines.delete (h : Refines n m s) :
    Refines n (Function.update m k none) (delete s k) := by
  have hk : ∀ (k' : Key) (p : UInt64), (Model.delete s k).keydb[k']? = some p →
      s.keydb[k']? = some p := by
    intro k' p hp
    rw [Model.delete, State.deleteKey, getElem?_erase] at hp
    split at hp
    · cases hp
    · exact hp
  refine ⟨h.sequence, ?_, delete_unique h.unique, fun k' p hp => h.drawn k' p (hk k' p hp), h.old,
    fun p hm k' hp => h.unused p hm k' (hk k' p hp)⟩
  intro k'
  rw [delete_lookup, Function.update_apply, h.lookup]
  by_cases he : k = k'
  · rw [if_pos he, if_pos he.symm]
    rfl
  · rw [if_neg he, if_neg (Ne.symm he)]

theorem Refines.collect (h : Refines n m s) {levels : List Level} {cf : CompactFiles}
    (hc : vLogGarbageCollect s levels cf = some s') :
    Refines n m s' ∧
      ∀ (k : Key) (p : UInt64), s.keydb[k]? = some p → s'.valuedb[p]? = s.valuedb[p]? := by
  obtain ⟨hk, hs, hg, hv⟩ := collect_frame hc
  have hkept : ∀ (k : Key) (p : UInt64), s.keydb[k]? = some p →
      s'.valuedb[p]? = s.valuedb[p]? := fun k p hp => hv p (fun hm => h.unused p hm k hp)
  refine ⟨⟨hs.trans h.sequence, ?_, ?_, ?_, fun p hm => h.old p (hg hm), ?_⟩, hkept⟩
  · intro k
    rw [← h.lookup k, Model.lookup, Model.lookup, hk]
    exact Option.bind_congr (fun p hp => hkept k p hp)
  · rw [Sessions.Unique, hk]
    exact h.unique
  · rw [hk]
    exact h.drawn
  · rw [hk]
    exact fun p hm => h.unused p (hg hm)

theorem step_refines (h : Refines n m s) (hn : op.isPut → n < 2 ^ 64) (hs : step s op = some s') :
    Refines (n + op.isPut.toNat) (mapStep m op) s' := by
  cases op with
  | put k v => exact h.put (hn rfl) hs
  | delete k =>
    cases hs
    exact h.delete
  | get k =>
    cases hs
    exact h
  | gc levels cf => exact (h.collect hs).1
  | compaction held =>
    cases hs
    rw [rewrite_none]
    exact h

theorem openFresh_refines : Refines 0 (fun _ => none) openFresh where
  sequence := rfl
  lookup k := by simp [Model.lookup, openFresh]
  unique k k' p hk := by simp [openFresh] at hk
  drawn k p hk := by simp [openFresh] at hk
  old p hm := by cases hm
  unused p hm := by cases hm

theorem run_refines {ops : List Op} (hputs : ops.countP Op.isPut ≤ 2 ^ 64)
    (hrun : ops.foldlM step openFresh = some s) :
    Refines (ops.countP Op.isPut) (lastWrite ops) s := by
  induction ops using List.reverseRecOn generalizing s with
  | nil =>
    cases hrun
    exact openFresh_refines
  | append_singleton ops op ih =>
    rw [List.foldlM_append] at hrun
    obtain ⟨t, ht, hs⟩ := Option.bind_eq_some_iff.mp hrun
    have hc : (ops ++ [op]).countP Op.isPut = ops.countP Op.isPut + op.isPut.toNat := by
      rw [List.countP_append, List.countP_singleton]
      cases op.isPut with
      | true => rfl
      | false => rfl
    have hl : lastWrite (ops ++ [op]) = mapStep (lastWrite ops) op := by
      rw [lastWrite, List.foldl_append]
      rfl
    rw [hc] at hputs
    rw [hc, hl]
    refine step_refines (ih (by omega) ht) ?_ (by simpa using hs)
    intro hput
    rw [hput] at hputs
    exact hputs

def fileOf (name : String) (a b : UInt64) : SstFile :=
  if h : a ≤ b then ⟨name, a, b, false, h⟩
  else ⟨name, b, a, false, UInt64.le_of_lt (UInt64.not_le.mp h)⟩

/-- Four keys, two of them written again, and a collection of the two files
that the old values are in. -/
def collectTwo : List Op :=
  [.put [1] [10], .put [2] [20], .put [3] [30], .put [4] [40], .put [1] [11], .put [3] [31],
    .gc [⟨1, [fileOf "1.sst" 0 1, fileOf "2.sst" 2 3, fileOf "3.sst" 10 20]⟩]
      (fun _ _ => some fun _ => true)]

end WiscKey.NewDb.Refinement
