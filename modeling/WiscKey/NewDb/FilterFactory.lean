import WiscKey.NewDb.GarbageKept

namespace WiscKey.NewDb.FilterFactory

open WiscKey.Runs WiscKey.NewDb.Model WiscKey.NewDb.Collect WiscKey.NewDb.CollectSpec
  WiscKey.NewDb.CollectRuns WiscKey.NewDb.GarbageKept

/-- The member `garbage_keys_` of the factory, which its constructor leaves
alone. A set is known by the call of `vLogGCWorker` it is a variable of. -/
inductive Pointer where
  | unset
  | null
  | set (call : Nat)
deriving DecidableEq

/-- A manual compaction has a filter created, during a call of `vLogGCWorker` or
outside of any. -/
structure Creation where
  pointer : Pointer
  executing : Option Nat
deriving DecidableEq

/-- A database with its factory. The calls of `vLogGCWorker` are counted, and
`created` is the history of the filters. -/
structure Session where
  state : State
  factory : Pointer
  gcCalls : Nat
  created : List Creation

/-- The calls on a database. `CompactRange` finds nothing to compact, or goes
through some entries; and a pointer to no set reads as whatever `memory` holds
there, if it can be read. -/
inductive Op where
  | reopen
  | put (k : Key) (v : Value)
  | delete (k : Key)
  | gc (levels : List Level) (compactFiles : CompactFiles)
  | flush (compactRange : Option (UInt64 → Bool)) (memory : Option (List UInt64))

def start : Session := ⟨openFresh, .unset, 0, []⟩

def compactions (s : Session) (levels : List Level) : List Creation :=
  (calls (sortedKeys s.state.phyKeysForGc) Loop.start (gcFiles s.state levels)).map
    fun _ => ⟨.set s.gcCalls, some s.gcCalls⟩

def vLogGCWorker (s : Session) (levels : List Level) (compactFiles : CompactFiles) :
    Option Session :=
  (vLogGarbageCollect s.state levels compactFiles).map fun t =>
    { state := t
      factory := if compactions s levels = [] then s.factory else .set s.gcCalls
      gcCalls := s.gcCalls + 1
      created := s.created ++ compactions s levels }

/-- `CompactRange` of `flushVLog`. No call of `vLogGCWorker` is executing. -/
def flushVLog (s : Session) (compactRange : Option (UInt64 → Bool))
    (memory : Option (List UInt64)) : Option Session :=
  match compactRange with
  | none => some s
  | some held =>
    let created := s.created ++ [⟨s.factory, none⟩]
    match s.factory with
    | .null => some { s with created := created }
    | .unset | .set _ => memory.map fun keys =>
      { s with
        state := { s.state with valuedb := rewrite (some keys) held s.state.valuedb }
        created := created }

def step (s : Session) : Op → Option Session
  | .reopen => some { s with state := Model.reopen s.state, factory := .unset }
  | .put k v => (put s.state k v).map fun t => { s with state := t }
  | .delete k => some { s with state := delete s.state k }
  | .gc levels compactFiles => vLogGCWorker s levels compactFiles
  | .flush compactRange memory => flushVLog s compactRange memory

def Lawful (e : Creation) : Prop :=
  e.pointer = .null ∨ ∃ n, e.pointer = .set n ∧ e.executing = some n

def Idle : Op → Prop
  | .flush compactRange _ => compactRange = none
  | _ => True

structure Tracks (s : Session) (flushed : Prop) : Prop where
  factory : s.factory ≠ .null
  created : (∀ e ∈ s.created, Lawful e) ↔ ¬ flushed

variable {s s' : Session} {flushed : Prop}

theorem compactions_lawful (s : Session) (levels : List Level) :
    ∀ e ∈ compactions s levels, Lawful e := by
  intro e he
  obtain ⟨c, -, rfl⟩ := List.mem_map.mp he
  exact Or.inr ⟨s.gcCalls, rfl, rfl⟩

theorem gc_tracks (h : Tracks s flushed) {levels : List Level} {cf : CompactFiles}
    (hs : vLogGCWorker s levels cf = some s') : Tracks s' flushed := by
  obtain ⟨t, -, rfl⟩ := Option.map_eq_some_iff.mp hs
  constructor
  · simp only
    split
    · exact h.factory
    · simp
  · rw [← h.created]
    simp only [List.mem_append, or_imp, forall_and]
    exact and_iff_left (compactions_lawful s levels)

theorem flush_unlawful (h : Tracks s flushed) : ¬ Lawful ⟨s.factory, none⟩ := by
  rintro (hn | ⟨n, -, hn⟩)
  · exact h.factory hn
  · cases hn

theorem flush_tracks (h : Tracks s flushed) {compactRange : Option (UInt64 → Bool)}
    {memory : Option (List UInt64)} (hs : flushVLog s compactRange memory = some s') :
    Tracks s' (flushed ∨ ¬ Idle (.flush compactRange memory)) := by
  cases compactRange with
  | none =>
    cases hs
    refine ⟨h.factory, ?_⟩
    rw [h.created]
    simp [Idle]
  | some held =>
    have hframe : s'.factory = s.factory ∧ s'.created = s.created ++ [⟨s.factory, none⟩] := by
      simp only [flushVLog] at hs
      split at hs
      · cases hs
        exact ⟨rfl, rfl⟩
      · obtain ⟨keys, -, rfl⟩ := Option.map_eq_some_iff.mp hs
        exact ⟨rfl, rfl⟩
      · obtain ⟨keys, -, rfl⟩ := Option.map_eq_some_iff.mp hs
        exact ⟨rfl, rfl⟩
    refine ⟨hframe.1 ▸ h.factory, ?_⟩
    rw [hframe.2]
    refine iff_of_false ?_ ?_
    · intro hall
      exact flush_unlawful h (hall _ (List.mem_append_right _ List.mem_cons_self))
    · simp [Idle]

theorem step_tracks {op : Op} (h : Tracks s flushed) (hs : step s op = some s') :
    Tracks s' (flushed ∨ ¬ Idle op) := by
  have hidle : ∀ {t : Session}, Tracks t flushed → Idle op → Tracks t (flushed ∨ ¬ Idle op) := by
    intro t ht hi
    rwa [or_iff_left (not_not_intro hi)]
  cases op with
  | reopen =>
    cases hs
    exact hidle ⟨by simp, h.created⟩ trivial
  | put k v =>
    obtain ⟨t, -, rfl⟩ := Option.map_eq_some_iff.mp hs
    exact hidle ⟨h.factory, h.created⟩ trivial
  | delete k =>
    cases hs
    exact hidle ⟨h.factory, h.created⟩ trivial
  | gc levels cf => exact hidle (gc_tracks h hs) trivial
  | flush compactRange memory => exact flush_tracks h hs

theorem run_tracks {ops : List Op} (hrun : ops.foldlM step start = some s) :
    Tracks s (∃ op ∈ ops, ¬ Idle op) := by
  induction ops using List.reverseRecOn generalizing s with
  | nil =>
    cases hrun
    exact ⟨by simp [start], by simp [start]⟩
  | append_singleton ops op ih =>
    rw [List.foldlM_append] at hrun
    obtain ⟨t, ht, hs⟩ := Option.bind_eq_some_iff.mp hrun
    have h := step_tracks (ih ht) (by simpa using hs)
    have he : (∃ a ∈ ops ++ [op], ¬ Idle a) ↔ (∃ a ∈ ops, ¬ Idle a) ∨ ¬ Idle op := by
      simp [or_and_right, exists_or]
    rwa [he]

/-- The filters of a run have no set or a live one just when no flush had
anything to compact; and such a flush changes no answer. -/
theorem filters_lawful_iff (ops : List Op) (s : Session)
    (hrun : ops.foldlM step start = some s) :
    ((∀ e ∈ s.created, Lawful e) ↔ ∀ op ∈ ops, Idle op) ∧
      ∀ compactRange memory t, Idle (.flush compactRange memory) →
        step s (.flush compactRange memory) = some t → ∀ k, get t.state k = get s.state k := by
  constructor
  · rw [(run_tracks hrun).created]
    simp
  · intro compactRange memory t hi ht k
    cases hi
    cases ht
    rfl

theorem filters_lawful_collected : ∃ s,
    [.put [1] [10], .put [2] [20], .put [3] [30], .put [1] [11], .put [3] [31],
      .gc [⟨1, [sst "1" 0 1 (by decide), sst "2" 2 3 (by decide), sst "3" 10 20 (by decide)]⟩]
        (fun _ _ => some fun _ => true), .flush none none].foldlM step start = some s ∧
      s.created = [⟨.set 0, some 0⟩] ∧ ∀ e ∈ s.created, Lawful e := by
  have hrun : ∃ s ∈ [.put [1] [10], .put [2] [20], .put [3] [30], .put [1] [11], .put [3] [31],
      .gc [⟨1, [sst "1" 0 1 (by decide), sst "2" 2 3 (by decide), sst "3" 10 20 (by decide)]⟩]
        (fun _ _ => some fun _ => true), .flush none none].foldlM step start,
      s.created = [⟨.set 0, some 0⟩] := by
    decide +kernel
  obtain ⟨s, hs, hc⟩ := hrun
  refine ⟨s, hs, hc, ((filters_lawful_iff _ s hs).1.mpr ?_)⟩
  simp [Idle]

/-- A flush before the first collection, where the pointer was never set and
the memory there happens to read as a set with the physical key in use. -/
theorem flush_consults_nothing : ∃ s t,
    [.put [1] [10]].foldlM step start = some s ∧
      step s (.flush (some fun _ => true) (some [0])) = some t ∧
      t.created = [⟨.unset, none⟩] ∧ ¬ (∀ e ∈ t.created, Lawful e) ∧
      get s.state [1] = .ok [10] ∧ get t.state [1] = .notFound := by
  have hrun : ∃ s ∈ [.put [1] [10]].foldlM step start, get s.state [1] = .ok [10] ∧
      ∃ t ∈ step s (.flush (some fun _ => true) (some [0])),
        t.created = [⟨.unset, none⟩] ∧ get t.state [1] = .notFound := by
    decide +kernel
  obtain ⟨s, hs, hg, t, ht, hc, hn⟩ := hrun
  refine ⟨s, t, hs, ht, hc, ?_, hg, hn⟩
  intro hall
  obtain h | ⟨n, h, -⟩ := hall _ (hc ▸ List.mem_cons_self)
  · cases h
  · cases h

end WiscKey.NewDb.FilterFactory
