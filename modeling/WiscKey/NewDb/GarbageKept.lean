import WiscKey.NewDb.CollectRuns
import WiscKey.NewDb.Refinement

namespace WiscKey.NewDb.GarbageKept

open WiscKey.Maps WiscKey.Vectors WiscKey.Runs WiscKey.NewDb.Model WiscKey.NewDb.Collect
  WiscKey.NewDb.CollectSpec WiscKey.NewDb.CollectDefined WiscKey.NewDb.CollectRuns
  WiscKey.NewDb.Refinement

/-- Every physical key in `valuedb_` is in use or recorded as garbage. -/
def Recorded (s : State) : Prop :=
  ∀ p : UInt64, s.valuedb[p]?.isSome → (∃ k : Key, s.keydb[k]? = some p) ∨ p ∈ s.phyKeysForGc

def gcFiles (s : State) (levels : List Level) : List GCMetadata :=
  (leveledFiles levels).map fun f => metadata (sortedKeys s.phyKeysForGc) f.1 f.2

def GoesThrough (s : State) (compactFiles : CompactFiles) (c : Call) : Prop :=
  ∃ held ∈ compactFiles c.names c.level,
    ∀ p ∈ c.garbage, s.valuedb[p]?.isSome → held p = true

instance (s : State) (compactFiles : CompactFiles) (c : Call) :
    Decidable (GoesThrough s compactFiles c) :=
  @Option.decidableExistsMem _ _ (fun _ => List.decidableBAll _ c.garbage)
    (compactFiles c.names c.level)

/-- No two of the files that are compacted have a key in common, and no call
leaves garbage in them. -/
def Removes (s : State) (levels : List Level) (compactFiles : CompactFiles) : Prop :=
  (collected (ready s.phyKeysForGc) [] (sortedFiles levels)).Pairwise
      (fun f g => f.largestkey < g.smallestkey) ∧
    ∀ c ∈ calls (sortedKeys s.phyKeysForGc) Loop.start (gcFiles s levels),
      GoesThrough s compactFiles c

instance (s : State) (levels : List Level) (compactFiles : CompactFiles) :
    Decidable (Removes s levels compactFiles) :=
  inferInstanceAs (Decidable (_ ∧ _))

/-- A client deletes only what it does not find, and a collection forgets only
what it removes. -/
def Careful (s : State) : Op → Prop
  | .delete k => lookup s k = none
  | .gc levels compactFiles => Removes s levels compactFiles
  | _ => True

instance (s : State) : DecidablePred (Careful s)
  | .delete k => inferInstanceAs (Decidable (lookup s k = none))
  | .gc levels compactFiles => inferInstanceAs (Decidable (Removes s levels compactFiles))
  | .put _ _ | .get _ | .compaction _ => inferInstanceAs (Decidable True)

variable {s s' : State} {k : Key} {v : Value} {levels : List Level} {cf : CompactFiles}
  {p : UInt64}

theorem put_recorded (h : Recorded s) (hp : put s k v = some s') : Recorded s' := by
  obtain ⟨-, rfl⟩ := put_eq_some.mp hp
  intro p hv
  simp only [getElem?_insert] at hv ⊢
  by_cases hseq : s.sequence = p
  · exact Or.inl ⟨k, by rw [if_pos rfl, hseq]⟩
  · rw [if_neg hseq] at hv
    obtain ⟨k', hk'⟩ | hg := h p hv
    · by_cases hk : k = k'
      · subst k'
        exact Or.inr (List.mem_append_right _ (Option.mem_toList.mpr hk'))
      · exact Or.inl ⟨k', by rw [if_neg hk, hk']⟩
    · exact Or.inr (List.mem_append_left _ hg)

theorem delete_recorded (h : Recorded s) (hk : lookup s k = none) : Recorded (delete s k) := by
  intro p hv
  obtain ⟨k', hk'⟩ | hg := h p hv
  · refine Or.inl ⟨k', ?_⟩
    rw [delete, State.deleteKey, getElem?_erase, if_neg]
    · exact hk'
    · rintro rfl
      have hn : s.valuedb[p]? = none := by
        rwa [lookup, hk', Option.bind_some] at hk
      have hv' : s.valuedb[p]?.isSome := hv
      rw [hn] at hv'
      cases hv'
  · exact Or.inr hg

theorem rewrite_isSome {g : List UInt64} {held : UInt64 → Bool}
    {valuedb : Std.ExtTreeMap UInt64 (List UInt8)} :
    (rewrite (some g) held valuedb)[p]?.isSome ↔
      valuedb[p]?.isSome ∧ ¬ (held p = true ∧ p ∈ g) := by
  rw [rewrite, Std.ExtTreeMap.getElem?_filter']
  cases valuedb[p]? with
  | none => simp
  | some r =>
    by_cases hg : p ∈ g
    · cases hh : held p with
      | true => simp [filterV2, hg]
      | false => simp
    · simp [filterV2, hg]

theorem applyCall_isSome {valuedb : Std.ExtTreeMap UInt64 (List UInt8)} {c : Call}
    (h : (applyCall cf valuedb c)[p]?.isSome) : valuedb[p]?.isSome := by
  rw [applyCall] at h
  split at h
  · exact h
  · exact (rewrite_isSome.mp h).1

theorem foldl_applyCall {cs : List Call} {valuedb : Std.ExtTreeMap UInt64 (List UInt8)}
    (h : (cs.foldl (applyCall cf) valuedb)[p]?.isSome) :
    valuedb[p]?.isSome ∧
      ∀ c ∈ cs, ∀ held ∈ cf c.names c.level, held p = true → p ∉ c.garbage := by
  induction cs generalizing valuedb with
  | nil => exact ⟨h, by simp⟩
  | cons c cs ih =>
    obtain ⟨hc, hcs⟩ := ih h
    refine ⟨applyCall_isSome hc, List.forall_mem_cons.mpr ⟨?_, hcs⟩⟩
    intro held hheld hp hg
    rw [applyCall, show cf c.names c.level = some held from hheld] at hc
    exact (rewrite_isSome.mp hc).2 ⟨hp, hg⟩

theorem mem_collected (acc : List GCMetadata) {fs : List GCMetadata} {f : GCMetadata}
    (hf : f ∈ collected GCMetadata.readyForGc acc.reverse fs) :
    ∃ run ∈ (fs.splitOnPPrepend (fun f => !f.readyForGc) acc).dropLast,
      1 < run.length ∧ f ∈ run := by
  induction fs generalizing acc with
  | nil => cases hf
  | cons g fs ih =>
    rw [collected] at hf
    rw [List.splitOnPPrepend_cons_eq_if]
    cases hr : g.readyForGc with
    | true =>
      rw [if_pos hr, ← List.reverse_cons] at hf
      simpa using ih (g :: acc) hf
    | false =>
      rw [if_neg (by simp [hr])] at hf
      simp only [Bool.not_false, if_true]
      rw [List.dropLast_cons_of_ne_nil (List.splitOnP_ne_nil _ _)]
      obtain hf | hf := List.mem_append.mp hf
      · split at hf
        · exact ⟨acc.reverse, List.mem_cons_self, ‹_›, hf⟩
        · cases hf
      · obtain ⟨run, hrun, hlen, hmem⟩ := ih [] hf
        exact ⟨run, List.mem_cons_of_mem _ hrun, hlen, hmem⟩

theorem gcFiles_processed {files : List GCMetadata}
    (h : inputFiles (sortedKeys s.phyKeysForGc) levels = some files) :
    files = gcFiles s levels ∧ Processed s.phyKeysForGc levels files := by
  have hs := sortedKeys_sorted s.phyKeysForGc
  constructor
  · rw [inputFiles_eq hs] at h
    obtain ⟨-, h⟩ := Option.ite_none_right_eq_some.mp h
    cases h
    rfl
  · obtain ⟨hlen, h⟩ := Option.ite_none_right_eq_some.mp h
    obtain ⟨ms, hms, rfl⟩ := Option.map_eq_some_iff.mp h
    have hl := hms
    rw [metadata_mapM hs] at hl
    obtain ⟨-, hl⟩ := Option.ite_none_right_eq_some.mp hl
    refine ⟨?_, List.pairwise_insertionSort _ ms, ms, hms, List.perm_insertionSort _ ms⟩
    rw [List.length_insertionSort, ← Option.some.inj hl, List.length_map]
    exact hlen

theorem mem_gcFiles_collected {f : SstFile}
    (hf : f ∈ collected (ready s.phyKeysForGc) [] (sortedFiles levels)) :
    ∃ m ∈ collected GCMetadata.readyForGc [] (gcFiles s levels), m.sstmeta = f := by
  rw [← ready_perm (sortedKeys_perm s.phyKeysForGc), ← leveledFiles_snd, ← List.map_nil,
    ← collected_map Prod.snd] at hf
  obtain ⟨b, hb, rfl⟩ := List.mem_map.mp hf
  refine ⟨metadata (sortedKeys s.phyKeysForGc) b.1 b.2, ?_, rfl⟩
  have hm := collected_map (fun b : Int × SstFile =>
    metadata (sortedKeys s.phyKeysForGc) b.1 b.2) GCMetadata.readyForGc [] (leveledFiles levels)
  rw [List.map_nil] at hm
  rw [gcFiles, ← hm]
  exact List.mem_map_of_mem hb

theorem exists_call {files : List GCMetadata} {f : SstFile}
    (h : inputFiles (sortedKeys s.phyKeysForGc) levels = some files)
    (hf : f ∈ collected (ready s.phyKeysForGc) [] (sortedFiles levels))
    (hp : p ∈ s.phyKeysForGc) (hlo : f.smallestkey ≤ p) (hhi : p ≤ f.largestkey) :
    ∃ c ∈ calls (sortedKeys s.phyKeysForGc) Loop.start (gcFiles s levels), p ∈ c.garbage := by
  obtain ⟨rfl, hproc⟩ := gcFiles_processed h
  obtain ⟨m, hm, rfl⟩ := mem_gcFiles_collected hf
  obtain ⟨run, hrun, hlen, hmem⟩ := mem_collected [] hm
  rw [List.splitOnPPrepend_nil_right] at hrun
  refine ⟨callFor (sortedKeys s.phyKeysForGc) run, ?_, ?_⟩
  · rw [calls_start]
    exact List.mem_map_of_mem (List.mem_filter.mpr ⟨hrun, decide_eq_true hlen⟩)
  · have hc := callFor_compacts hproc (List.dropLast_subset _ hrun)
    exact (hc.2 p).mpr ⟨hp, m, hmem, hlo, hhi⟩

theorem collect_recorded (h : Recorded s) (hr : Removes s levels cf)
    (hc : vLogGarbageCollect s levels cf = some s') : Recorded s' := by
  obtain ⟨files, rest, hf, he, rfl⟩ := collect_eq_some.mp hc
  obtain ⟨rfl, -⟩ := gcFiles_processed hf
  intro p hv
  simp only [foldl_visit] at hv
  obtain ⟨hv, hcalls⟩ := foldl_applyCall hv
  obtain hk | hg := h p hv
  · exact Or.inl hk
  · refine Or.inr ?_
    have hs := sortedKeys_sorted s.phyKeysForGc
    have hout : ∀ f ∈ collected (ready s.phyKeysForGc) [] (sortedFiles levels),
        ¬ (f.smallestkey ≤ p ∧ p ≤ f.largestkey) := by
      rintro f hfm ⟨hlo, hhi⟩
      obtain ⟨c, hcm, hpc⟩ := exists_call hf hfm hg hlo hhi
      obtain ⟨held, hheld, hall⟩ := hr.2 c hcm
      exact hcalls c hcm held hheld (hall p hpc hv) hpc
    rw [gcFiles, deletionKeys_eq, ready_perm (sortedKeys_perm s.phyKeysForGc)] at he
    have hmap : ∀ fs : List SstFile, fs.map (fun f => (lowerBound (sortedKeys s.phyKeysForGc)
        f.smallestkey, upperBound (sortedKeys s.phyKeysForGc) f.largestkey)) =
        (fs.map fun f => (f.smallestkey, f.largestkey)).map fun r =>
          (lowerBound (sortedKeys s.phyKeysForGc) r.1,
            upperBound (sortedKeys s.phyKeysForGc) r.2) := by
      intro fs
      rw [List.map_map]
      rfl
    rw [hmap, eraseRanges_filter hs (List.forall_mem_map.mpr fun f _ => f.ordered)] at he
    · cases he
      refine List.mem_filter.mpr ⟨(sortedKeys_perm _).mem_iff.mpr hg, ?_⟩
      rw [Bool.not_eq_true', ← Bool.not_eq_true, covered_iff]
      simpa using hout
    · refine List.pairwise_map.mpr (hr.1.imp ?_)
      exact fun {f g} hlt => Std.le_trans f.ordered (Std.le_of_lt hlt)
    · refine List.pairwise_map.mpr (hr.1.imp ?_)
      exact fun hlt a _ ha => absurd (Std.lt_of_le_of_lt ha.1.2 hlt) (Std.not_lt.mpr ha.2.1)

theorem step_recorded {op : Op} (h : Recorded s) (hc : Careful s op) (hs : step s op = some s') :
    Recorded s' := by
  cases op with
  | put k v => exact put_recorded h hs
  | delete k =>
    cases hs
    exact delete_recorded h hc
  | get k =>
    cases hs
    exact h
  | gc levels cf => exact collect_recorded h hc hs
  | compaction held =>
    cases hs
    rw [rewrite_none]
    exact h

end WiscKey.NewDb.GarbageKept
