import WiscKey.NewDb.CollectRuns

namespace WiscKey.NewDb.GarbageErased

open WiscKey.Maps WiscKey.Vectors WiscKey.NewDb.Model WiscKey.NewDb.Collect
  WiscKey.NewDb.CollectSpec WiscKey.NewDb.CollectDefined WiscKey.NewDb.CollectRuns

/-- A collection from the loop over the files on, in whatever order `std::sort`
has left those with the same smallest key. -/
def collectFiles (s : State) (files : List GCMetadata) (compactFiles : CompactFiles) :
    Option State :=
  let keys := sortedKeys s.phyKeysForGc
  let (valuedb, l) := files.foldl (visit compactFiles keys) (s.valuedb, Loop.start)
  (eraseRanges keys l.deletionKeys).map fun rest =>
    { s with valuedb := valuedb, phyKeysForGc := rest }

def Holds (f : GCMetadata) (p : UInt64) : Prop :=
  f.sstmeta.smallestkey ≤ p ∧ p ≤ f.sstmeta.largestkey

instance (f : GCMetadata) (p : UInt64) : Decidable (Holds f p) :=
  inferInstanceAs (Decidable (_ ∧ _))

def handed (files : List GCMetadata) : List GCMetadata :=
  collected GCMetadata.readyForGc [] files

def outside (files : List GCMetadata) (garbage : List UInt64) : List UInt64 :=
  garbage.filter fun p => ∀ f ∈ files, ¬ Holds f p

def Separate (garbage : List UInt64) (files : List GCMetadata) : Prop :=
  files.Pairwise fun f g => ∀ p ∈ garbage, ¬ (Holds f p ∧ Holds g p)

instance (garbage : List UInt64) (files : List GCMetadata) : Decidable (Separate garbage files) :=
  @List.instDecidablePairwise _ _ (fun _ _ => List.decidableBAll _ garbage) files

variable {s : State} {levels : List Level} {cf : CompactFiles} {files : List GCMetadata}

theorem collect_eq_bind : vLogGarbageCollect s levels cf =
    (inputFiles (sortedKeys s.phyKeysForGc) levels).bind fun files => collectFiles s files cf := by
  rw [vLogGarbageCollect, Option.bind_eq_bind]
  refine Option.bind_congr ?_
  intro files _
  rw [collectFiles]
  dsimp only
  rw [Option.map_eq_bind]
  rfl

theorem calls_names {keys : List UInt64} (files acc : List GCMetadata) (l : Loop)
    (hl : l.compactionFiles = acc.map fun f => f.sstmeta.name) :
    (calls keys l files).flatMap Call.names =
      (collected GCMetadata.readyForGc acc files).map fun f => f.sstmeta.name := by
  induction files generalizing acc l with
  | nil => rfl
  | cons f files ih =>
    rw [calls, collected]
    by_cases hr : f.readyForGc = true
    · rw [if_pos hr, if_pos hr]
      apply ih
      simp [Loop.gather, hl]
    · rw [if_neg hr, if_neg hr, List.flatMap_append, ih [] l.clear rfl, List.map_append, hl,
        List.length_map]
      congr 1
      by_cases h1 : 1 < acc.length
      · simp [h1, Loop.call, hl]
      · simp [h1]

theorem collected_sublist {β : Type*} (r : β → Bool) (acc l : List β) :
    (collected r acc l).Sublist (acc ++ l) := by
  induction l generalizing acc with
  | nil => exact List.nil_sublist _
  | cons b l ih =>
    rw [collected]
    split
    · simpa using ih (acc ++ [b])
    · apply List.Sublist.append
      · split
        · exact List.Sublist.refl _
        · exact List.nil_sublist _
      · exact (ih []).trans (List.sublist_cons_self b l)

theorem handed_sublist (files : List GCMetadata) : (handed files).Sublist files :=
  collected_sublist GCMetadata.readyForGc [] files

def keyRange (f : GCMetadata) : UInt64 × UInt64 := (f.sstmeta.smallestkey, f.sstmeta.largestkey)

theorem collectFiles_garbage (h : Processed s.phyKeysForGc levels files) :
    (collectFiles s files cf).map State.phyKeysForGc =
      eraseRanges (sortedKeys s.phyKeysForGc) (((handed files).map keyRange).map fun r =>
        (lowerBound (sortedKeys s.phyKeysForGc) r.1,
          upperBound (sortedKeys s.phyKeysForGc) r.2)) := by
  have hd : (files.foldl (visit cf (sortedKeys s.phyKeysForGc))
      (s.valuedb, Loop.start)).2.deletionKeys = _ :=
    foldl_deletionKeys files [] (s.valuedb, Loop.start) rfl rfl
  have hr : (handed files).map range = ((handed files).map keyRange).map fun r =>
      (lowerBound (sortedKeys s.phyKeysForGc) r.1,
        upperBound (sortedKeys s.phyKeysForGc) r.2) := by
    rw [List.map_map]
    refine List.map_congr_left (fun f hf => ?_)
    obtain ⟨hlo, hhi⟩ := processed_itr h ((handed_sublist files).subset hf)
    rw [range, hlo, hhi]
    rfl
  rw [collectFiles, Option.map_map, hd, ← hr]
  exact Option.map_id'

theorem outside_eq (fs : List GCMetadata) (keys : List UInt64) :
    outside fs keys = keys.filter fun p => !covered (fs.map keyRange) p := by
  apply List.filter_congr
  intro p _
  rw [Bool.eq_iff_iff, decide_eq_true_eq, Bool.not_eq_true', ← Bool.not_eq_true, covered_iff]
  simp [keyRange, Holds]

/-- The loop is reached just when the garbage in every file can be measured. The
keys left then are the sorted ones without those in a file that was handed to
`CompactFiles`, just when no key is in two of those files. -/
theorem collect_erases_iff (s : State) (levels : List Level) (cf : CompactFiles) :
    ((∃ files, Processed s.phyKeysForGc levels files) ↔
      (levels.flatMap Level.files).length < 2 ^ 31 ∧
        ∀ f ∈ levels.flatMap Level.files, Measurable s.phyKeysForGc f) ∧
    ∀ files, Processed s.phyKeysForGc levels files →
      (calls (sortedKeys s.phyKeysForGc) Loop.start files).flatMap Call.names =
        (handed files).map (fun f => f.sstmeta.name) ∧
      ((collectFiles s files cf).map State.phyKeysForGc =
          some (outside (handed files) (sortedKeys s.phyKeysForGc)) ↔
        Separate s.phyKeysForGc (handed files)) := by
  refine ⟨processed_isSome, fun files h => ⟨calls_names files [] Loop.start rfl, ?_⟩⟩
  have ho : ∀ r ∈ (handed files).map keyRange, r.1 ≤ r.2 :=
    List.forall_mem_map.mpr fun f _ => f.sstmeta.ordered
  have hf : ((handed files).map keyRange).Pairwise (fun r t => r.1 ≤ t.1) :=
    List.pairwise_map.mpr (h.2.1.sublist (handed_sublist files))
  rw [collectFiles_garbage h, outside_eq,
    eraseRanges_filter_iff (sortedKeys_sorted s.phyKeysForGc) ho hf, List.pairwise_map]
  simp only [(sortedKeys_perm s.phyKeysForGc).mem_iff]
  rfl

def withGarbage (garbage : List UInt64) : State := { openFresh with phyKeysForGc := garbage }

def apart : List Level := [⟨0, [sst "1" 0 10 (by decide), sst "2" 11 20 (by decide)]⟩,
  ⟨1, [sst "3" 100 1000 (by decide)]⟩]

theorem collect_erases_two : ∃ files, Processed [12, 6, 500, 6] apart files ∧
    (handed files).map (fun f => f.sstmeta.name) = ["1", "2"] ∧
    (collectFiles (withGarbage [12, 6, 500, 6]) files (fun _ _ => none)).map
      State.phyKeysForGc = some [500] := by
  have hp : Processed (withGarbage [12, 6, 500, 6]).phyKeysForGc apart
      [metadata [6, 6, 12, 500] 0 (sst "1" 0 10 (by decide)),
        metadata [6, 6, 12, 500] 0 (sst "2" 11 20 (by decide)),
        metadata [6, 6, 12, 500] 1 (sst "3" 100 1000 (by decide))] := by
    refine ⟨by decide, by decide, _, ?_, List.Perm.refl _⟩
    rw [metadata_mapM (sortedKeys_sorted _), if_pos (by decide)]
    rfl
  obtain ⟨-, he⟩ := (collect_erases_iff (withGarbage [12, 6, 500, 6]) _ fun _ _ => none).2 _ hp
  refine ⟨_, hp, by decide, (he.mpr (by decide +kernel)).trans ?_⟩
  decide +kernel

def overlapping : List Level := [⟨0, [sst "1" 0 10 (by decide)]⟩,
  ⟨1, [sst "2" 5 15 (by decide), sst "3" 100 1000 (by decide)]⟩]

/-- The key in both files is erased twice, the second time at the place where a
key of the third file, which was not compacted, then is. -/
theorem collect_erases_other :
    (vLogGarbageCollect (withGarbage [12, 6, 500]) overlapping fun _ _ => none).map
      State.phyKeysForGc = some [] ∧
    ∃ files, Processed [12, 6, 500] overlapping files ∧
      (handed files).map (fun f => f.sstmeta.name) = ["1", "2"] ∧
      (collectFiles (withGarbage [12, 6, 500]) files (fun _ _ => none)).map
        State.phyKeysForGc = some [] ∧
      outside (handed files) (sortedKeys [12, 6, 500]) = [500] := by
  refine ⟨by decide +kernel, [metadata [6, 12, 500] 0 (sst "1" 0 10 (by decide)),
    metadata [6, 12, 500] 1 (sst "2" 5 15 (by decide)),
    metadata [6, 12, 500] 1 (sst "3" 100 1000 (by decide))], ?_, by decide, by decide +kernel,
    by decide +kernel⟩
  refine ⟨by decide, by decide, _, ?_, List.Perm.refl _⟩
  rw [metadata_mapM (sortedKeys_sorted _), if_pos (by decide)]
  rfl

end WiscKey.NewDb.GarbageErased
