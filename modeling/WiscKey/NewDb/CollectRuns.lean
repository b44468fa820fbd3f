import WiscKey.NewDb.CollectDefined

namespace WiscKey.NewDb.CollectRuns

open WiscKey.Maps WiscKey.Vectors WiscKey.NewDb.Model WiscKey.NewDb.Collect
  WiscKey.NewDb.CollectSpec WiscKey.NewDb.CollectDefined

/-- A call of `CompactFiles` with the set that its compaction filter is given. -/
structure Call where
  names : List String
  level : Int
  garbage : List UInt64

def Loop.call (l : Loop) : Call := ⟨l.compactionFiles, l.nextLvl, l.gcKeysSet⟩

def calls (keys : List UInt64) : Loop → List GCMetadata → List Call
  | _, [] => []
  | l, f :: files =>
    if f.readyForGc then calls keys (l.gather keys f) files
    else (if 1 < l.compactionFiles.length then [Loop.call l] else []) ++ calls keys l.clear files

def applyCall (compactFiles : CompactFiles) (valuedb : Std.ExtTreeMap UInt64 (List UInt8))
    (c : Call) : Std.ExtTreeMap UInt64 (List UInt8) :=
  match compactFiles c.names c.level with
  | none => valuedb
  | some held => rewrite (some c.garbage) held valuedb

variable {keys garbage : List UInt64} {levels : List Level} {cf : CompactFiles}

theorem foldl_visit (files : List GCMetadata) (v : Std.ExtTreeMap UInt64 (List UInt8))
    (l : Loop) :
    (files.foldl (visit cf keys) (v, l)).1 = (calls keys l files).foldl (applyCall cf) v := by
  induction files generalizing v l with
  | nil => rfl
  | cons f files ih =>
    rw [List.foldl_cons, visit, calls]
    split
    · exact ih v (l.gather keys f)
    · rw [ih, List.foldl_append]
      congr 1
      rw [Loop.compact]
      split
      · rfl
      · rfl

def callFor (keys : List UInt64) (run : List GCMetadata) : Call :=
  Loop.call (run.foldl (Loop.gather keys) Loop.start)

theorem foldl_gather_names (run : List GCMetadata) (l : Loop) :
    (run.foldl (Loop.gather keys) l).compactionFiles =
      l.compactionFiles ++ run.map (fun f => f.sstmeta.name) := by
  induction run generalizing l with
  | nil => simp
  | cons f run ih => simp [ih, Loop.gather]

theorem foldl_gather_keys (run : List GCMetadata) (l : Loop) :
    (run.foldl (Loop.gather keys) l).gcKeysSet =
      l.gcKeysSet ++ run.flatMap (fun f => (keys.take f.largestItr).drop f.smallestItr) := by
  induction run generalizing l with
  | nil => simp
  | cons f run ih => simp [ih, Loop.gather]

theorem calls_congr (files : List GCMetadata) {l l' : Loop} (h : Loop.call l = Loop.call l') :
    calls keys l files = calls keys l' files := by
  induction files generalizing l l' with
  | nil => rfl
  | cons f files ih =>
    obtain ⟨hn, hl, hg⟩ := Call.mk.inj h
    rw [calls, calls]
    split
    · apply ih
      simp only [Loop.call, Loop.gather, hn, hl, hg]
    · rw [h, hn]
      congr 1
      exact ih rfl

/-- A run is closed by a file that is not ready, so the files after the last such
file are never compacted. -/
theorem calls_eq (files acc : List GCMetadata) :
    calls keys (acc.reverse.foldl (Loop.gather keys) Loop.start) files =
      ((files.splitOnPPrepend (fun f => !f.readyForGc) acc).dropLast.filter
        (fun run => 1 < run.length)).map (callFor keys) := by
  induction files generalizing acc with
  | nil => simp [calls]
  | cons f files ih =>
    rw [calls, List.splitOnPPrepend_cons_eq_if]
    cases hr : f.readyForGc with
    | true =>
      have hacc := ih (f :: acc)
      rw [List.reverse_cons, List.foldl_append] at hacc
      simpa using hacc
    | false =>
      have hnil := ih []
      have hlen : (acc.reverse.foldl (Loop.gather keys) Loop.start).compactionFiles.length =
          acc.reverse.length := by
        rw [foldl_gather_names]
        simp [Loop.start]
      have hclear : calls keys (acc.reverse.foldl (Loop.gather keys) Loop.start).clear files =
          calls keys Loop.start files := calls_congr files rfl
      rw [hclear]
      simp only [Bool.not_false, if_true, if_false, Bool.false_eq_true, hlen]
      rw [List.dropLast_cons_of_ne_nil (List.splitOnP_ne_nil _ _), List.filter_cons]
      simp only [List.reverse_nil, List.foldl_nil, List.splitOnPPrepend_nil_right] at hnil
      rw [hnil]
      by_cases h1 : 1 < acc.reverse.length
      · rw [if_pos h1, if_pos (decide_eq_true h1)]
        rfl
      · rw [if_neg h1, if_neg (by simpa using h1)]
        rfl

def trailing (files : List GCMetadata) : List GCMetadata :=
  (files.reverse.takeWhile GCMetadata.readyForGc).reverse

theorem getLast?_split (files acc : List GCMetadata) (ha : ∀ f ∈ acc, f.readyForGc = true) :
    (files.splitOnPPrepend (fun f => !f.readyForGc) acc).getLast? =
      some (trailing (acc.reverse ++ files)) := by
  induction files generalizing acc with
  | nil =>
    have hall : acc.takeWhile GCMetadata.readyForGc = acc := List.takeWhile_eq_self_iff.mpr ha
    simp [trailing, hall]
  | cons f files ih =>
    rw [List.splitOnPPrepend_cons_eq_if]
    cases hr : f.readyForGc with
    | true =>
      have hf := ih (f :: acc) (List.forall_mem_cons.mpr ⟨hr, ha⟩)
      simpa using hf
    | false =>
      have hnil := ih [] (by simp)
      have htail : trailing (acc.reverse ++ f :: files) = trailing files := by
        simp only [trailing, List.reverse_append, List.reverse_cons, List.reverse_reverse,
          List.append_assoc, List.singleton_append]
        rw [List.takeWhile_append, List.takeWhile_cons_of_neg (by simp [hr]), List.append_nil]
        split
        · rename_i hlen
          rw [(List.takeWhile_sublist _).eq_of_length hlen]
        · rfl
      rw [htail]
      simp only [List.reverse_nil, List.nil_append] at hnil
      simp only [Bool.not_false, if_true, List.getLast?_cons]
      rw [← List.splitOnPPrepend_nil_right, hnil]
      rfl

/-- The runs of ready files, from one file that is not ready to the next. -/
def runs (files : List GCMetadata) : List (List GCMetadata) :=
  files.splitOnP (fun f => !f.readyForGc)

theorem runs_eq (files : List GCMetadata) :
    runs files = (runs files).dropLast ++ [trailing files] := by
  have hl := getLast?_split files [] (by simp)
  rw [List.splitOnPPrepend_nil_right] at hl
  exact (List.dropLast_append_getLast? _ hl).symm

/-- What the loop is handed: what is known of each file, by smallest key. The
order of files with the same smallest key is that of `std::sort`. -/
def Processed (garbage : List UInt64) (levels : List Level) (files : List GCMetadata) : Prop :=
  files.length < 2 ^ 31 ∧
  files.Pairwise (fun a b => a.sstmeta.smallestkey ≤ b.sstmeta.smallestkey) ∧
    ∃ ms, (levels.flatMap fun l => l.files.map fun f => (l.level, f)).mapM
      (fun f => gcMetadata (sortedKeys garbage) f.1 f.2) = some ms ∧ files.Perm ms

/-- A call compacts just the files of a run, with the garbage in their key
ranges. -/
def Compacts (garbage : List UInt64) (c : Call) (run : List GCMetadata) : Prop :=
  c.names = run.map (fun f => f.sstmeta.name) ∧
    ∀ p, p ∈ c.garbage ↔ p ∈ garbage ∧
      ∃ f ∈ run, f.sstmeta.smallestkey ≤ p ∧ p ≤ f.sstmeta.largestkey

theorem metadata_mapM (hs : keys.Pairwise (fun a b => a ≤ b)) (files : List (Int × SstFile)) :
    files.mapM (fun f => gcMetadata keys f.1 f.2) =
      if ∀ f ∈ files, Measurable keys f.2 then some (files.map fun f => metadata keys f.1 f.2)
      else none := by
  simp only [gcMetadata_eq hs]
  exact mapM_ite (fun f : Int × SstFile => Measurable keys f.2)
    (fun f => metadata keys f.1 f.2) files

theorem processed_itr {files : List GCMetadata} (h : Processed garbage levels files)
    {f : GCMetadata} (hf : f ∈ files) :
    f.smallestItr = lowerBound (sortedKeys garbage) f.sstmeta.smallestkey ∧
      f.largestItr = upperBound (sortedKeys garbage) f.sstmeta.largestkey := by
  obtain ⟨-, -, ms, hm, hp⟩ := h
  rw [metadata_mapM (sortedKeys_sorted garbage)] at hm
  obtain ⟨-, hm⟩ := Option.ite_none_right_eq_some.mp hm
  cases hm
  obtain ⟨x, -, rfl⟩ := List.mem_map.mp (hp.mem_iff.mp hf)
  exact ⟨rfl, rfl⟩

theorem mem_of_mem_split (acc : List GCMetadata) {files run : List GCMetadata}
    (hr : run ∈ files.splitOnPPrepend (fun f => !f.readyForGc) acc) :
    run ⊆ acc.reverse ++ files := by
  induction files generalizing acc run with
  | nil =>
    rw [List.splitOnPPrepend_nil, List.mem_singleton] at hr
    rw [hr]
    exact List.subset_append_left _ _
  | cons f files ih =>
    rw [List.splitOnPPrepend_cons_eq_if] at hr
    split at hr
    · obtain rfl | hr := List.mem_cons.mp hr
      · exact List.subset_append_left _ _
      · have hsub := ih [] hr
        exact fun x hx => List.mem_append_right _ (List.mem_cons_of_mem f (hsub hx))
    · have hsub := ih (f :: acc) hr
      rwa [List.reverse_cons, List.append_assoc] at hsub

theorem callFor_compacts {files run : List GCMetadata} (h : Processed garbage levels files)
    (hr : run ∈ runs files) : Compacts garbage (callFor (sortedKeys garbage) run) run := by
  refine ⟨?_, ?_⟩
  · rw [callFor, Loop.call]
    simp only
    rw [foldl_gather_names]
    rfl
  · intro p
    have hslice : ∀ f ∈ run, p ∈ ((sortedKeys garbage).take f.largestItr).drop f.smallestItr ↔
        p ∈ garbage ∧ f.sstmeta.smallestkey ≤ p ∧ p ≤ f.sstmeta.largestkey := by
      intro f hf
      obtain ⟨hs, hl⟩ := processed_itr h (mem_of_mem_split [] hr hf)
      rw [hs, hl, mem_slice (sortedKeys_sorted garbage), (sortedKeys_perm garbage).mem_iff]
    simp only [callFor, Loop.call, foldl_gather_keys, Loop.start, List.nil_append,
      List.mem_flatMap]
    constructor
    · rintro ⟨f, hf, hp⟩
      obtain ⟨hg, hlo, hhi⟩ := (hslice f hf).mp hp
      exact ⟨hg, f, hf, hlo, hhi⟩
    · rintro ⟨hg, f, hf, hlo, hhi⟩
      exact ⟨f, hf, (hslice f hf).mpr ⟨hg, hlo, hhi⟩⟩

theorem calls_start (files : List GCMetadata) : calls keys Loop.start files =
    ((runs files).dropLast.filter (fun run => 1 < run.length)).map (callFor keys) := by
  have h : calls keys _ files = _ := calls_eq files []
  rwa [List.splitOnPPrepend_nil_right] at h

theorem filter_runs (files : List GCMetadata) :
    (runs files).filter (fun run => 1 < run.length) =
      (runs files).dropLast.filter (fun run => 1 < run.length) ++
        if 1 < (trailing files).length then [trailing files] else [] := by
  conv_lhs => rw [runs_eq files]
  rw [List.filter_append]
  congr 1
  by_cases h : 1 < (trailing files).length
  · simp [h]
  · simp [h]

theorem calls_iff {files : List GCMetadata} (h : Processed garbage levels files) :
    List.Forall₂ (Compacts garbage) (calls (sortedKeys garbage) Loop.start files)
      ((runs files).filter (fun run => 1 < run.length)) ↔ (trailing files).length < 2 := by
  rw [calls_start, filter_runs]
  constructor
  · intro hall
    by_contra hlen
    have hl := hall.length_eq
    rw [if_pos (by omega)] at hl
    simp at hl
  · intro hlen
    rw [if_neg (by omega), List.append_nil, List.forall₂_map_left_iff, List.forall₂_same]
    intro run hrun
    exact callFor_compacts h (List.dropLast_subset _ (List.mem_of_mem_filter hrun))

theorem measurable_perm (hp : keys.Perm garbage) (f : SstFile) :
    Measurable keys f ↔ Measurable garbage f := by
  simp only [CollectDefined.Measurable, garbageIn, hp.countP_eq]

theorem processed_isSome : (∃ files, Processed garbage levels files) ↔
    (levels.flatMap Level.files).length < 2 ^ 31 ∧
      ∀ f ∈ levels.flatMap Level.files, Measurable garbage f := by
  have hs := sortedKeys_sorted garbage
  have hall : (levels.flatMap fun l => l.files.map fun f => (l.level, f)).map Prod.snd =
      levels.flatMap Level.files := by
    simp [List.map_flatMap, Function.comp_def]
  simp only [← hall, List.forall_mem_map, List.length_map,
    ← measurable_perm (sortedKeys_perm garbage)]
  constructor
  · rintro ⟨files, hlen, -, ms, hm, hp⟩
    rw [metadata_mapM hs] at hm
    obtain ⟨hmeas, hm⟩ := Option.ite_none_right_eq_some.mp hm
    cases hm
    rw [hp.length_eq, List.length_map] at hlen
    exact ⟨hlen, hmeas⟩
  · rintro ⟨hlen, hmeas⟩
    let ms := (levels.flatMap fun l => l.files.map fun f => (l.level, f)).map
      fun f => metadata (sortedKeys garbage) f.1 f.2
    refine ⟨ms.insertionSort fun a b => a.sstmeta.smallestkey ≤ b.sstmeta.smallestkey, ?_,
      List.pairwise_insertionSort _ ms, ms, ?_, List.perm_insertionSort _ ms⟩
    · rw [List.length_insertionSort, List.length_map]
      exact hlen
    · rw [metadata_mapM hs, if_pos hmeas]

/-- The loop is reached just when the garbage in every file can be measured, and
it compacts every run of two or more ready files just when the files do not end
in such a run. -/
theorem compacts_runs_iff (garbage : List UInt64) (levels : List Level) :
    ((∃ files, Processed garbage levels files) ↔
      (levels.flatMap Level.files).length < 2 ^ 31 ∧
        ∀ f ∈ levels.flatMap Level.files, Measurable garbage f) ∧
    ∀ files, Processed garbage levels files →
      (List.Forall₂ (Compacts garbage) (calls (sortedKeys garbage) Loop.start files)
        ((runs files).filter (fun run => 1 < run.length)) ↔ (trailing files).length < 2) :=
  ⟨processed_isSome, fun _ h => calls_iff h⟩

def sst (name : String) (smallest largest : UInt64) (h : smallest ≤ largest) : SstFile :=
  ⟨name, smallest, largest, false, h⟩

theorem compacts_runs_two : ∃ files,
    Processed [2, 0] [⟨1, [sst "1" 0 1 (by decide), sst "2" 2 3 (by decide),
      sst "3" 10 20 (by decide)]⟩] files ∧
    (calls [0, 2] Loop.start files).map Call.names = [["1", "2"]] ∧
    List.Forall₂ (Compacts [2, 0]) (calls [0, 2] Loop.start files)
      ((runs files).filter (fun run => 1 < run.length)) := by
  have hp : Processed [2, 0] [⟨1, [sst "1" 0 1 (by decide), sst "2" 2 3 (by decide),
      sst "3" 10 20 (by decide)]⟩] ([sst "1" 0 1 (by decide), sst "2" 2 3 (by decide),
      sst "3" 10 20 (by decide)].map (metadata [0, 2] 1)) := by
    refine ⟨by decide, by decide, _, ?_, List.Perm.refl _⟩
    rw [metadata_mapM (sortedKeys_sorted _), if_pos (by decide)]
    rfl
  exact ⟨_, hp, by decide, ((compacts_runs_iff _ _).2 _ hp).mpr (by decide)⟩

/-- Two files with garbage and no file after them: nothing is compacted. -/
theorem last_run_not_compacted : ∃ files,
    Processed [2, 0] [⟨1, [sst "1" 0 1 (by decide), sst "2" 2 3 (by decide)]⟩] files ∧
    (runs files).length = 1 ∧ calls [0, 2] Loop.start files = [] ∧
    ¬ List.Forall₂ (Compacts [2, 0]) (calls [0, 2] Loop.start files)
      ((runs files).filter (fun run => 1 < run.length)) := by
  have hp : Processed [2, 0] [⟨1, [sst "1" 0 1 (by decide), sst "2" 2 3 (by decide)]⟩]
      ([sst "1" 0 1 (by decide), sst "2" 2 3 (by decide)].map (metadata [0, 2] 1)) := by
    refine ⟨by decide, by decide, _, ?_, List.Perm.refl _⟩
    rw [metadata_mapM (sortedKeys_sorted _), if_pos (by decide)]
    rfl
  refine ⟨_, hp, by decide, rfl, ?_⟩
  intro hall
  exact absurd hall.length_eq (by decide)

end WiscKey.NewDb.CollectRuns
