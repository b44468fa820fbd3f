import WiscKey.NewDb.CollectSpec

namespace WiscKey.NewDb.CollectDefined

open WiscKey.Maps WiscKey.Vectors WiscKey.NewDb.Model WiscKey.NewDb.Collect
  WiscKey.NewDb.CollectSpec

def garbageIn (garbage : List UInt64) (f : SstFile) : Nat :=
  garbage.countP fun p => f.smallestkey ≤ p ∧ p ≤ f.largestkey

def garbageAbove (garbage : List UInt64) (f : SstFile) : Nat :=
  garbage.countP fun p => f.largestkey < p

def numberOfKeyInFile (f : SstFile) : Int := toInt (f.largestkey - f.smallestkey).toNat

def Measurable (garbage : List UInt64) (f : SstFile) : Prop :=
  numberOfKeyInFile f ≠ 0 ∧ InInt (toInt (garbageIn garbage f) * 100)

instance (garbage : List UInt64) (f : SstFile) : Decidable (Measurable garbage f) :=
  inferInstanceAs (Decidable (_ ∧ _))

def ready (garbage : List UInt64) (f : SstFile) : Bool :=
  !f.beingCompacted &&
    decide (1 ≤ (toInt (garbageIn garbage f) * 100).tdiv (numberOfKeyInFile f))

/-- The files that are compacted, of those to come after some ready ones:
two or more ready files in a row in front of one that is not. -/
def collected {β : Type*} (ready : β → Bool) : List β → List β → List β
  | _, [] => []
  | acc, f :: files =>
    if ready f then collected ready (acc ++ [f]) files
    else (if 1 < acc.length then acc else []) ++ collected ready [] files

/-- No more garbage keys are counted in the files that come after a file than
there are above it. -/
def RangesFit (garbage : List UInt64) : List SstFile → Prop
  | [] => True
  | f :: files =>
    (files.map (garbageIn garbage)).sum ≤ garbageAbove garbage f ∧ RangesFit garbage files

instance decidableRangesFit (garbage : List UInt64) :
    ∀ files, Decidable (RangesFit garbage files)
  | [] => inferInstanceAs (Decidable True)
  | _ :: files => @instDecidableAnd _ _ _ (decidableRangesFit garbage files)

def sortedFiles (levels : List Level) : List SstFile :=
  (levels.flatMap Level.files).insertionSort fun a b => a.smallestkey ≤ b.smallestkey

def Collectable (garbage : List UInt64) (levels : List Level) : Prop :=
  (sortedFiles levels).length < 2 ^ 31 ∧
  (∀ f ∈ sortedFiles levels, Measurable garbage f) ∧
  RangesFit garbage (collected (ready garbage) [] (sortedFiles levels))

instance (garbage : List UInt64) (levels : List Level) : Decidable (Collectable garbage levels) :=
  inferInstanceAs (Decidable (_ ∧ _ ∧ _))

def metadata (keys : List UInt64) (level : Int) (f : SstFile) : GCMetadata :=
  { sstmeta := f, readyForGc := ready keys f, level := level
    smallestItr := lowerBound keys f.smallestkey, largestItr := upperBound keys f.largestkey }

variable {keys garbage : List UInt64} {levels : List Level} {s : State} {cf : CompactFiles}

theorem garbageIn_eq (hs : keys.Pairwise (fun a b => a ≤ b)) (f : SstFile) :
    ((upperBound keys f.largestkey : Int) - lowerBound keys f.smallestkey) =
      garbageIn keys f := by
  have hb := lowerBound_add hs f.ordered
  rw [garbageIn]
  omega

theorem gcMetadata_eq (hs : keys.Pairwise (fun a b => a ≤ b)) (level : Int) (f : SstFile) :
    gcMetadata keys level f =
      if Measurable keys f then some (metadata keys level f) else none := by
  have hg : garbagePercent (toInt (garbageIn keys f)) (numberOfKeyInFile f) =
      if Measurable keys f
      then some ((toInt (garbageIn keys f) * 100).tdiv (numberOfKeyInFile f)) else none := rfl
  rw [numberOfKeyInFile] at hg
  simp only [gcMetadata, garbageIn_eq hs, hg]
  split
  · rfl
  · rfl

theorem mapM_ite {α β : Type*} (P : α → Prop) [DecidablePred P] (m : α → β) (l : List α) :
    (l.mapM fun a => if P a then some (m a) else none) =
      if ∀ a ∈ l, P a then some (l.map m) else none := by
  induction l with
  | nil => simp
  | cons a l ih =>
    rw [List.mapM_cons, ih]
    simp only [List.forall_mem_cons]
    by_cases ha : P a
    · rw [if_pos ha]
      by_cases hl : ∀ b ∈ l, P b
      · rw [if_pos hl, if_pos ⟨ha, hl⟩]
        rfl
      · have hn : ¬(P a ∧ ∀ b ∈ l, P b) := fun h => hl h.2
        rw [if_neg hl, if_neg hn]
        rfl
    · have hn : ¬(P a ∧ ∀ b ∈ l, P b) := fun h => ha h.1
      rw [if_neg ha, if_neg hn]
      rfl

def leveledFiles (levels : List Level) : List (Int × SstFile) :=
  (levels.flatMap fun l => l.files.map fun f => (l.level, f)).insertionSort
    fun a b => a.2.smallestkey ≤ b.2.smallestkey

theorem leveledFiles_snd : (leveledFiles levels).map Prod.snd = sortedFiles levels := by
  rw [leveledFiles, List.map_insertionSort _ (fun a b : SstFile => a.smallestkey ≤ b.smallestkey)
    _ _ (fun a _ b _ => Iff.rfl), sortedFiles]
  congr 1
  simp [List.map_flatMap, Function.comp_def]

theorem inputFiles_eq (hs : keys.Pairwise (fun a b => a ≤ b)) :
    inputFiles keys levels =
      if (sortedFiles levels).length < 2 ^ 31 ∧ ∀ f ∈ sortedFiles levels, Measurable keys f
      then some ((leveledFiles levels).map fun f => metadata keys f.1 f.2) else none := by
  have hp : (leveledFiles levels).Perm
      (levels.flatMap fun l => l.files.map fun f => (l.level, f)) := List.perm_insertionSort _ _
  simp only [inputFiles, gcMetadata_eq hs, mapM_ite, ← leveledFiles_snd, List.length_map,
    hp.length_eq, List.forall_mem_map, hp.mem_iff]
  by_cases h1 : (levels.flatMap fun l => l.files.map fun f => (l.level, f)).length < 2 ^ 31
  · simp only [h1, if_true, true_and]
    split
    · refine congrArg some (List.map_insertionSort _ _ _ _ ?_).symm
      exact fun a _ b _ => Iff.rfl
    · rfl
  · simp only [h1, if_false, false_and]

def range (f : GCMetadata) : Nat × Nat := (f.smallestItr, f.largestItr)

theorem foldl_deletionKeys (fs acc : List GCMetadata)
    (c : Std.ExtTreeMap UInt64 (List UInt8) × Loop) (ht : c.2.deletionKeysTmp = acc.map range)
    (hl : c.2.compactionFiles.length = acc.length) :
    (fs.foldl (visit cf keys) c).2.deletionKeys =
      c.2.deletionKeys ++ (collected GCMetadata.readyForGc acc fs).map range := by
  induction fs generalizing acc c with
  | nil => simp [collected]
  | cons f fs ih =>
    rw [List.foldl_cons, collected]
    by_cases hr : f.readyForGc
    · rw [if_pos hr, visit, if_pos hr]
      refine ih (acc ++ [f]) (c.1, c.2.gather keys f) ?_ ?_
      · simp [Loop.gather, ht, range]
      · simp [Loop.gather, hl]
    · rw [if_neg hr, visit, if_neg hr, ih [] _ rfl rfl]
      simp only [Loop.clear, hl, ht]
      split
      · simp
      · simp

theorem collected_map {β γ : Type*} (g : β → γ) (r : γ → Bool) (acc l : List β) :
    (collected (fun b => r (g b)) acc l).map g = collected r (acc.map g) (l.map g) := by
  induction l generalizing acc with
  | nil => rfl
  | cons b l ih =>
    rw [collected, List.map_cons, collected]
    split
    · rw [ih, List.map_append]
      rfl
    · rw [List.map_append, ih, List.length_map]
      split
      · rfl
      · rfl

theorem collected_range :
    (collected GCMetadata.readyForGc []
      ((leveledFiles levels).map fun f => metadata keys f.1 f.2)).map range =
    (collected (ready keys) [] (sortedFiles levels)).map
      fun f => (lowerBound keys f.smallestkey, upperBound keys f.largestkey) := by
  have hm := collected_map (fun f : Int × SstFile => metadata keys f.1 f.2)
    GCMetadata.readyForGc [] (leveledFiles levels)
  have hf := collected_map Prod.snd (ready keys) [] (leveledFiles levels)
  rw [List.map_nil] at hm hf
  rw [leveledFiles_snd] at hf
  rw [← hf, List.map_map, ← hm, List.map_map]
  rfl

theorem erasable_iff (hs : keys.Pairwise (fun a b => a ≤ b)) (fs : List SstFile) :
    Erasable keys.length
      (fs.map fun f => (lowerBound keys f.smallestkey, upperBound keys f.largestkey)) ↔
      RangesFit keys fs := by
  induction fs with
  | nil => rfl
  | cons f fs ih =>
    have hsum : (fs.map fun f =>
        upperBound keys f.largestkey - lowerBound keys f.smallestkey) =
        fs.map (garbageIn keys) := by
      refine List.map_congr_left ?_
      intro g _
      rw [← lowerBound_add hs g.ordered, Nat.add_sub_cancel_left]
      rfl
    have hb := lowerBound_add hs f.ordered
    have ha := upperBound_add (y := f.largestkey) hs
    rw [List.map_cons, Erasable, RangesFit, ih, List.map_map, Function.comp_def, hsum, garbageAbove]
    refine and_congr_left' ?_
    dsimp only
    omega

theorem garbageIn_perm (hp : keys.Perm garbage) : garbageIn keys = garbageIn garbage :=
  funext fun _ => hp.countP_eq _

theorem ready_perm (hp : keys.Perm garbage) : ready keys = ready garbage := by
  funext f
  rw [ready, ready, garbageIn_perm hp]

theorem collectable_perm (hp : keys.Perm garbage) :
    Collectable keys levels ↔ Collectable garbage levels := by
  have hin := garbageIn_perm hp
  have hab : garbageAbove keys = garbageAbove garbage := funext fun f => hp.countP_eq _
  have hf : ∀ fs, RangesFit keys fs ↔ RangesFit garbage fs := by
    intro fs
    induction fs with
    | nil => rfl
    | cons f fs ih => rw [RangesFit, RangesFit, hin, hab, ih]
  simp only [Collectable, Measurable, hin, ready_perm hp, hf]

theorem deletionKeys_eq (valuedb : Std.ExtTreeMap UInt64 (List UInt8)) :
    (((leveledFiles levels).map fun f => metadata keys f.1 f.2).foldl (visit cf keys)
      (valuedb, Loop.start)).2.deletionKeys =
    (collected (ready keys) [] (sortedFiles levels)).map
      fun f => (lowerBound keys f.smallestkey, upperBound keys f.largestkey) := by
  rw [foldl_deletionKeys _ [] (valuedb, Loop.start) rfl rfl, collected_range]
  rfl

theorem collect_isSome :
    (vLogGarbageCollect s levels cf).isSome ↔ Collectable s.phyKeysForGc levels := by
  have hs := sortedKeys_sorted s.phyKeysForGc
  rw [← collectable_perm (sortedKeys_perm s.phyKeysForGc), Option.isSome_iff_exists, Collectable,
    ← erasable_iff hs, ← eraseRanges_isSome, ← and_assoc]
  constructor
  · rintro ⟨s', h⟩
    obtain ⟨files, rest, hf, hr, -⟩ := collect_eq_some.mp h
    rw [inputFiles_eq hs] at hf
    obtain ⟨hm, hf⟩ := Option.ite_none_right_eq_some.mp hf
    cases hf
    rw [deletionKeys_eq] at hr
    exact ⟨hm, by rw [hr]; rfl⟩
  · rintro ⟨hm, he⟩
    obtain ⟨rest, hr⟩ := Option.isSome_iff_exists.mp he
    have hf : inputFiles (sortedKeys s.phyKeysForGc) levels = some _ :=
      (inputFiles_eq hs).trans (if_pos hm)
    refine ⟨_, collect_eq_some.mpr ⟨_, rest, hf, ?_, rfl⟩⟩
    rw [deletionKeys_eq, hr]

end WiscKey.NewDb.CollectDefined
