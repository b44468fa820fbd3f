import WiscKey.NewDb.Collect

namespace WiscKey.NewDb.CollectSpec

open WiscKey.Maps WiscKey.Vectors WiscKey.NewDb.Model WiscKey.NewDb.Collect

variable {keys : List UInt64} {valuedb : Std.ExtTreeMap UInt64 (List UInt8)}
  {held : UInt64 → Bool} {cf : CompactFiles} {p : UInt64} {s s' : State} {levels : List Level}

theorem rewrite_none : rewrite none held valuedb = valuedb := by
  apply Std.ExtTreeMap.ext_getElem?
  intro p
  rw [rewrite, Std.ExtTreeMap.getElem?_filter']
  cases valuedb[p]? with
  | none => rfl
  | some r => simp [filterV2]

theorem rewrite_some (hp : p ∉ keys) : (rewrite (some keys) held valuedb)[p]? = valuedb[p]? := by
  rw [rewrite, Std.ExtTreeMap.getElem?_filter']
  cases valuedb[p]? with
  | none => rfl
  | some r => simp [filterV2, hp]

theorem compact_getElem? {l : Loop} (hp : p ∉ l.gcKeysSet) :
    (l.compact cf valuedb)[p]? = valuedb[p]? := by
  unfold Loop.compact
  split
  · split
    · rfl
    · exact rewrite_some hp
  · rfl

structure Harmless (keys : List UInt64) (valuedb : Std.ExtTreeMap UInt64 (List UInt8))
    (c : Std.ExtTreeMap UInt64 (List UInt8) × Loop) : Prop where
  garbage : c.2.gcKeysSet ⊆ keys
  kept : ∀ p ∉ keys, c.1[p]? = valuedb[p]?

theorem visit_harmless {c : Std.ExtTreeMap UInt64 (List UInt8) × Loop}
    (h : Harmless keys valuedb c) (f : GCMetadata) :
    Harmless keys valuedb (visit cf keys c f) := by
  unfold visit
  split
  · refine ⟨List.append_subset.mpr ⟨h.garbage, ?_⟩, h.kept⟩
    exact fun p hp => List.mem_of_mem_take (List.mem_of_mem_drop hp)
  · refine ⟨List.nil_subset _, fun p hp => ?_⟩
    rw [compact_getElem? (fun hm => hp (h.garbage hm))]
    exact h.kept p hp

theorem foldl_harmless (files : List GCMetadata) {c : Std.ExtTreeMap UInt64 (List UInt8) × Loop}
    (h : Harmless keys valuedb c) : Harmless keys valuedb (files.foldl (visit cf keys) c) := by
  induction files generalizing c with
  | nil => exact h
  | cons f files ih => exact ih (visit_harmless h f)

theorem sortedKeys_perm (garbage : List UInt64) : (sortedKeys garbage).Perm garbage :=
  List.perm_insertionSort _ garbage

theorem sortedKeys_sorted (garbage : List UInt64) :
    (sortedKeys garbage).Pairwise (fun a b => a ≤ b) := List.pairwise_insertionSort _ garbage

theorem collect_eq_some : vLogGarbageCollect s levels cf = some s' ↔
    ∃ files rest, inputFiles (sortedKeys s.phyKeysForGc) levels = some files ∧
      eraseRanges (sortedKeys s.phyKeysForGc) (files.foldl
        (visit cf (sortedKeys s.phyKeysForGc)) (s.valuedb, Loop.start)).2.deletionKeys =
        some rest ∧
      s' = { s with
        valuedb := (files.foldl (visit cf (sortedKeys s.phyKeysForGc)) (s.valuedb, Loop.start)).1
        phyKeysForGc := rest } := by
  simp [vLogGarbageCollect, Option.bind_eq_some_iff, eq_comm (a := s')]

theorem collect_frame (h : vLogGarbageCollect s levels cf = some s') :
    s'.keydb = s.keydb ∧ s'.sequence = s.sequence ∧ s'.phyKeysForGc ⊆ s.phyKeysForGc ∧
      ∀ p ∉ s.phyKeysForGc, s'.valuedb[p]? = s.valuedb[p]? := by
  obtain ⟨files, rest, -, hr, rfl⟩ := collect_eq_some.mp h
  have hp := sortedKeys_perm s.phyKeysForGc
  refine ⟨rfl, rfl, fun p hm => hp.subset ((eraseRanges_eq_some hr).1 hm), fun p hn => ?_⟩
  refine (foldl_harmless files ⟨List.nil_subset _, fun _ _ => rfl⟩).kept p ?_
  exact fun hm => hn (hp.subset hm)

end WiscKey.NewDb.CollectSpec
