import WiscKey.Sequential

namespace WiscKey.BufferCoverage

open WiscKey.Maps WiscKey.Runs WiscKey.Evict WiscKey.ValueLog WiscKey.LogLayout WiscKey.LogRecords
  WiscKey.Hash WiscKey.CacheShard WiscKey.ShardedCache WiscKey.ShardQuiet WiscKey.CacheQuiet
  WiscKey.CacheHolds WiscKey.Database WiscKey.Representation WiscKey.Sequential

def Unflushed (s : State) (k : Key) : Prop := ∃ r, s.index[k]? = some r ∧ (s.log k).lba ≤ r.offset

def Found (s : State) (k : Key) : Prop := ((s.buffer k).lookup k).2.isSome

def Covers (s : State) : Prop := ∀ k, Unflushed s k → Found s k

/-- A `Put` fills the log buffer, or the entries of the other unflushed keys in
its shard of the write buffer, with all that came after them, fit beside the
new entry. -/
def PutCovers (o : Options) (s : State) : Op → Prop
  | .put k v => flushThreshold o.logBufSize ≤ (s.log k).bufOffset + v.length ∨
      ∀ k' r, s.index[k']? = some r → (s.log k').lba ≤ r.offset → k' ≠ k →
        partition k' = partition k →
        (s.buffer k).shardOf (hashSlice k') = (s.buffer k).shardOf (hashSlice k) →
        ∃ h, Survives ((s.buffer k).shard k) (entryCharge k v) h ∧ h.key = k'
  | _ => True

instance (s : State) (k : Key) (v : Value) (k' : Key) : Decidable
    (∃ h, Survives ((s.buffer k).shard k) (entryCharge k v) h ∧ h.key = k') :=
  decidable_of_iff (∃ h ∈ trim Handle.totalCharge ((s.buffer k).shard k).capacity (entryCharge k v)
      ((s.buffer k).shard k).list, h.key = k')
    (exists_congr (fun _ => and_congr_left' (mem_trim_iff _ _ _ _ _)))

instance (o : Options) (s : State) : DecidablePred (PutCovers o s)
  | .put k v => decidable_of_iff
      (flushThreshold o.logBufSize ≤ (s.log k).bufOffset + v.length ∨
        ∀ e ∈ s.index.toList, (s.log e.1).lba ≤ e.2.offset → e.1 ≠ k →
          partition e.1 = partition k →
          (s.buffer k).shardOf (hashSlice e.1) = (s.buffer k).shardOf (hashSlice k) →
          ∃ h, Survives ((s.buffer k).shard k) (entryCharge k v) h ∧ h.key = e.1)
      (or_congr_right (by
        simp only [Prod.forall, Std.ExtTreeMap.mem_toList_iff_getElem?_eq_some]))
  | .delete _ | .get _ | .flush => inferInstanceAs (Decidable True)

def Positive (m : Store) : Prop := ∀ k, ∀ w ∈ m k, 0 < w.length

variable {o : Options} {m : Store} {s : State} {k k' : Key} {v : Value}

theorem found_iff (h : Represents o m s) :
    Found s k ↔ ∃ e ∈ ((s.buffer k).shard k).list, e.key = k :=
  lookup_isSome (h.quiet_buffer _)

theorem not_unflushed (h : Represents o m s) (hpos : ∀ v ∈ m k, 0 < v.length)
    (h0 : (s.log k).bufOffset = 0) : ¬Unflushed s k := by
  rintro ⟨r, hr, hle⟩
  obtain ⟨v, hv, hst⟩ := h.stored hr
  have hb := hst.below
  have hs := hst.size_eq
  have hp := hpos v hv
  rw [length_contents (h.layout_log k).toWithin] at hb
  omega

theorem put_log : (put o s k v).log k' =
    if partition k' = partition k then ((s.log k).append o.logBufSize v).1 else s.log k' := by
  change Function.update s.logs _ _ _ = _
  rw [Function.update_apply]
  rfl

theorem put_record : (put o s k v).index[k']? =
    if k = k' then some ⟨((s.log k).append o.logBufSize v).2, v.length⟩ else s.index[k']? :=
  getElem?_insert _ _ _ _

theorem append_lba {l : VLog} {b : UInt64} (hf : ¬flushThreshold b ≤ l.bufOffset + v.length) :
    (l.append b v).1.lba = l.lba := by
  have ha : (l.append b v).1 = l.copyIn v := if_neg hf
  rw [ha]
  rfl

theorem append_offset {l : VLog} {b : UInt64} (hf : flushThreshold b ≤ l.bufOffset + v.length) :
    (l.append b v).1.bufOffset = 0 := by
  have ha : (l.append b v).1 = (l.copyIn v).writeOut := if_pos hf
  rw [ha]
  rfl

theorem put_unflushed (hk : k' ≠ k) (hf : partition k' = partition k →
    ¬flushThreshold o.logBufSize ≤ (s.log k).bufOffset + v.length) :
    Unflushed (put o s k v) k' ↔ Unflushed s k' := by
  have hl : ((put o s k v).log k').lba = (s.log k').lba := by
    rw [put_log]
    split
    · rename_i hp
      rw [append_lba (hf hp), State.log, State.log, hp]
    · rfl
  simp only [Unflushed, put_record, if_neg (Ne.symm hk), hl]

theorem put_found_self (h : Represents o m s) (h' : Represents o (Function.update m k (some v))
    (put o s k v)) : Found (put o s k v) k := by
  rw [found_iff h', put_buffer, if_pos rfl]
  by_cases hp : ∃ a, Survives ((s.buffer k).shard k) (entryCharge k v) a ∧ a.key = k
  · obtain ⟨a, ha, hk⟩ := hp
    exact ⟨a, (insertRelease_mem (h.quiet_buffer _)).mpr (Or.inl ha), hk⟩
  · refine ⟨_, (insertRelease_mem (h.quiet_buffer _)).mpr (Or.inr ⟨rfl, ?_⟩), rfl⟩
    exact fun a ha hk => hp ⟨a, ha, hk⟩

theorem put_found (h : Represents o m s) (h' : Represents o (Function.update m k (some v))
    (put o s k v)) (hk : k' ≠ k) :
    Found (put o s k v) k' ↔
      if partition k' = partition k ∧
        (s.buffer k).shardOf (hashSlice k') = (s.buffer k).shardOf (hashSlice k)
      then ∃ e, Survives ((s.buffer k).shard k) (entryCharge k v) e ∧ e.key = k'
      else Found s k' := by
  rw [found_iff h', put_buffer, found_iff h]
  by_cases hp : partition k' = partition k
  · have hs : s.buffer k' = s.buffer k := congrArg s.buffers hp
    rw [if_pos hp, insertRelease_present (h.quiet_buffer _) hk, hs]
    simp only [hp, true_and]
  · rw [if_neg hp, if_neg (fun hc => hp hc.1)]

theorem Positive.update (hpos : Positive m) (hv : 0 < v.length) :
    Positive (Function.update m k (some v)) := by
  intro k' w hw
  rw [Function.update_apply] at hw
  split at hw
  · cases hw
    exact hv
  · exact hpos k' w hw

/-- A `Put` keeps the coverage just when it meets the condition. -/
theorem put_covers_iff (hb : PageBuffer o.logBufSize) (h : Represents o m s)
    (hpos : Positive m) (hv : 0 < v.length ∧ v.length ≤ pageSize)
    (hc : Covers s) : Covers (put o s k v) ↔ PutCovers o s (.put k v) := by
  have h' := put_represents (k := k) hb h hv.2
  by_cases hf : flushThreshold o.logBufSize ≤ (s.log k).bufOffset + v.length
  · refine iff_of_true ?_ (Or.inl hf)
    intro k' hu
    by_cases hp : partition k' = partition k
    · refine absurd hu (not_unflushed h' ?_ ?_)
      · exact hpos.update hv.1 k'
      · rw [put_log, if_pos hp]
        exact append_offset hf
    · have hk : k' ≠ k := fun he => hp (congrArg partition he)
      rw [put_found h h' hk, if_neg (fun hi => hp hi.1)]
      exact hc k' ((put_unflushed hk (fun hp' => absurd hp' hp)).mp hu)
  · simp only [PutCovers, hf, false_or]
    constructor
    · intro hc' k' r hr hle hk hp hi
      have hu := (put_unflushed hk (fun _ => hf)).mpr ⟨r, hr, hle⟩
      have hfd := (put_found h h' hk).mp (hc' k' hu)
      rwa [if_pos ⟨hp, hi⟩] at hfd
    · intro hs k' hu
      by_cases hk : k' = k
      · subst k'
        exact put_found_self h h'
      · rw [put_unflushed hk (fun _ => hf)] at hu
        rw [put_found h h' hk]
        split
        · rename_i hi
          obtain ⟨r, hr, hle⟩ := hu
          exact hs k' r hr hle hk hi.1 hi.2
        · exact hc k' hu

theorem delete_covers (h : Represents o m s) (hc : Covers s) : Covers (delete s k) := by
  rintro k' ⟨r, hr, hle⟩
  have hi : (delete s k).index[k']? = if k = k' then none else s.index[k']? := getElem?_erase _ _ _
  rw [hi] at hr
  split at hr
  · cases hr
  · rename_i hk
    have hf := (found_iff h).mp (hc k' ⟨r, hr, hle⟩)
    rw [found_iff (delete_represents h)]
    change ∃ e ∈ (((s.setBuffer k ((s.buffer k).erase k)).buffer k').shard k').list, e.key = k'
    rw [buffer_setBuffer]
    split
    · rename_i hp
      obtain ⟨e, he, hke⟩ := hf
      rw [State.buffer, hp] at he
      refine ⟨e, (erase_mem (h.quiet_buffer _)).mpr ⟨he, fun hn => hk ?_⟩, hke⟩
      rw [← hn.2, hke]
    · exact hf

theorem readBuffer_found (h : Represents o m s) :
    Found (s.readBuffer k).1 k' ↔ Found s k' := by
  rw [found_iff (readBuffer_represents h), found_iff h, State.readBuffer, buffer_setBuffer]
  split
  · rename_i hp
    have hs : s.buffer k' = s.buffer k := congrArg s.buffers hp
    have hsh : ((s.buffer k).read k).1.shardOf = (s.buffer k).shardOf := by
      rw [read_eq]
      rfl
    simp only [Cache.shard, hsh, read_mem (h.quiet_buffer _), hs]
  · rfl

theorem readBuffer_covers (h : Represents o m s) (hc : Covers s) : Covers (s.readBuffer k).1 :=
  fun k' hu => (readBuffer_found h).mpr (hc k' hu)

theorem readCache_unflushed : Unflushed (s.readCache k).1 k' ↔ Unflushed s k' := by
  obtain ⟨hi, hl, -⟩ := readCache_frame s k
  rw [Unflushed, Unflushed, State.log, hi, hl]
  rfl

theorem readCache_covers (hc : Covers s) : Covers (s.readCache k).1 := by
  unfold State.readCache
  split
  · exact hc
  · exact hc

theorem get_covers (h : Represents o m s) (hc : Covers s) : Covers (Database.get s k).1 := by
  have hs := readCache_covers (k := k) hc
  have hb := readBuffer_covers (k := k) (readCache_represents (k := k) h) hs
  have hg := get_gets s k
  generalize Database.get s k = p at hg ⊢
  cases hg with
  | cached v hv => exact hs
  | unindexed hv hi => exact hs
  | buffered r v hv hi hw => exact hb
  | unread r hv hi hw hl => exact hb
  | loaded r v hv hi hw hl => exact hb

theorem flushVLog_covers (hb : PageBuffer o.logBufSize) (h : Represents o m s)
    (hpos : Positive m) : Covers (flushVLog s) := by
  intro k hu
  refine absurd hu (not_unflushed (flushVLog_represents hb h) (hpos k) ?_)
  change (s.log k).flush.bufOffset = 0
  unfold VLog.flush
  split
  · assumption
  · rfl

theorem step_covers_iff (hb : PageBuffer o.logBufSize) (h : Represents o m s)
    (hpos : Positive m) (hc : Covers s) {op : Op} (hop : op.Sized) :
    Covers (step o s op) ↔ PutCovers o s op := by
  cases op with
  | put k v => exact put_covers_iff hb h hpos hop hc
  | delete k => exact iff_of_true (delete_covers h hc) trivial
  | get k => exact iff_of_true (get_covers h hc) trivial
  | flush => exact iff_of_true (flushVLog_covers hb h hpos) trivial

theorem mapStep_positive (hpos : Positive m) {op : Op} (hop : op.Sized) :
    Positive (mapStep m op) := by
  cases op with
  | put k v => exact hpos.update hop.1
  | delete k =>
    intro k' w hw
    rw [mapStep, Function.update_apply] at hw
    split at hw
    · cases hw
    · exact hpos k' w hw
  | get k => exact hpos
  | flush => exact hpos

theorem readLog_live (h : Represents o m s) (hpos : Positive m) {r : Record}
    (hr : s.index[k]? = some r) (hl : ¬Unflushed s k) : readLog (s.log k).file r ≠ none := by
  obtain ⟨v, hv, hst⟩ := h.stored hr
  have h0 : 0 < r.size := by
    rw [hst.size_eq]
    exact hpos k v hv
  have hw : r.offset + r.size ≤ (s.log k).lba := by
    obtain hw | hw := hst.whole
    · exact hw
    · exact absurd ⟨r, hr, hw⟩ hl
  rw [readLog_eq_some (h.layout_log k).toWithin hw h0]
  exact Option.some_ne_none _

theorem get_found (h : Represents o m s) (hpos : Positive m) (hc : Covers s) (hm : m k ≠ none) :
    (Database.get s k).2 ≠ .notFound := by
  have ht := readCache_represents (k := k) h
  have hs := readCache_covers (k := k) hc
  have hg := get_gets s k
  generalize Database.get s k = p at hg ⊢
  cases hg with
  | cached v hv => exact Answer.noConfusion
  | unindexed hv hi => exact absurd (h.dead hi) hm
  | buffered r v hv hi hw => exact Answer.noConfusion
  | unread r hv hi hw hl =>
    refine absurd hl (readLog_live h hpos hi ?_)
    intro hu
    rw [← readCache_unflushed] at hu
    obtain ⟨e, he, hk⟩ := (found_iff ht).mp (hs k hu)
    exact absurd hk ((read_eq_none_iff (ht.quiet_buffer k)).mp hw e he)
  | loaded r v hv hi hw hl => exact Answer.noConfusion

theorem run_represents (hb : PageBuffer o.logBufSize) (mem : Fin 4 → Nat → UInt8) {ops : List Op}
    (hsized : ∀ op ∈ ops, op.Sized) :
    Represents o (lastWrite ops) (ops.foldl (step o) (openFresh o mem)) ∧
      Positive (lastWrite ops) := by
  refine (along_of_forall hsized).simulates mapStep (fun s m => Represents o m s ∧ Positive m)
    ⟨openFresh_represents o mem, fun k w hw => by cases hw⟩ ?_
  exact fun s m op h hop => ⟨step_represents hb h.1 hop.small, mapStep_positive h.2 hop⟩

/-- The write buffers cover the unflushed log in every state of a run, and no
`Get` misses a live key, just when every `Put` meets the condition. -/
theorem write_buffer_covers (hb : PageBuffer o.logBufSize) (mem : Fin 4 → Nat → UInt8)
    {ops : List Op} (hsized : ∀ op ∈ ops, op.Sized) :
    Along (step o) (PutCovers o) (openFresh o mem) ops ↔
      ∀ pre, pre <+: ops →
        Covers (pre.foldl (step o) (openFresh o mem)) ∧
        ∀ k, lastWrite pre k ≠ none →
          (Database.get (pre.foldl (step o) (openFresh o mem)) k).2 ≠ .notFound := by
  have hiff : Along (step o) (PutCovers o) (openFresh o mem) ops ↔
      ∀ pre, pre <+: ops → Covers (pre.foldl (step o) (openFresh o mem)) := by
    refine along_iff_invariant (J := fun s => ∃ m, Represents o m s ∧ Positive m) (q := Op.Sized)
      ?_ ?_ hsized ⟨_, openFresh_represents o mem, fun k w hw => by cases hw⟩ ?_
    · rintro s op ⟨m, h, hpos⟩ hop
      exact ⟨mapStep m op, step_represents hb h hop.small, mapStep_positive hpos hop⟩
    · rintro s op ⟨m, h, hpos⟩ hc hop
      exact step_covers_iff hb h hpos hc hop
    · rintro k ⟨r, hr, -⟩
      simp [openFresh] at hr
  rw [hiff]
  refine forall₂_congr ?_
  intro pre hpre
  obtain ⟨h, hpos⟩ := run_represents (o := o) hb mem (fun op hop => hsized op (hpre.subset hop))
  exact ⟨fun hc => ⟨hc, fun k hk => get_found h hpos hc hk⟩, And.left⟩

theorem write_buffer_covers_two :
    (Database.get ([Op.put [7] [1], .put [8] [2], .flush, .delete [8], .put [9] [3]].foldl
      (step ⟨32768, 0⟩) (openFresh ⟨32768, 0⟩ fun _ _ => 0)) [9]).2 ≠ .notFound :=
  ((write_buffer_covers (by decide) _ (by decide)).mp (by decide +kernel) _ List.prefix_rfl).2 _
    (by decide +kernel)

def crowd : List Op := [0, 26, 52, 54, 66, 74, 94, 106, 123].map fun b =>
  .put (List.replicate 410 b) (List.replicate 450 1)

/-- The ninth entry evicts the first, whose value is still in the log buffer. -/
theorem write_buffer_evicts :
    lastWrite crowd (List.replicate 410 0) = some (List.replicate 450 1) ∧
    (Database.get (crowd.foldl (step ⟨32768, 0⟩) (openFresh ⟨32768, 0⟩ fun _ _ => 0))
      (List.replicate 410 0)).2 = .notFound ∧
    ¬Covers (crowd.foldl (step ⟨32768, 0⟩) (openFresh ⟨32768, 0⟩ fun _ _ => 0)) := by
  have hm : lastWrite crowd (List.replicate 410 0) = some (List.replicate 450 1) := by
    decide +kernel
  have hn : (Database.get (crowd.foldl (step ⟨32768, 0⟩) (openFresh ⟨32768, 0⟩ fun _ _ => 0))
      (List.replicate 410 0)).2 = .notFound := by
    decide +kernel
  refine ⟨hm, hn, ?_⟩
  intro hc
  obtain ⟨h, hpos⟩ := run_represents (o := ⟨32768, 0⟩) (by decide) (fun _ _ => 0)
    (by decide +kernel : ∀ op ∈ crowd, op.Sized)
  refine get_found h hpos hc ?_ hn
  rw [hm]
  exact Option.some_ne_none _

end WiscKey.BufferCoverage
