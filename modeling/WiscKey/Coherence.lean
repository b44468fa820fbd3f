import WiscKey.Sequential

namespace WiscKey.Coherence

open WiscKey.Runs WiscKey.Evict WiscKey.CacheShard WiscKey.ValueLog WiscKey.LogLayout
  WiscKey.LogRecords WiscKey.Hash WiscKey.ShardedCache WiscKey.CacheQuiet WiscKey.CacheHolds
  WiscKey.ShardQuiet WiscKey.Database WiscKey.Representation WiscKey.Sequential

/-- All that the caches hold is what the store has. -/
structure Coherent (m : Store) (s : State) : Prop where
  cache : ∀ c ∈ s.cache, ∀ k v, Holds c k v → m k = some v
  buffer : ∀ k v, Holds (s.buffer k) k v → m k = some v

def Refreshes (c : Cache) (k : Key) (v : Value) : Prop :=
  ∀ h, Survives (c.shard k) (entryCharge k v) h → h.key = k → h.value = v

/-- No `Put` leaves an older value of its key in the data cache or in the
write buffer. -/
def PutRefreshes (s : State) : Op → Prop
  | .put k v => (∀ c ∈ s.cache, Refreshes c k v) ∧ Refreshes (s.buffer k) k v
  | _ => True

instance (c : Cache) (k : Key) (v : Value) : Decidable (Refreshes c k v) :=
  decidable_of_iff (∀ h ∈ trim Handle.totalCharge (c.shard k).capacity (entryCharge k v)
      (c.shard k).list, h.key = k → h.value = v)
    (forall_congr' (fun _ => imp_congr_left (mem_trim_iff _ _ _ _ _)))

instance (s : State) : DecidablePred (PutRefreshes s)
  | .put k v => inferInstanceAs
      (Decidable ((∀ c ∈ s.cache, Refreshes c k v) ∧ Refreshes (s.buffer k) k v))
  | .delete _ | .get _ | .flush => inferInstanceAs (Decidable True)

variable {o : Options} {m : Store} {s : State} {k k' : Key} {v w : Value}

theorem insertRelease_holds_cases {c : Cache} (hc : QuietCache c) (hr : Refreshes c k v)
    (hw : Holds (c.insertRelease k v) k' w) : k' = k ∧ w = v ∨ k' ≠ k ∧ Holds c k' w := by
  by_cases hk : k' = k
  · subst k'
    refine Or.inl ⟨rfl, ?_⟩
    obtain he | ⟨h, hs, hk, rfl⟩ := insertRelease_holds_self hc hw
    · exact he
    · exact hr h hs hk
  · exact Or.inr ⟨hk, insertRelease_holds_other hc hk hw⟩

theorem put_cache_holds (h : Represents o m s) (hf : PutRefreshes s (.put k v)) {c : Cache}
    (hc : c ∈ (put o s k v).cache) (hw : Holds c k' w) :
    k' = k ∧ w = v ∨ k' ≠ k ∧ ∃ d ∈ s.cache, Holds d k' w := by
  obtain ⟨d, hd, rfl⟩ := Option.map_eq_some_iff.mp hc
  obtain he | ⟨hk, hw⟩ := insertRelease_holds_cases (h.cache_quiet d hd) (hf.1 d hd) hw
  · exact Or.inl he
  · exact Or.inr ⟨hk, d, hd, hw⟩

theorem put_buffer_holds (h : Represents o m s) (hf : PutRefreshes s (.put k v))
    (hw : Holds ((put o s k v).buffer k') k' w) :
    k' = k ∧ w = v ∨ k' ≠ k ∧ Holds (s.buffer k') k' w := by
  rw [put_buffer] at hw
  split at hw
  · rename_i hp
    have hb : s.buffer k' = s.buffer k := congrArg s.buffers hp
    rw [hb]
    exact insertRelease_holds_cases (h.quiet_buffer k) hf.2 hw
  · rename_i hp
    exact Or.inr ⟨fun he => hp (congrArg partition he), hw⟩

theorem delete_cache_holds (h : Represents o m s) {c : Cache} (hc : c ∈ (delete s k).cache)
    (hw : Holds c k' w) : k' ≠ k ∧ ∃ d ∈ s.cache, Holds d k' w := by
  obtain ⟨d, hd, rfl⟩ := Option.map_eq_some_iff.mp hc
  obtain ⟨hw, hk⟩ := (erase_holds (h.cache_quiet d hd)).mp hw
  exact ⟨hk, d, hd, hw⟩

theorem delete_buffer_holds (h : Represents o m s) (hw : Holds ((delete s k).buffer k') k' w) :
    k' ≠ k ∧ Holds (s.buffer k') k' w := by
  change Holds ((s.setBuffer k ((s.buffer k).erase k)).buffer k') k' w at hw
  rw [buffer_setBuffer] at hw
  split at hw
  · rename_i hp
    have hb : s.buffer k' = s.buffer k := congrArg s.buffers hp
    rw [hb]
    exact ((erase_holds (h.quiet_buffer k)).mp hw).symm
  · rename_i hp
    exact ⟨fun he => hp (congrArg partition he), hw⟩

theorem fillCache_holds (h : Represents o m s) {c : Cache} (hc : c ∈ (s.fillCache k v).cache)
    (hw : Holds c k' w) : k' = k ∧ w = v ∨ ∃ d ∈ s.cache, Holds d k' w := by
  obtain ⟨d, hd, rfl⟩ := Option.map_eq_some_iff.mp hc
  have hq := h.cache_quiet d hd
  by_cases hk : k' = k
  · subst k'
    obtain he | ⟨e, ⟨r, hr, -⟩, hk, rfl⟩ := insertRelease_holds_self hq hw
    · exact Or.inl ⟨rfl, he⟩
    · exact Or.inr ⟨d, hd, e, hr.subset List.mem_cons_self, hk, rfl⟩
  · exact Or.inr ⟨d, hd, insertRelease_holds_other hq hk hw⟩

theorem readCache_cache_holds (h : Represents o m s) {c : Cache}
    (hc : c ∈ (s.readCache k).1.cache) (hw : Holds c k' w) : ∃ d ∈ s.cache, Holds d k' w := by
  unfold State.readCache at hc
  split at hc
  · exact ⟨c, hc, hw⟩
  · rename_i d hd
    cases hc
    exact ⟨d, hd, (read_holds (h.cache_quiet d hd)).mp hw⟩

theorem readBuffer_buffer_holds (h : Represents o m s)
    (hw : Holds ((s.readBuffer k).1.buffer k') k' w) : Holds (s.buffer k') k' w := by
  rw [State.readBuffer, buffer_setBuffer] at hw
  split at hw
  · rename_i hp
    have hb : s.buffer k' = s.buffer k := congrArg s.buffers hp
    rw [hb]
    exact (read_holds (h.quiet_buffer k)).mp hw
  · exact hw

theorem readCache_hit (h : Represents o m s) (hv : (s.readCache k).2 = some v) :
    ∃ c ∈ s.cache, Holds c k v := by
  unfold State.readCache at hv
  split at hv
  · cases hv
  · rename_i c hc
    exact ⟨c, hc, (read_eq_some_iff (h.cache_quiet c hc)).mp hv⟩

theorem readBuffer_hit (h : Represents o m s) :
    (s.readBuffer k).2 = some v ↔ Holds (s.buffer k) k v := read_eq_some_iff (h.quiet_buffer k)

theorem put_coherent (h : Represents o m s) (hc : Coherent m s)
    (hf : PutRefreshes s (.put k v)) :
    Coherent (Function.update m k (some v)) (put o s k v) where
  cache c hs k' w hw := by
    obtain ⟨rfl, rfl⟩ | ⟨hk, d, hd, hw⟩ := put_cache_holds h hf hs hw
    · exact Function.update_self _ _ _
    · rw [Function.update_of_ne hk]
      exact hc.cache d hd k' w hw
  buffer k' w hw := by
    obtain ⟨rfl, rfl⟩ | ⟨hk, hw⟩ := put_buffer_holds h hf hw
    · exact Function.update_self _ _ _
    · rw [Function.update_of_ne hk]
      exact hc.buffer k' w hw

theorem delete_coherent (h : Represents o m s) (hc : Coherent m s) :
    Coherent (Function.update m k none) (delete s k) where
  cache c hs k' w hw := by
    obtain ⟨hk, d, hd, hw⟩ := delete_cache_holds h hs hw
    rw [Function.update_of_ne hk]
    exact hc.cache d hd k' w hw
  buffer k' w hw := by
    obtain ⟨hk, hw⟩ := delete_buffer_holds h hw
    rw [Function.update_of_ne hk]
    exact hc.buffer k' w hw

theorem fillCache_coherent (h : Represents o m s) (hc : Coherent m s) (hv : m k = some v) :
    Coherent m (s.fillCache k v) where
  cache c hs k' w hw := by
    obtain ⟨rfl, rfl⟩ | ⟨d, hd, hw⟩ := fillCache_holds h hs hw
    · exact hv
    · exact hc.cache d hd k' w hw
  buffer := hc.buffer

theorem readCache_coherent (h : Represents o m s) (hc : Coherent m s) :
    Coherent m (s.readCache k).1 where
  cache c hs k' w hw := by
    obtain ⟨d, hd, hw⟩ := readCache_cache_holds h hs hw
    exact hc.cache d hd k' w hw
  buffer k' w hw := by
    rw [State.buffer, (readCache_frame s k).2.2] at hw
    exact hc.buffer k' w hw

theorem readBuffer_coherent (h : Represents o m s) (hc : Coherent m s) :
    Coherent m (s.readBuffer k).1 where
  cache := hc.cache
  buffer k' w hw := hc.buffer k' w (readBuffer_buffer_holds h hw)

theorem get_coherent (h : Represents o m s) (hc : Coherent m s) :
    Coherent m (Database.get s k).1 ∧ ∀ v, (Database.get s k).2 = .ok v → m k = some v := by
  have hr := readCache_represents (k := k) h
  have hs := readCache_coherent (k := k) h hc
  have hb := readBuffer_coherent (k := k) hr hs
  have hg := get_gets s k
  generalize Database.get s k = p at hg ⊢
  cases hg with
  | cached v hv =>
    refine ⟨hs, ?_⟩
    rintro _ ⟨⟩
    obtain ⟨c, hm, hw⟩ := readCache_hit h hv
    exact hc.cache c hm k v hw
  | unindexed hv hi => exact ⟨hs, nofun⟩
  | buffered r v hv hi hw =>
    refine ⟨hb, ?_⟩
    rintro _ ⟨⟩
    exact hs.buffer k v ((readBuffer_hit hr).mp hw)
  | unread r hv hi hw hl => exact ⟨hb, nofun⟩
  | loaded r v hv hi hw hl =>
    obtain ⟨u, hm, hst⟩ := h.stored hi
    rw [← readLog_stored (h.layout_log k).toWithin hst hl] at hm
    refine ⟨fillCache_coherent (readBuffer_represents hr) hb hm, ?_⟩
    rintro _ ⟨⟩
    exact hm

theorem get_notFound (h : Represents o m s) (hc : Coherent m s) (hn : m k = none) :
    (Database.get s k).2 = .notFound := by
  cases ha : (Database.get s k).2 with
  | notFound => rfl
  | ok v =>
    have hv := (get_coherent h hc).2 v ha
    rw [hn] at hv
    cases hv

theorem step_coherent (h : Represents o m s) (hc : Coherent m s) {op : Op}
    (hf : PutRefreshes s op) : Coherent (mapStep m op) (step o s op) := by
  cases op with
  | put k v => exact put_coherent h hc hf
  | delete k => exact delete_coherent h hc
  | get k => exact (get_coherent h hc).1
  | flush => exact ⟨hc.cache, hc.buffer⟩

theorem openFresh_coherent (o : Options) (mem : Fin 4 → Nat → UInt8) :
    Coherent (fun _ => none) (openFresh o mem) where
  cache c hc k v := by
    rintro ⟨e, he, -⟩
    simp only [openFresh, newDataCache] at hc
    split at hc
    · cases hc
      cases he
    · cases hc
  buffer k v := by
    rintro ⟨e, he, -⟩
    cases he

/-- Whatever layer answers a `Get`, it answers the last write, as long as
every `Put` refreshes the copies of its key. -/
theorem get_lastWrite (hb : PageBuffer o.logBufSize) (mem : Fin 4 → Nat → UInt8) {ops : List Op}
    (hsized : ∀ op ∈ ops, op.Sized) (hf : Along (step o) PutRefreshes (openFresh o mem) ops)
    (k : Key) :
    (∀ v, (Database.get (ops.foldl (step o) (openFresh o mem)) k).2 = .ok v →
      lastWrite ops k = some v) ∧
    (lastWrite ops k = none →
      (Database.get (ops.foldl (step o) (openFresh o mem)) k).2 = .notFound) := by
  have hrun := (hf.and hsized).simulates mapStep (fun s m => Represents o m s ∧ Coherent m s)
    ⟨openFresh_represents o mem, openFresh_coherent o mem⟩
    (fun s m op h hop => ⟨step_represents hb h.1 hop.2.small, step_coherent h.1 h.2 hop.1⟩)
  exact ⟨(get_coherent hrun.1 hrun.2).2, get_notFound hrun.1 hrun.2⟩

theorem get_lastWrite_after_delete :
    (Database.get ([Op.put [7] [1], .delete [7], .put [7] [2]].foldl (step ⟨16384, 16⟩)
      (openFresh ⟨16384, 16⟩ fun _ _ => 0)) [7]).2 = .ok [2] ∧
    lastWrite [Op.put [7] [1], .delete [7], .put [7] [2]] [7] = some [2] :=
  have hok : (Database.get ([Op.put [7] [1], .delete [7], .put [7] [2]].foldl
      (step ⟨16384, 16⟩) (openFresh ⟨16384, 16⟩ fun _ _ => 0)) [7]).2 = .ok [2] := by
    decide +kernel
  ⟨hok, (get_lastWrite (by decide) _ (by decide) (by decide +kernel) _).1 _ hok⟩

/-- An overwrite does not replace the cached value. -/
theorem get_stale :
    lastWrite [Op.put [7] [1], .put [7] [2]] [7] = some [2] ∧
    (Database.get ([Op.put [7] [1], .put [7] [2]].foldl (step ⟨16384, 16⟩)
      (openFresh ⟨16384, 16⟩ fun _ _ => 0)) [7]).2 = .ok [1] := by
  decide +kernel

end WiscKey.Coherence
