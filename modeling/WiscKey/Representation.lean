import WiscKey.LogRecords
import WiscKey.CacheHolds

namespace WiscKey.Representation

open WiscKey.Maps WiscKey.Bytes WiscKey.ValueLog WiscKey.LogLayout WiscKey.LogRecords WiscKey.Hash
  WiscKey.ShardedCache WiscKey.CacheQuiet WiscKey.CacheHolds WiscKey.Database

abbrev Store := Key → Option Value

/-- The index and the logs represent the store, and no cache entry is pinned. -/
structure Represents (o : Options) (m : Store) (s : State) : Prop where
  layout : ∀ i, Layout (bufSize o.logBufSize) (s.logs i)
  buffer_quiet : ∀ i, QuietCache (s.buffers i)
  cache_quiet : ∀ c ∈ s.cache, QuietCache c
  records : ∀ k, Option.Rel (Stored (s.log k)) s.index[k]? (m k)
  small : ∀ k, ∀ v ∈ m k, v.length ≤ pageSize

variable {o : Options} {m : Store} {s : State} {k : Key} {v : Value}

theorem Represents.stored (h : Represents o m s) {r : Record} (hr : s.index[k]? = some r) :
    ∃ v, m k = some v ∧ Stored (s.log k) r v := by
  have hrel := h.records k
  rw [hr] at hrel
  cases hm : m k with
  | none =>
    rw [hm] at hrel
    cases hrel
  | some v =>
    rw [hm] at hrel
    cases hrel with
    | some hst => exact ⟨v, rfl, hst⟩

theorem Represents.layout_log (h : Represents o m s) (k : Key) :
    Layout (bufSize o.logBufSize) (s.log k) := h.layout _

theorem Represents.quiet_buffer (h : Represents o m s) (k : Key) : QuietCache (s.buffer k) :=
  h.buffer_quiet _

theorem Represents.dead (h : Represents o m s) (hi : s.index[k]? = none) : m k = none := by
  have hrel := h.records k
  rw [hi] at hrel
  cases hm : m k with
  | none => rfl
  | some v =>
    rw [hm] at hrel
    cases hrel

theorem newDataCache_quiet : ∀ c ∈ newDataCache o, QuietCache c := by
  intro c hc
  unfold newDataCache at hc
  split at hc
  · cases hc
    exact new_quietCache _ _ _
  · cases hc

theorem openFresh_represents (o : Options) (mem : Fin 4 → Nat → UInt8) :
    Represents o (fun _ => none) (openFresh o mem) where
  layout i := openLog_layout _ _ (mem i) (Nat.dvd_zero _)
  buffer_quiet _ := new_quietCache _ _ _
  cache_quiet := newDataCache_quiet
  records k := by
    rw [openFresh, Std.ExtTreeMap.getElem?_empty]
    exact Option.Rel.none
  small k v hv := by cases hv

theorem mapCache_quiet (h : ∀ c ∈ s.cache, QuietCache c) {g : Cache → Cache}
    (hg : ∀ c, QuietCache c → QuietCache (g c)) : ∀ c ∈ s.cache.map g, QuietCache c := by
  simp only [Option.mem_def, Option.map_eq_some_iff]
  rintro _ ⟨c, hc, rfl⟩
  exact hg c (h c hc)

theorem readCache_quiet (h : ∀ c ∈ s.cache, QuietCache c) :
    ∀ c ∈ (s.readCache k).1.cache, QuietCache c := by
  unfold State.readCache
  split
  · exact h
  · rename_i c hc
    rintro _ ⟨⟩
    exact read_quietCache (h c hc)

theorem setBuffer_quiet (h : ∀ i, QuietCache (s.buffers i)) {c : Cache} (hc : QuietCache c)
    (i : Fin 4) : QuietCache ((s.setBuffer k c).buffers i) := by
  simp only [State.setBuffer, Function.update_apply]
  split
  · exact hc
  · exact h i

theorem readCache_state (s : State) (k : Key) :
    (s.readCache k).1 = { s with cache := (s.readCache k).1.cache } := by
  unfold State.readCache
  split
  · rfl
  · rfl

theorem readCache_frame (s : State) (k : Key) : (s.readCache k).1.index = s.index ∧
    (s.readCache k).1.logs = s.logs ∧ (s.readCache k).1.buffers = s.buffers := by
  rw [readCache_state]
  exact ⟨rfl, rfl, rfl⟩

theorem setCache_represents (h : Represents o m s) {c : Option Cache} (hc : ∀ d ∈ c, QuietCache d) :
    Represents o m { s with cache := c } :=
  ⟨h.layout, h.buffer_quiet, hc, h.records, h.small⟩

theorem setBuffer_represents (h : Represents o m s) {c : Cache} (hc : QuietCache c) :
    Represents o m (s.setBuffer k c) where
  layout := h.layout
  buffer_quiet := setBuffer_quiet h.buffer_quiet hc
  cache_quiet := h.cache_quiet
  records := h.records
  small := h.small

theorem buffer_setBuffer {c : Cache} {k' : Key} :
    (s.setBuffer k c).buffer k' = if partition k' = partition k then c else s.buffer k' := by
  simp only [State.buffer, State.setBuffer, Function.update_apply]

theorem fillCache_represents (h : Represents o m s) : Represents o m (s.fillCache k v) :=
  setCache_represents h (mapCache_quiet h.cache_quiet fun _ hc => insertRelease_quietCache hc)

theorem eraseCacheEntry_represents (h : Represents o m s) :
    Represents o m (s.eraseCacheEntry k) :=
  setCache_represents h (mapCache_quiet h.cache_quiet fun _ hc => erase_quietCache hc)

theorem readCache_represents (h : Represents o m s) : Represents o m (s.readCache k).1 := by
  rw [readCache_state]
  exact setCache_represents h (readCache_quiet h.cache_quiet)

theorem fillBuffer_represents (h : Represents o m s) : Represents o m (s.fillBuffer k v) :=
  setBuffer_represents h (insertRelease_quietCache (h.buffer_quiet _))

theorem eraseBufferEntry_represents (h : Represents o m s) :
    Represents o m (s.eraseBufferEntry k) :=
  setBuffer_represents h (erase_quietCache (h.buffer_quiet _))

theorem readBuffer_represents (h : Represents o m s) : Represents o m (s.readBuffer k).1 :=
  setBuffer_represents h (read_quietCache (h.buffer_quiet _))

theorem growLogs_represents (h : Represents o m s) {l : Fin 4 → VLog}
    (hl : ∀ i, Layout (bufSize o.logBufSize) (l i)) (hg : ∀ i, Grows (s.logs i) (l i)) :
    Represents o m { s with logs := l } where
  layout := hl
  buffer_quiet := h.buffer_quiet
  cache_quiet := h.cache_quiet
  records k := rel_grow (h.records k) (hg _)
  small := h.small

theorem appendLog_represents (hb : PageBuffer o.logBufSize) (h : Represents o m s)
    (hv : v.length ≤ pageSize) :
    Represents o m (s.appendLog o k v).1 ∧
      Stored ((s.appendLog o k v).1.log k) ⟨(s.appendLog o k v).2, v.length⟩ v := by
  have hl := h.layout (partition k)
  constructor
  · refine growLogs_represents h ?_ ?_
    · intro i
      by_cases hi : i = partition k
      · subst i
        simpa only [State.log, Function.update_self] using append_layout hb hl hv
      · simpa only [Function.update_of_ne hi] using h.layout i
    · intro i
      by_cases hi : i = partition k
      · subst i
        simpa only [State.log, Function.update_self] using append_grows hb hl hv
      · simpa only [Function.update_of_ne hi] using Grows.refl (s.logs i)
  · simpa only [State.appendLog, State.log, State.setLog, Function.update_self] using
      append_stored hb hl hv

theorem putIndex_represents (h : Represents o m s) {r : Record} (hr : Stored (s.log k) r v)
    (hv : v.length ≤ pageSize) :
    Represents o (Function.update m k (some v)) (s.putIndex k r) where
  layout := h.layout
  buffer_quiet := h.buffer_quiet
  cache_quiet := h.cache_quiet
  records k' := by
    by_cases hk : k' = k
    · subst k'
      simpa [State.putIndex, State.log] using hr
    · simpa [State.putIndex, State.log, getElem?_insert, Ne.symm hk, hk] using h.records k'
  small k' w hw := by
    by_cases hk : k' = k
    · subst k'
      rw [Function.update_self] at hw
      cases hw
      exact hv
    · rw [Function.update_of_ne hk] at hw
      exact h.small k' w hw

theorem deleteIndex_represents (h : Represents o m s) :
    Represents o (Function.update m k none) (s.deleteIndex k) where
  layout := h.layout
  buffer_quiet := h.buffer_quiet
  cache_quiet := h.cache_quiet
  records k' := by
    by_cases hk : k' = k
    · subst k'
      simp [State.deleteIndex]
    · simpa [State.deleteIndex, State.log, getElem?_erase, Ne.symm hk, hk] using h.records k'
  small k' w hw := by
    by_cases hk : k' = k
    · subst k'
      rw [Function.update_self] at hw
      cases hw
    · rw [Function.update_of_ne hk] at hw
      exact h.small k' w hw

theorem reopen_represents (hb : PageBuffer o.logBufSize) (h : Represents o m s)
    (mem : Fin 4 → Nat → UInt8) : Represents o m (reopen o s mem) where
  layout i := reopen_layout hb (h.layout i) (mem i)
  buffer_quiet _ := new_quietCache _ _ _
  cache_quiet := newDataCache_quiet
  records k := rel_grow (h.records k) (reopen_grows (h.layout _) hb.2 _ _)
  small := h.small

/-- The contents of a state: the bytes each index entry points at. -/
def resolved (s : State) : Store :=
  fun k => s.index[k]?.map (fun r => slice (s.log k).contents r.offset r.size)

theorem resolved_eq (h : Represents o m s) : resolved s = m := by
  funext k
  rw [resolved]
  cases hi : s.index[k]? with
  | none =>
    rw [h.dead hi]
    rfl
  | some r =>
    obtain ⟨v, hm, hst⟩ := h.stored hi
    rw [hm, Option.map_some, hst.size_eq, hst.bytes]

end WiscKey.Representation
