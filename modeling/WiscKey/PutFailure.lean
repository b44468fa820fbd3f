import WiscKey.BufferCoverage
import WiscKey.WriteFaults

namespace WiscKey.PutFailure

open WiscKey.Runs WiscKey.ValueLog WiscKey.LogLayout WiscKey.LogRecords WiscKey.Bytes WiscKey.Hash
  WiscKey.ShardedCache WiscKey.CacheQuiet WiscKey.CacheHolds WiscKey.Database WiscKey.Representation
  WiscKey.Collect WiscKey.GarbageCollection WiscKey.Coherence WiscKey.BufferCoverage
  WiscKey.DiskRead WiscKey.Faults WiscKey.ReadFaults WiscKey.WriteFaults

def answerOf : Option Value → Answer
  | none => .notFound
  | some v => .ok v

/-- All that the data cache holds is what the store has, and so for the write
buffers, except for keys that the store does not have. -/
structure Faithful (m : Store) (s : State) : Prop where
  cache : ∀ c ∈ s.cache, ∀ k v, Holds c k v → m k = some v
  buffer : ∀ k v, Holds (s.buffer k) k v → m k = some v ∨ m k = none

/-- A `Put` changes nothing that can be seen: it was to write the value that the key has
already, or there is no data cache, the key is not in the index and the last
attempt to write the index failed as well. -/
def Harmless (s : State) (k : Key) (v : Value) (f : Writes) : Prop :=
  resolved s k = some v ∨
    s.cache = none ∧ s.index[k]? = none ∧ (Attempts.write f.index).applied = false

/-- What is asked of a `Put`, whether or not it fails: its value has between one
byte and a page, no older value of its key stays in a cache, the write buffers
go on covering the log buffers, and its `pwrite` is complete. -/
def PutTame (o : Options) (s : State) (k : Key) (v : Value) (f : Writes) : Prop :=
  Complete o s (.put k v f) ∧ 0 < v.length ∧ PutRefreshes s (.put k v) ∧ PutCovers o s (.put k v)

instance (o : Options) (s : State) (k : Key) (v : Value) (f : Writes) :
    Decidable (PutTame o s k v f) :=
  inferInstanceAs (Decidable (_ ∧ _))

def Tame (o : Options) (s : State) : Call → Prop
  | .put k v f => PutTame o s k v f ∧
      ((Attempts.write f.index).acknowledged = false → Harmless s k v f)
  | .delete _ ok => ok = true
  | .get k out f => out = [] ∧ Sound s k out f
  | call => Complete o s call

variable {o : Options} {m : Store} {s s' : State} {k : Key} {v w : Value}

/-- All that holds of a state in which every `Get` answers what the store has. -/
structure Serves (o : Options) (m : Store) (s : State) : Prop where
  represents : Represents o m s
  positive : Positive m
  covers : Covers s
  faithful : Faithful m s

theorem readCache_of_holds (h : Represents o m s) {c : Cache} (hc : s.cache = some c)
    (hv : Holds c k v) : (s.readCache k).2 = some v := by
  simp only [State.readCache, hc]
  exact (read_eq_some_iff (h.cache_quiet c hc)).mpr hv

theorem readCache_none (hc : s.cache = none) : (s.readCache k).2 = none := by
  simp only [State.readCache, hc]

theorem Serves.get (h : Serves o m s) (k : Key) : (Database.get s k).2 = answerOf (m k) := by
  rw [get_eq]
  cases hc : (s.readCache k).2 with
  | some v =>
    obtain ⟨c, hm, hv⟩ := readCache_hit h.represents hc
    rw [h.faithful.cache c hm k v hv]
    rfl
  | none =>
    cases hr : s.index[k]? with
    | none =>
      rw [h.represents.dead hr]
      rfl
    | some r =>
      obtain ⟨w, hw, hst⟩ := h.represents.stored hr
      rw [hw]
      cases hb : (s.readBuffer k).2 with
      | some v =>
        have hv := h.faithful.buffer k v ((readBuffer_hit h.represents).mp hb)
        rw [hw] at hv
        obtain hv | hv := hv
        · cases hv
          rfl
        · cases hv
      | none =>
        have hl : r.offset + r.size ≤ (s.log k).lba := by
          obtain hl | hl := hst.whole
          · exact hl
          · obtain ⟨e, he, hk⟩ := (found_iff h.represents).mp (h.covers k ⟨r, hr, hl⟩)
            exact absurd hk ((read_eq_none_iff (h.represents.quiet_buffer k)).mp hb e he)
        have h0 : 0 < r.size := by
          rw [hst.size_eq]
          exact h.positive k w hw
        have hin := (h.represents.layout_log k).toWithin
        simp only [readLog_eq_some hin hl h0, cut_stored hin hst hl]
        rfl

theorem insertRelease_holds {c : Cache} (hc : QuietCache c) (hr : Refreshes c k v) :
    Holds (c.insertRelease k v) k v := by
  by_cases hp : ∃ a, ShardQuiet.Survives (c.shard k) (entryCharge k v) a ∧ a.key = k
  · obtain ⟨a, ha, hk⟩ := hp
    exact ⟨a, (insertRelease_mem hc).mpr (Or.inl ha), hk, hr a ha hk⟩
  · refine ⟨_, (insertRelease_mem hc).mpr (Or.inr ⟨rfl, ?_⟩), rfl, rfl⟩
    exact fun a ha hk => hp ⟨a, ha, hk⟩

theorem put_faithful (h : Represents o m s) (hm : Faithful m s)
    (hf : PutRefreshes s (.put k v)) :
    Faithful (Function.update m k (some v)) (put o s k v) where
  cache c hc k' w hw := by
    obtain ⟨rfl, rfl⟩ | ⟨hk, d, hd, hw⟩ := put_cache_holds h hf hc hw
    · exact Function.update_self _ _ _
    · rw [Function.update_of_ne hk]
      exact hm.cache d hd k' w hw
  buffer k' w hw := by
    obtain ⟨rfl, rfl⟩ | ⟨hk, hw⟩ := put_buffer_holds h hf hw
    · exact Or.inl (Function.update_self _ _ _)
    · rw [Function.update_of_ne hk]
      exact hm.buffer k' w hw

theorem unindexed_faithful (h : Represents o m s) (hm : Faithful m s)
    (hf : PutRefreshes s (.put k v)) (hk : m k = some v ∨ s.cache = none ∧ m k = none) :
    Faithful m (unindexed o s k v) where
  cache c hc k' w hw := by
    obtain ⟨rfl, rfl⟩ | ⟨-, d, hd, hw⟩ := put_cache_holds (o := o) h hf hc hw
    · obtain hk | ⟨hn, -⟩ := hk
      · exact hk
      · obtain ⟨d, hd, -⟩ := Option.map_eq_some_iff.mp hc
        rw [hn] at hd
        cases hd
    · exact hm.cache d hd k' w hw
  buffer k' w hw := by
    obtain ⟨rfl, rfl⟩ | ⟨-, hw⟩ := put_buffer_holds (o := o) h hf hw
    · exact hk.imp id And.right
    · exact hm.buffer k' w hw

theorem unindexed_covers (hb : PageBuffer o.logBufSize) (h : Represents o m s)
    (hv : v.length ≤ pageSize) (hc : Covers (put o s k v)) : Covers (unindexed o s k v) := by
  rintro k' ⟨r, hr, hl⟩
  by_cases hk : k' = k
  · subst k'
    exact put_found_self h (Sequential.put_represents hb h hv)
  · refine hc k' ⟨r, ?_, hl⟩
    rw [put_record, if_neg (Ne.symm hk)]
    exact hr

theorem update_of_eq (hk : m k = some v) : Function.update m k (some v) = m := by
  rw [← hk, Function.update_eq_self]

theorem put_serves (hb : PageBuffer o.logBufSize) (h : Serves o m s) {f : Writes}
    (ht : PutTame o s k v f) : Serves o (Function.update m k (some v)) (put o s k v) where
  represents := Sequential.put_represents hb h.represents ht.1.1
  positive := h.positive.update ht.2.1
  covers := (put_covers_iff hb h.represents h.positive ⟨ht.2.1, ht.1.1⟩ h.covers).mpr ht.2.2.2
  faithful := put_faithful h.represents h.faithful ht.2.2.1

theorem unindexed_serves (hb : PageBuffer o.logBufSize) (h : Serves o m s) {f : Writes}
    (ht : PutTame o s k v f) (hk : m k = some v ∨ s.cache = none ∧ m k = none) :
    Serves o m (unindexed o s k v) where
  represents := unindexed_represents hb h.represents ht.1.1
  positive := h.positive
  covers := unindexed_covers hb h.represents ht.1.1 (put_serves hb h ht).covers
  faithful := unindexed_faithful h.represents h.faithful ht.2.2.1 hk

theorem harmless_iff (h : Represents o m s) {f : Writes} : Harmless s k v f ↔
    m k = some v ∨ s.cache = none ∧ m k = none ∧ (Attempts.write f.index).applied = false := by
  have hi : s.index[k]? = none ↔ m k = none := by
    refine ⟨h.dead, ?_⟩
    intro hm
    cases hr : s.index[k]? with
    | none => rfl
    | some r =>
      obtain ⟨w, hw, -⟩ := h.stored hr
      rw [hm] at hw
      cases hw
  rw [Harmless, resolved_eq h, hi]

theorem answerOf_injective : Function.Injective answerOf := by
  intro a b h
  cases a with
  | none =>
    cases b with
    | none => rfl
    | some w => cases h
  | some v =>
    cases b with
    | none => cases h
    | some w =>
      cases h
      rfl

theorem unindexed_cache : (unindexed o s k v).cache = s.cache.map fun c => c.insertRelease k v :=
  rfl

theorem unindexed_buffer : (unindexed o s k v).buffer k = (s.buffer k).insertRelease k v := by
  have hb : (unindexed o s k v).buffer k = ((s.fillCache k v).fillBuffer k v).buffer k := rfl
  rw [hb, State.fillBuffer, buffer_setBuffer, if_pos rfl]
  rfl

theorem unindexed_get (hb : PageBuffer o.logBufSize) (h : Represents o m s) {f : Writes}
    (ht : PutTame o s k v f) (hn : s.cache ≠ none ∨ m k ≠ none) :
    (Database.get (unindexed o s k v) k).2 = .ok v := by
  have hu : Represents o m (unindexed o s k v) := unindexed_represents hb h ht.1.1
  have hrefresh := ht.2.2.1
  rw [get_eq]
  cases hc : s.cache with
  | some c =>
    have hcache : (unindexed o s k v).cache = some (c.insertRelease k v) := by
      rw [unindexed_cache, hc, Option.map_some]
    rw [readCache_of_holds hu hcache
      (insertRelease_holds (h.cache_quiet c hc) (hrefresh.1 c hc))]
  | none =>
    have hcache : (unindexed o s k v).cache = none := by
      rw [unindexed_cache, hc, Option.map_none]
    have hhit : ((unindexed o s k v).readBuffer k).2 = some v := by
      refine (readBuffer_hit hu).mpr ?_
      rw [unindexed_buffer]
      exact insertRelease_holds (h.quiet_buffer k) hrefresh.2
    rw [readCache_none hcache, hhit]
    cases hr : (unindexed o s k v).index[k]? with
    | none => exact absurd (hu.dead hr) (hn.resolve_left (fun he => he hc))
    | some r => rfl

theorem failed_unseen_iff (hb : PageBuffer o.logBufSize) (h : Serves o m s) {f : Writes}
    (ht : PutTame o s k v f) :
    (∀ k', (Database.get (putFaulty o s k v f).1 k').2 = (Database.get s k').2) ↔
      Harmless s k v f := by
  rw [harmless_iff h.represents, putFaulty_complete ht.1]
  cases happ : (Attempts.write f.index).applied with
  | true =>
    have hs := put_serves hb h ht
    simp only [if_true, hs.get, h.get, reduceCtorEq, and_false, or_false]
    constructor
    · intro hall
      have hk := answerOf_injective (hall k)
      rw [Function.update_self] at hk
      exact hk.symm
    · intro hk k'
      rw [update_of_eq hk]
  | false =>
    rw [if_neg Bool.false_ne_true, and_iff_left rfl]
    by_cases hk : m k = some v ∨ s.cache = none ∧ m k = none
    · refine iff_of_true ?_ hk
      intro k'
      rw [(unindexed_serves hb h ht hk).get, h.get]
    · refine iff_of_false ?_ hk
      intro hall
      have hn : s.cache ≠ none ∨ m k ≠ none := by
        rw [← not_and_or]
        exact fun hn => hk (Or.inr hn)
      have he : answerOf (some v) = answerOf (m k) := by
        rw [← h.get k, ← hall k]
        exact (unindexed_get hb h.represents ht hn).symm
      exact hk (Or.inl (answerOf_injective he).symm)

theorem delete_serves (h : Serves o m s) : Serves o (Function.update m k none) (delete s k) where
  represents := Sequential.delete_represents h.represents
  positive := @mapStep_positive _ h.positive (.delete k) trivial
  covers := delete_covers h.represents h.covers
  faithful := by
    constructor
    · intro c hc k' w hw
      obtain ⟨hk, d, hd, hw⟩ := delete_cache_holds h.represents hc hw
      rw [Function.update_of_ne hk]
      exact h.faithful.cache d hd k' w hw
    · intro k' w hw
      obtain ⟨hk, hw⟩ := delete_buffer_holds h.represents hw
      rw [Function.update_of_ne hk]
      exact h.faithful.buffer k' w hw

theorem readCache_serves (h : Serves o m s) : Serves o m (s.readCache k).1 where
  represents := readCache_represents h.represents
  positive := h.positive
  covers := readCache_covers h.covers
  faithful := by
    constructor
    · intro c hc k' w hw
      obtain ⟨d, hd, hw⟩ := readCache_cache_holds h.represents hc hw
      exact h.faithful.cache d hd k' w hw
    · intro k' w hw
      rw [State.buffer, (readCache_frame s k).2.2] at hw
      exact h.faithful.buffer k' w hw

theorem readBuffer_serves (h : Serves o m s) : Serves o m (s.readBuffer k).1 where
  represents := readBuffer_represents h.represents
  positive := h.positive
  covers := readBuffer_covers h.represents h.covers
  faithful := ⟨h.faithful.cache, fun k' w hw =>
    h.faithful.buffer k' w (readBuffer_buffer_holds h.represents hw)⟩

theorem fillCache_serves (h : Serves o m s) (hv : m k = some v) : Serves o m (s.fillCache k v) where
  represents := fillCache_represents h.represents
  positive := h.positive
  covers := h.covers
  faithful := by
    refine ⟨?_, h.faithful.buffer⟩
    intro c hc k' w hw
    obtain ⟨rfl, rfl⟩ | ⟨d, hd, hw⟩ := fillCache_holds h.represents hc hw
    · exact hv
    · exact h.faithful.cache d hd k' w hw

theorem slice_of_delivers {size : Nat} {l : VLog} {r : Record} {f : Reads}
    {data : Option (List UInt8)} (h : Within size l) (hst : Stored l r v) (h0 : 0 < v.length)
    (hl : LastRead (delivered l.file r f.pread) data) (hd : Delivers r data) :
    slice l.file r.offset r.size = v := by
  have hsz := hst.size_eq
  obtain hw | hw := hst.whole
  · have hv := hst.bytes
    rw [file_slice h (hsz ▸ hw), ← hsz] at hv
    exact hv
  · have hnone : alignedRead l.file r = [] := by
      have hr := readLog_unflushed h hw
      rw [readLog, ite_eq_left_iff] at hr
      by_contra hne
      cases hr (fun he => hne (List.length_eq_zero_iff.mp he))
    obtain ⟨i, -, -, rfl, hne⟩ := hl
    rw [delivered, hnone] at hd hne
    cases hp : f.pread i with
    | none =>
      simp only [hp, Delivers, Option.map_none, Option.getD_none, List.length_nil] at hd
      omega
    | some n => simp [hp] at hne

theorem getFaulty_serves (h : Serves o m s) {f : Reads} (hs : Sound s k [] f) {a : Answer}
    (hg : getFaulty s k [] f = some (s', a)) : Serves o m s' := by
  have hc := readCache_serves (k := k) h
  have hb := readBuffer_serves (k := k) hc
  obtain ⟨hi, hl, -⟩ := readCache_frame s k
  cases getFaulty_got hg with
  | cached v hv => exact hc
  | unindexed hv hx => exact hc
  | buffered r v hv hx hw => exact hb
  | disk r hv hx hw hd =>
    obtain ⟨hr, hok⟩ := readIndex_eq_some.mp hx
    have hlog : ((s.readCache k).1.readBuffer k).1.log k = s.log k := congrFun hl _
    have hr' : ((s.readCache k).1.readBuffer k).1.index[k]? = some r := by
      rw [← hr, ← hi]
      rfl
    have hsound := hs r hr hok
    rw [← hlog] at hsound
    obtain ⟨result, hres, hh⟩ := (getFromDisk_honest_iff hr').mpr hsound
    rw [hd] at hres
    cases hres
    obtain ⟨r', data, hr'', hlast, hdel, he⟩ | he := hh
    · cases he
      obtain ⟨v, hv, hst⟩ := hb.represents.stored hr''
      refine fillCache_serves hb ?_
      rw [hv, slice_of_delivers (hb.represents.layout_log k).toWithin hst (hb.positive k v hv)
        hlast hdel]
    · cases he
      exact hb

theorem new_serves (h : Represents o m s) (hpos : Positive m) (h0 : ∀ i, (s.logs i).bufOffset = 0)
    (hbuf : ∀ i, s.buffers i = newBuffer o) (hcache : s.cache = newDataCache o) :
    Serves o m s where
  represents := h
  positive := hpos
  covers k hu := absurd hu (not_unflushed h (hpos k) (h0 _))
  faithful := by
    have hc := OutputString.new_coherent (m := m) hbuf hcache
    exact ⟨hc.cache, fun k v hv => Or.inl (hc.buffer k v hv)⟩

theorem step_serves {call : Call} (hb : PageBuffer o.logBufSize) (h : Serves o m s)
    (ht : Tame o s call) (hs : step o s call = some s') : Serves o (mapStep m call) s' := by
  cases call with
  | put k v f =>
    cases hs
    rw [putFaulty_complete ht.1.1, mapStep]
    cases happ : (Attempts.write f.index).applied with
    | true => exact put_serves hb h ht.1
    | false =>
      refine unindexed_serves hb h ht.1 ?_
      have hack : (Attempts.write f.index).acknowledged = false := by
        by_contra hack
        rw [Attempts.write_applied (Bool.eq_true_of_not_eq_false hack)] at happ
        cases happ
      exact ((harmless_iff h.represents).mp (ht.2 hack)).imp id (fun hn => ⟨hn.1, hn.2.1⟩)
  | delete k ok =>
    cases hs
    cases ht
    exact delete_serves h
  | get k out f =>
    obtain ⟨⟨t, a⟩, hg, rfl⟩ := Option.map_eq_some_iff.mp hs
    obtain ⟨rfl, hsound⟩ := ht
    exact getFaulty_serves h hsound hg
  | flush count =>
    cases hs
    rw [flushFaulty_complete (o := o) ht]
    exact ⟨Sequential.flushVLog_represents hb h.represents, h.positive,
      flushVLog_covers hb h.represents h.positive, ⟨h.faithful.cache, h.faithful.buffer⟩⟩
  | reopen count mem =>
    have hcomplete : Complete o s (.reopen count mem) := ht
    have hr := WriteFaults.step_represents hb h.represents hcomplete hs
    cases hs
    rw [reopenFaulty_complete hcomplete] at hr ⊢
    exact new_serves hr h.positive (fun _ => rfl) (fun _ => rfl) rfl
  | collect threads events =>
    have hcomplete : Complete o s (.collect threads events) := ht
    have hr := WriteFaults.step_represents hb h.represents hcomplete hs
    obtain ⟨g, -, -, rfl⟩ := vLogGarbageCollect_eq_some hs
    exact new_serves hr h.positive (fun _ => flush_offset _) (fun _ => rfl) rfl

/-- In a run without harm, a `Put` changes no answer just when it is harmless.
This is so for the ones that fail and for those that write what is there. -/
theorem failed_put_unseen_iff (hb : PageBuffer o.logBufSize) (mem : Fin 4 → Nat → UInt8)
    (calls : List Call) (s : State) (hc : AlongM (step o) (Tame o) (openFresh o mem) calls)
    (hrun : calls.foldlM (step o) (openFresh o mem) = some s) (k : Key) (v : Value) (f : Writes)
    (ht : PutTame o s k v f) :
    (∀ k', (Database.get (putFaulty o s k v f).1 k').2 = (Database.get s k').2) ↔
      Harmless s k v f := by
  have h : Serves o (calls.foldl mapStep fun _ => none) s := by
    refine hc.simulates mapStep (fun s m => Serves o m s) ?_
      (fun _ _ _ _ h ht hs => step_serves hb h ht hs) hrun
    exact new_serves (openFresh_represents o mem) (fun k w hw => by cases hw) (fun _ => rfl)
      (fun _ => rfl) rfl
  exact failed_unseen_iff hb h ht

def unwritten : Writes := ⟨fun _ => false, 0⟩

theorem failed_put_unseen_new : ∃ s,
    first.foldlM (step ⟨32768, 0⟩) (openFresh ⟨32768, 0⟩ fun _ _ => 0) = some s ∧
      (putFaulty ⟨32768, 0⟩ s [1] [2] unwritten).2 = false ∧
      ∀ k', (Database.get (putFaulty ⟨32768, 0⟩ s [1] [2] unwritten).1 k').2 =
        (Database.get s k').2 := by
  have hrun : ∃ s ∈ first.foldlM (step ⟨32768, 0⟩) (openFresh ⟨32768, 0⟩ fun _ _ => 0),
      PutTame ⟨32768, 0⟩ s [1] [2] unwritten ∧ s.cache.isNone ∧ s.index[([1] : Key)]? = none := by
    decide +kernel
  have htame : PutTame ⟨32768, 0⟩ (openFresh ⟨32768, 0⟩ fun _ _ => 0) [7] [1]
      ⟨fun _ => true, 0⟩ := by
    decide +kernel
  obtain ⟨s, hs, ht, hc, hi⟩ := hrun
  refine ⟨s, hs, rfl, ?_⟩
  refine (failed_put_unseen_iff (by decide) (fun _ _ => 0) first s ?_ hs [1] [2] unwritten
    ht).mpr ?_
  · refine ⟨⟨htame, ?_⟩, fun _ _ => trivial⟩
    intro h
    cases h
  · exact Or.inr ⟨Option.isNone_iff_eq_none.mp hc, hi, rfl⟩

/-- The value of a `Put` that returned an error is answered from the data
cache. -/
theorem failed_put_seen : ∃ s t,
    [].foldlM (step ⟨32768, 16⟩) (openFresh ⟨32768, 16⟩ fun _ _ => 0) = some s ∧
      putFaulty ⟨32768, 16⟩ s [7] [1] unwritten = (t, false) ∧
      (Database.get s [7]).2 = .notFound ∧ (Database.get t [7]).2 = .ok [1] := by
  refine ⟨_, _, rfl, rfl, ?_, ?_⟩
  · decide +kernel
  · decide +kernel

end WiscKey.PutFailure
