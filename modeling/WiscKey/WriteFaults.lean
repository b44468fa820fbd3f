import WiscKey.ReadFaults

namespace WiscKey.WriteFaults

open WiscKey.Maps WiscKey.Runs WiscKey.ValueLog WiscKey.LogLayout WiscKey.LogRecords WiscKey.Bytes
  WiscKey.Hash WiscKey.Database WiscKey.Representation WiscKey.GarbageCollection WiscKey.Collect
  WiscKey.CollectCorrect WiscKey.DiskRead WiscKey.Faults WiscKey.ReadFaults

/-- A record points at the bytes of a value in the file, or in the part of the
buffer that a later flush writes. -/
def Placed (l : VLog) (r : Record) (w : Value) : Prop :=
  r.size = w.length ∧ (slice l.file r.offset w.length = w ∨
    l.lba ≤ r.offset ∧ r.offset + w.length ≤ l.lba + l.bufOffset ∧
      slice l.buf (r.offset - l.lba) w.length = w)

def Designates (s : State) (k : Key) (w : Value) : Prop :=
  ∃ r, s.index[k]? = some r ∧ Placed (s.log k) r w

/-- What an acknowledged `Put` promises: its value is there, and so are all the
others that were there before. -/
def TookEffect (s s' : State) (k : Key) (v : Value) : Prop :=
  Designates s' k v ∧ ∀ k' w, k' ≠ k → Designates s k' w → Designates s' k' w

def Reaches (lba count : Nat) (r : Record) : Prop := r.size = 0 ∨ r.offset + r.size ≤ lba + count

/-- If a `Put` writes the buffer out, what is written reaches as far as its own
value and all the others in the buffer. -/
def PutReaches (o : Options) (s : State) (k : Key) (v : Value) (count : Nat) : Prop :=
  flushThreshold o.logBufSize ≤ (s.log k).bufOffset + v.length →
    Reaches (s.log k).lba count ⟨(s.log k).lba + (s.log k).bufOffset, v.length⟩ ∧
      ∀ k' r, k' ≠ k → partition k' = partition k → s.index[k']? = some r →
        Reaches (s.log k).lba count r

def FlushReaches (s : State) (count : Fin 4 → Nat) : Prop :=
  ∀ k r, s.index[k]? = some r → Reaches (s.log k).lba (count (partition k)) r

/-- Every `pwrite` writes all it is asked to, values have at most a page, and
garbage collections have keys that an `int` can count. -/
def Complete (o : Options) (s : State) : Call → Prop
  | .put k v w => v.length ≤ pageSize ∧
      (flushThreshold o.logBufSize ≤ (s.log k).bufOffset + v.length →
        roundUp ((s.log k).bufOffset + v.length) pageSize ≤ w.pwrite)
  | .flush count | .reopen count _ => ∀ i, roundUp (s.logs i).bufOffset pageSize ≤ count i
  | .collect threads _ => 0 < threads ∧ FewKeys s
  | .delete _ _ | .get _ _ _ => True

instance (l : VLog) (r : Record) (w : Value) : Decidable (Placed l r w) :=
  inferInstanceAs (Decidable (_ ∧ _))

instance (o : Options) (s : State) : DecidablePred (Complete o s)
  | .put k v w => inferInstanceAs (Decidable (v.length ≤ pageSize ∧
      (flushThreshold o.logBufSize ≤ (s.log k).bufOffset + v.length →
        roundUp ((s.log k).bufOffset + v.length) pageSize ≤ w.pwrite)))
  | .flush count | .reopen count _ => inferInstanceAs
      (Decidable (∀ i, roundUp (s.logs i).bufOffset pageSize ≤ count i))
  | .collect threads _ => inferInstanceAs
      (Decidable (0 < threads ∧ ∀ p, ((snapshot s).keys p).length < 2 ^ 31))
  | .delete _ _ | .get _ _ _ => inferInstanceAs (Decidable True)

def mapStep (m : Store) : Call → Store
  | .put k v w => if (Attempts.write w.index).applied then Function.update m k (some v) else m
  | .delete k ok => if ok then Function.update m k none else m
  | .get _ _ _ | .flush _ | .reopen _ _ | .collect _ _ => m

def unindexed (o : Options) (s : State) (k : Key) (v : Value) : State :=
  (((s.fillCache k v).fillBuffer k v).appendLog o k v).1

variable {o : Options} {m : Store} {s s' : State} {k : Key} {v w : Value} {r : Record}
  {l : VLog} {size count : Nat}

theorem writeOutShort_full (hn : roundUp l.bufOffset pageSize ≤ count) :
    writeOutShort l count = l.writeOut := by
  have ht := List.length_take_le (roundUp l.bufOffset pageSize) l.buf
  rw [writeOutShort, List.take_of_length_le (ht.trans hn), VLog.writeOut]

theorem flushShort_full (hn : roundUp l.bufOffset pageSize ≤ count) :
    flushShort l count = l.flush := by
  rw [flushShort, VLog.flush, writeOutShort_full hn]

theorem copyIn_grows (h : Within size l) (v : Value) : Grows l (l.copyIn v) where
  contents := by
    rw [copyIn_contents h]
    exact List.prefix_append _ _
  lba := Or.inl rfl

theorem copyIn_stored (h : Within size l) (v : Value) :
    Stored (l.copyIn v) ⟨l.lba + l.bufOffset, v.length⟩ v where
  size_eq := rfl
  bytes := by
    rw [copyIn_contents h, ← length_contents h]
    simpa using slice_middle l.contents v []
  below := by rw [copyIn_contents h, List.length_append, length_contents h]
  whole := Or.inr (Nat.le_add_right _ _)

theorem buffer_slice (h : Within size l) {off n : Nat} (hl : l.lba ≤ off)
    (hn : off + n ≤ l.lba + l.bufOffset) :
    slice l.contents off n = slice l.buf (off - l.lba) n := by
  rw [VLog.contents, slice_append_right _ _ _ _ (h.lba_eq ▸ hl), ← h.lba_eq]
  conv_rhs => rw [← List.take_append_drop l.bufOffset l.buf]
  have ho := h.offset_le
  rw [slice_append_left]
  rw [List.length_take, h.buf_length]
  omega

theorem placed_iff (h : Within size l) (hst : Stored l r v) : Placed l r w ↔ w = v := by
  constructor
  · rintro ⟨hs, hf | ⟨hl, hn, hb⟩⟩
    · rw [hst.size_eq] at hs
      obtain hw | hw := hst.whole
      · have hv := hst.bytes
        rw [file_slice h (hst.size_eq ▸ hw), hs] at hv
        rw [← hf, hv]
      · have hlen := congrArg List.length hf
        rw [length_slice, ← h.lba_eq] at hlen
        have hw0 : w.length = 0 := by omega
        rw [List.length_eq_zero_iff.mp hw0, List.length_eq_zero_iff.mp (hs.trans hw0)]
    · have hv := hst.bytes
      rw [hst.size_eq] at hs
      rw [hs, buffer_slice h hl hn, hb] at hv
      exact hv
  · rintro rfl
    refine ⟨hst.size_eq, ?_⟩
    have hv := hst.bytes
    have hb := hst.below
    rw [length_contents h, hst.size_eq] at hb
    obtain hw | hw := hst.whole
    · rw [file_slice h (hst.size_eq ▸ hw)] at hv
      exact Or.inl hv
    · rw [buffer_slice h hw hb] at hv
      exact Or.inr ⟨hw, hb, hv⟩

theorem placed_writeOutShort_iff (h : Within size l) (hst : Stored l r v) :
    Placed (writeOutShort l count) r v ↔ Reaches l.lba count r := by
  have hfile : (writeOutShort l count).file =
      l.file ++ (l.buf.take (roundUp l.bufOffset pageSize)).take count := rfl
  have hsz := hst.size_eq
  constructor
  · rintro ⟨-, hf | ⟨hl, hn, -⟩⟩
    · have hlen := congrArg List.length hf
      rw [length_slice, hfile, List.length_append, List.length_take, ← h.lba_eq] at hlen
      rw [Reaches, hsz]
      omega
    · simp only [writeOutShort] at hl hn
      exact Or.inl (by omega)
  · rintro (h0 | hle)
    · refine ⟨hsz, Or.inl ?_⟩
      rw [hsz] at h0
      rw [List.length_eq_zero_iff.mp h0]
      simp [slice]
    · refine ⟨hsz, Or.inl ?_⟩
      have hb := hst.below
      have hround := le_roundUp l.bufOffset (m := pageSize) (by decide)
      have hsub : l.contents.take (l.lba + count) <+: (writeOutShort l count).file := by
        rw [hfile, VLog.contents, h.lba_eq, List.take_length_add_append,
          List.prefix_append_right_inj]
        exact (List.take_prefix_take_left hround).take count
      have hv : slice (l.contents.take (l.lba + count)) r.offset v.length = v := by
        have hc := hst.bytes
        rw [← List.take_append_drop (l.lba + count) l.contents, slice_append_left] at hc
        · exact hc
        · rw [List.length_take, ← hsz]
          omega
      exact slice_eq_of_prefix hsub hv

theorem placed_appendShort_iff {b : UInt64} (h : Within size (l.copyIn v))
    (hst : Stored (l.copyIn v) r w) : Placed (appendShort b l v count).1 r w ↔
      (flushThreshold b ≤ l.bufOffset + v.length → Reaches l.lba count r) := by
  simp only [appendShort]
  split
  · rename_i hf
    rw [placed_writeOutShort_iff h hst]
    exact ⟨fun hr _ => hr, fun hr => hr hf⟩
  · rename_i hf
    exact iff_of_true ((placed_iff h hst).mpr rfl) (fun hf' => absurd hf' hf)

theorem appendShort_full {b : UInt64}
    (hn : flushThreshold b ≤ l.bufOffset + v.length →
      roundUp (l.bufOffset + v.length) pageSize ≤ count) :
    appendShort b l v count = l.append b v := by
  simp only [appendShort, VLog.append]
  split
  · rename_i hf
    rw [writeOutShort_full (hn hf)]
  · rfl

theorem copyIn_layout (hb : PageBuffer o.logBufSize) (h : Represents o m s) (k : Key)
    (hv : v.length ≤ pageSize) : Within (bufSize o.logBufSize) ((s.log k).copyIn v) :=
  copyIn_within (h.layout_log k).toWithin (room_for_page (h.layout_log k) (pageSize_le hb) hv)

theorem putFaulty_complete {f : Writes}
    (hc : Complete o s (.put k v f)) : (putFaulty o s k v f).1 =
      if (Attempts.write f.index).applied then put o s k v else unindexed o s k v := by
  have ha := appendShort_full hc.2
  have hlog : ((s.fillCache k v).fillBuffer k v).log k = s.log k := rfl
  simp only [putFaulty, hlog, ha]
  rfl

theorem unindexed_represents (hb : PageBuffer o.logBufSize) (h : Represents o m s)
    (hv : v.length ≤ pageSize) : Represents o m (unindexed o s k v) :=
  (appendLog_represents hb (fillBuffer_represents (fillCache_represents h)) hv).1

theorem getFaulty_frame {out : Value} {f : Reads} {a : Answer}
    (hg : getFaulty s k out f = some (s', a)) : s'.index = s.index ∧ s'.logs = s.logs := by
  obtain ⟨hi, hl, -⟩ := readCache_frame s k
  cases getFaulty_got hg with
  | cached v hc => exact ⟨hi, hl⟩
  | unindexed hc hx => exact ⟨hi, hl⟩
  | buffered r v hc hx hb => exact ⟨hi, hl⟩
  | disk r hc hx hb hd =>
    obtain rfl | ⟨w, rfl⟩ := getFromDisk_state hd
    · exact ⟨hi, hl⟩
    · exact ⟨hi, hl⟩

theorem flushFaulty_complete {count : Fin 4 → Nat}
    (hc : Complete o s (.flush count)) : flushFaulty s count = flushVLog s := by
  rw [flushFaulty, flushVLog]
  congr 1
  funext i
  exact flushShort_full (hc i)

theorem reopenFaulty_complete {count : Fin 4 → Nat}
    {mem : Fin 4 → Nat → UInt8} (hc : Complete o s (.reopen count mem)) :
    reopenFaulty o s count mem = reopen o s mem := by
  rw [reopenFaulty, reopen]
  congr 1
  funext i
  rw [flushShort_full (hc i)]
  rfl

theorem step_represents {call : Call} (hb : PageBuffer o.logBufSize) (h : Represents o m s)
    (hc : Complete o s call) (hs : step o s call = some s') :
    Represents o (mapStep m call) s' := by
  cases call with
  | put k v f =>
    cases hs
    rw [putFaulty_complete hc, mapStep]
    split
    · exact Sequential.put_represents hb h hc.1
    · exact unindexed_represents hb h hc.1
  | delete k ok =>
    cases hs
    rw [deleteFaulty, mapStep]
    split
    · exact Sequential.delete_represents h
    · exact eraseBufferEntry_represents (eraseCacheEntry_represents h)
  | get k out f =>
    obtain ⟨⟨t, a⟩, hg, rfl⟩ := Option.map_eq_some_iff.mp hs
    obtain ⟨hi, hl⟩ := getFaulty_frame hg
    have hcalm : Calm t := Calm.getFaulty ⟨h.buffer_quiet, h.cache_quiet⟩ hg
    refine ⟨?_, hcalm.buffer, hcalm.cache, ?_, h.small⟩
    · rw [hl]
      exact h.layout
    · intro k'
      rw [hi, State.log, hl]
      exact h.records k'
  | flush count =>
    cases hs
    rw [flushFaulty_complete hc]
    exact Sequential.flushVLog_represents hb h
  | reopen count mem =>
    cases hs
    rw [reopenFaulty_complete hc]
    exact reopen_represents hb h mem
  | collect threads events =>
    obtain ⟨g, hg, hp, rfl⟩ := vLogGarbageCollect_eq_some hs
    exact gcFinish_represents h hb hc.2 hc.1 hg hp

theorem run_represents (hb : PageBuffer o.logBufSize) (mem : Fin 4 → Nat → UInt8)
    {calls : List Call} (hc : AlongM (step o) (Complete o) (openFresh o mem) calls)
    (hrun : calls.foldlM (step o) (openFresh o mem) = some s) :
    Represents o (calls.foldl mapStep fun _ => none) s :=
  hc.simulates mapStep (fun s m => Represents o m s) (openFresh_represents o mem)
    (fun _ _ _ _ h hc hs => step_represents hb h hc hs) hrun

theorem designates_iff (h : Represents o m s) (k : Key) (w : Value) :
    Designates s k w ↔ m k = some w := by
  constructor
  · rintro ⟨r, hr, hp⟩
    obtain ⟨v, hv, hst⟩ := h.stored hr
    rw [hv, (placed_iff (h.layout_log k).toWithin hst).mp hp]
  · intro hm
    cases hr : s.index[k]? with
    | none =>
      rw [h.dead hr] at hm
      cases hm
    | some r =>
      obtain ⟨v, hv, hst⟩ := h.stored hr
      rw [hm] at hv
      cases hv
      exact ⟨r, hr, (placed_iff (h.layout_log k).toWithin hst).mpr rfl⟩

theorem putFaulty_record {f : Writes} (hack : (putFaulty o s k v f).2 = true) (k' : Key) :
    (putFaulty o s k v f).1.index[k']? =
      if k = k' then some ⟨(s.log k).lba + (s.log k).bufOffset, v.length⟩ else s.index[k']? := by
  have happ := Attempts.write_applied hack
  simp only [putFaulty, happ, if_true]
  exact getElem?_insert _ _ _ _

theorem putFaulty_log {f : Writes} (k' : Key) : (putFaulty o s k v f).1.log k' =
    if partition k' = partition k then (appendShort o.logBufSize (s.log k) v f.pwrite).1
    else s.log k' := by
  have hl : (putFaulty o s k v f).1.logs = Function.update s.logs (partition k)
      (appendShort o.logBufSize (s.log k) v f.pwrite).1 := by
    simp only [putFaulty]
    split
    · rfl
    · rfl
  rw [State.log, hl, Function.update_apply]
  rfl

theorem designates_other_iff {f : Writes} (hb : PageBuffer o.logBufSize) (h : Represents o m s)
    (hv : v.length ≤ pageSize) (hack : (putFaulty o s k v f).2 = true) {k' : Key} (hk : k' ≠ k)
    (hr : s.index[k']? = some r) (hst : Stored (s.log k') r w) :
    Designates (putFaulty o s k v f).1 k' w ↔
      (partition k' = partition k → flushThreshold o.logBufSize ≤ (s.log k).bufOffset + v.length →
        Reaches (s.log k).lba f.pwrite r) := by
  have hd : Designates (putFaulty o s k v f).1 k' w ↔
      Placed ((putFaulty o s k v f).1.log k') r w := by
    simp only [Designates, putFaulty_record hack, if_neg hk.symm, hr, Option.some.injEq,
      exists_eq_left']
  rw [hd, putFaulty_log]
  split
  · rename_i hp
    have hl : s.log k' = s.log k := congrArg s.logs hp
    rw [hl] at hst
    rw [placed_appendShort_iff (copyIn_layout hb h k hv)
      (hst.grow (copyIn_grows (h.layout_log k).toWithin v))]
    exact ⟨fun hr _ => hr, fun hr => hr hp⟩
  · rename_i hp
    exact iff_of_true ((placed_iff (h.layout_log k').toWithin hst).mpr rfl)
      (fun hp' => absurd hp' hp)

theorem designates_self_iff {f : Writes} (hb : PageBuffer o.logBufSize) (h : Represents o m s)
    (hv : v.length ≤ pageSize) (hack : (putFaulty o s k v f).2 = true) :
    Designates (putFaulty o s k v f).1 k v ↔
      (flushThreshold o.logBufSize ≤ (s.log k).bufOffset + v.length →
        Reaches (s.log k).lba f.pwrite ⟨(s.log k).lba + (s.log k).bufOffset, v.length⟩) := by
  simp only [Designates, putFaulty_record hack, if_true, Option.some.injEq, exists_eq_left',
    putFaulty_log]
  exact placed_appendShort_iff (copyIn_layout hb h k hv)
    (copyIn_stored (h.layout_log k).toWithin v)

theorem put_tookEffect_iff {f : Writes} (hb : PageBuffer o.logBufSize) (h : Represents o m s)
    (hv : v.length ≤ pageSize) (hack : (putFaulty o s k v f).2 = true) :
    TookEffect s (putFaulty o s k v f).1 k v ↔ PutReaches o s k v f.pwrite := by
  rw [TookEffect, designates_self_iff hb h hv hack]
  constructor
  · rintro ⟨hself, hother⟩ hf
    refine ⟨hself hf, ?_⟩
    intro k' r hk hp hr
    obtain ⟨w, hw, hst⟩ := h.stored hr
    have hd := hother k' w hk ((designates_iff h k' w).mpr hw)
    exact (designates_other_iff hb h hv hack hk hr hst).mp hd hp hf
  · intro hreach
    refine ⟨fun hf => (hreach hf).1, ?_⟩
    intro k' w hk hd
    have hw := (designates_iff h k' w).mp hd
    obtain ⟨r, hr, -⟩ := hd
    obtain ⟨w', hw', hst⟩ := h.stored hr
    rw [hw] at hw'
    cases hw'
    rw [designates_other_iff hb h hv hack hk hr hst]
    intro hp hf
    exact (hreach hf).2 k' r hk hp hr

theorem placed_flushShort_iff (h : Within size l) (hst : Stored l r v) :
    Placed (flushShort l count) r v ↔ Reaches l.lba count r := by
  rw [flushShort]
  split
  · rename_i h0
    have hb := hst.below
    rw [length_contents h, h0, Nat.add_zero] at hb
    exact iff_of_true ((placed_iff h hst).mpr rfl) (Or.inr (hb.trans (Nat.le_add_right _ _)))
  · exact placed_writeOutShort_iff h hst

theorem flush_keeps_iff (h : Represents o m s) (count : Fin 4 → Nat) :
    (∀ k w, Designates s k w → Designates (flushFaulty s count) k w) ↔ FlushReaches s count := by
  have hd (k : Key) (r : Record) (w : Value) (hr : s.index[k]? = some r)
      (hst : Stored (s.log k) r w) : Designates (flushFaulty s count) k w ↔
        Reaches (s.log k).lba (count (partition k)) r := by
    have hi : (flushFaulty s count).index[k]? = some r := hr
    simp only [Designates, hi, Option.some.injEq, exists_eq_left']
    exact placed_flushShort_iff (h.layout_log k).toWithin hst
  constructor
  · intro hk k r hr
    obtain ⟨w, hw, hst⟩ := h.stored hr
    exact (hd k r w hr hst).mp (hk k w ((designates_iff h k w).mpr hw))
  · intro hreach k w hk
    have hw := (designates_iff h k w).mp hk
    obtain ⟨r, hr, -⟩ := hk
    obtain ⟨w', hw', hst⟩ := h.stored hr
    rw [hw] at hw'
    cases hw'
    exact (hd k r w hr hst).mpr (hreach k r hr)

theorem deleteFaulty_record (s : State) (k : Key) (ok : Bool) :
    (deleteFaulty s k ok).index[k]? = none ↔ ok = true ∨ s.index[k]? = none := by
  rw [deleteFaulty]
  split
  · rename_i hok
    refine iff_of_true ?_ (Or.inl hok)
    exact Std.ExtTreeMap.getElem?_erase_self
  · rename_i hok
    exact ⟨Or.inr, fun h => h.resolve_left hok⟩

/-- In a run of complete writes, an acknowledged `Put` took effect just when what
was written out reaches as far as the values in the buffer, and so for a flush.
An acknowledged `Delete` took effect when the entry was deleted or not there. -/
theorem took_effect_iff (hb : PageBuffer o.logBufSize) (mem : Fin 4 → Nat → UInt8)
    (calls : List Call) (s : State) (hc : AlongM (step o) (Complete o) (openFresh o mem) calls)
    (hrun : calls.foldlM (step o) (openFresh o mem) = some s) :
    (∀ k v f, v.length ≤ pageSize → (putFaulty o s k v f).2 = true →
      (TookEffect s (putFaulty o s k v f).1 k v ↔ PutReaches o s k v f.pwrite)) ∧
    (∀ count, (∀ k w, Designates s k w → Designates (flushFaulty s count) k w) ↔
      FlushReaches s count) ∧
    ∀ k ok, (deleteFaulty s k ok).index[k]? = none ↔ ok = true ∨ s.index[k]? = none := by
  have h := run_represents hb mem hc hrun
  refine ⟨?_, flush_keeps_iff h, deleteFaulty_record s⟩
  intro k v f hv hack
  exact put_tookEffect_iff hb h hv hack

def page : Value := List.replicate 4096 2

theorem length_page : page.length = 4096 := List.length_replicate

def first : List Call := [.put [7] [1] ⟨fun _ => true, 0⟩]

theorem took_effect_page : ∃ s,
    first.foldlM (step ⟨32768, 0⟩) (openFresh ⟨32768, 0⟩ fun _ _ => 0) = some s ∧
      TookEffect s (putFaulty ⟨32768, 0⟩ s [1] page ⟨fun _ => true, 4097⟩).1 [1] page := by
  have hrun : ∃ s ∈ first.foldlM (step ⟨32768, 0⟩) (openFresh ⟨32768, 0⟩ fun _ _ => 0),
      s.index.toList = [([7], ⟨0, 1⟩)] ∧ (s.log [1]).lba = 0 ∧ (s.log [1]).bufOffset = 1 := by
    decide +kernel
  obtain ⟨s, hs, hi, hl, ho⟩ := hrun
  refine ⟨s, hs, ?_⟩
  refine ((took_effect_iff (by decide) (fun _ _ => 0) _ s (by decide +kernel) hs).1 [1]
    page ⟨fun _ => true, 4097⟩ length_page.le rfl).mpr ?_
  intro _
  rw [hl, ho, length_page]
  refine ⟨Or.inr (by decide), ?_⟩
  intro k' r _ _ hr
  have hm := Std.ExtTreeMap.mem_toList_iff_getElem?_eq_some.mpr hr
  rw [hi, List.mem_singleton] at hm
  cases hm
  exact Or.inr (by decide)

/-- The `pwrite` of the second `Put` fails: both values are gone, and both calls
had returned OK. -/
theorem failed_write_acknowledged : ∃ s t,
    first.foldlM (step ⟨32768, 0⟩) (openFresh ⟨32768, 0⟩ fun _ _ => 0) = some s ∧
      Designates s [7] [1] ∧ putFaulty ⟨32768, 0⟩ s [1] page ⟨fun _ => true, 0⟩ = (t, true) ∧
      ¬ Designates t [1] page ∧ ¬ Designates t [7] [1] := by
  have hrun : ∃ s ∈ first.foldlM (step ⟨32768, 0⟩) (openFresh ⟨32768, 0⟩ fun _ _ => 0),
      (s.index[([7] : Key)]? = some ⟨0, 1⟩ ∧ Placed (s.log [7]) ⟨0, 1⟩ [1]) ∧
      ∃ t ∈ step ⟨32768, 0⟩ s (.put [1] page ⟨fun _ => true, 0⟩),
        (t.index[([1] : Key)]? = some ⟨1, 4096⟩ ∧ ¬ Placed (t.log [1]) ⟨1, 4096⟩ page) ∧
        t.index[([7] : Key)]? = some ⟨0, 1⟩ ∧ ¬ Placed (t.log [7]) ⟨0, 1⟩ [1] := by
    decide +kernel
  obtain ⟨s, hs, hd, t, ht, ⟨hi, hn⟩, hi', hn'⟩ := hrun
  refine ⟨s, t, hs, ⟨_, hd⟩, Prod.ext (Option.some.inj ht) rfl, ?_, ?_⟩
  · rintro ⟨r, hr, hp⟩
    rw [hi] at hr
    cases hr
    exact hn hp
  · rintro ⟨r, hr, hp⟩
    rw [hi'] at hr
    cases hr
    exact hn' hp

end WiscKey.WriteFaults
