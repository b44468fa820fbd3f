import WiscKey.CrashRecovery
import WiscKey.GarbageCollection
import WiscKey.Resurrection

namespace WiscKey.Restart

open WiscKey.Maps WiscKey.Runs WiscKey.Bytes WiscKey.ValueLog WiscKey.LogLayout WiscKey.LogRecords
  WiscKey.Hash WiscKey.CacheQuiet WiscKey.Database WiscKey.Representation WiscKey.Collect
  WiscKey.CollectCorrect WiscKey.GarbageCollection WiscKey.Concurrent WiscKey.ConcurrentShared
  WiscKey.ConcurrentSteps WiscKey.Resurrection
open WiscKey.CrashRecovery (crash reopenCrashed openLog_stored)

/-- What is sure of a key: it has no record, its value is at least in the log
buffer, its value is in the log file, or it was not there yet when the database
crashed. -/
inductive Fate where
  | absent
  | buffered (v : Value)
  | durable (v : Value)
  | lost
deriving DecidableEq

def Fate.sync : Fate → Fate
  | .absent => .absent
  | .buffered v | .durable v => .durable v
  | .lost => .lost

def Fate.crash : Fate → Fate
  | .absent => .absent
  | .durable v => .durable v
  | .buffered _ | .lost => .lost

/-- A move of the clients, a crash, or a clean reopen or a garbage collection
between the calls of the clients. -/
inductive Step where
  | move (m : Move)
  | crash (mem : Fin 4 → Nat → UInt8)
  | reopen (mem : Fin 4 → Nat → UInt8)
  | collect (threads : Nat) (events : List Collect.Event)

def Step.Small : Step → Prop
  | .move m => m.Small
  | .crash _ | .reopen _ | .collect _ _ => True

def AllIdle (c : Config) : Prop := ∀ pc ∈ c.clients, pc = .idle

instance (c : Config) : Decidable (AllIdle c) := List.decidableBAll _ _

def step (o : Options) (c : Config) : Step → Option Config
  | .move m => move o c m
  | .crash mem => some (CrashRecovery.crash o c mem)
  | .reopen mem =>
    if AllIdle c then some { c with state := Database.reopen o c.state mem } else none
  | .collect threads events =>
    if AllIdle c then
      (vLogGarbageCollect o threads c.state events).map fun s => { c with state := s }
    else none

/-- What the step of a client does to the keys: a write of the index decides the
fate of its key, and a flush those of its partition. -/
def settle (f : Key → Fate) : Pc → Key → Fate
  | .putIndex k v _ => Function.update f k (.buffered v)
  | .deleteIndex k => Function.update f k .absent
  | .flush (p :: _) => fun k => if partition k = p then (f k).sync else f k
  | _ => f

def note (c : Config) (f : Key → Fate) : Step → Key → Fate
  | .move (.call _ _) => f
  | .move (.go j) => (c.clients[j]?).elim f (settle f)
  | .crash _ => fun k => (f k).crash
  | .reopen _ | .collect _ _ => fun k => (f k).sync

structure Tracked where
  config : Config
  fates : Key → Fate

def track (o : Options) (t : Tracked) (e : Step) : Option Tracked :=
  (step o t.config e).map fun c => ⟨c, note t.config t.fates e⟩

def start (o : Options) (mem : Fin 4 → Nat → UInt8) (n : Nat) : Tracked :=
  ⟨openClients o mem n, fun _ => .absent⟩

def Intact (s : State) : Prop :=
  ∀ e ∈ s.index.toList, e.2.offset + e.2.size ≤ (s.log e.1).contents.length

instance (s : State) : Decidable (Intact s) := List.decidableBAll _ _

/-- A garbage collection finds few keys, and none that points nowhere. -/
def Collectable (t : Tracked) : Step → Prop
  | .collect threads _ => 0 < threads ∧ FewKeys t.config.state ∧ Intact t.config.state
  | .move _ | .crash _ | .reopen _ => True

instance (t : Tracked) : DecidablePred (Collectable t)
  | .collect _ _ => inferInstanceAs (Decidable (_ ∧ (∀ _ : Fin 4, _) ∧ Intact _))
  | .move _ | .crash _ | .reopen _ => inferInstanceAs (Decidable True)

def Keeps (s : State) (k : Key) : Fate → Prop
  | .absent => s.index[k]? = none
  | .buffered v => ∃ r, s.index[k]? = some r ∧ Stored (s.log k) r v
  | .durable v => ∃ r, s.index[k]? = some r ∧ Stored (s.log k) r v ∧
      r.offset + r.size ≤ (s.log k).file.length
  | .lost => True

def Writing (s : State) : Pc → Prop
  | .putInsert _ _ v | .putRelease _ _ v _ | .putLog _ v => v.length ≤ pageSize
  | .putIndex k v lba => v.length ≤ pageSize ∧ Stored (s.log k) ⟨lba, v.length⟩ v
  | _ => True

structure Sound (o : Options) (t : Tracked) : Prop where
  layout : ∀ i, Layout (bufSize o.logBufSize) (t.config.state.logs i)
  small : ∀ (k : Key) (r : Record), t.config.state.index[k]? = some r → r.size ≤ pageSize
  writing : ∀ pc ∈ t.config.clients, Writing t.config.state pc
  keeps : ∀ k, Keeps t.config.state k (t.fates k)

/-- What the step of a client does to the index and the logs. -/
inductive Wrote (o : Options) (s : State) : Pc → State → Pc → Prop
  | nothing {pc s' pc'} : s'.index = s.index → s'.logs = s.logs → (∀ f, settle f pc = f) →
      (Writing s pc → Writing s' pc') → Wrote o s pc s' pc'
  | appended {k v} : Wrote o s (.putLog k v) (s.appendLog o k v).1
      (.putIndex k v (s.appendLog o k v).2)
  | indexed {k v lba} : Wrote o s (.putIndex k v lba) (s.putIndex k ⟨lba, v.length⟩) .idle
  | deleted {k} : Wrote o s (.deleteIndex k) (s.deleteIndex k) .idle
  | flushed {p ps} : Wrote o s (.flush (p :: ps))
      { s with logs := Function.update s.logs p (s.logs p).flush } (.flush ps)

variable {o : Options} {s s' : State} {k : Key} {f : Fate} {size : Nat} {pc pc' : Pc}
  {c c' : Config} {t t' : Tracked} {mem : Fin 4 → Nat → UInt8}

theorem keeps_grow (h : Keeps s k f) (hl : Within size (s.log k)) (hl' : Within size (s'.log k))
    (hi : s'.index[k]? = s.index[k]?) (hg : Grows (s.log k) (s'.log k)) : Keeps s' k f := by
  cases f with
  | absent => exact hi.trans h
  | lost => trivial
  | buffered v =>
    obtain ⟨r, hr, hst⟩ := h
    exact ⟨r, hi.trans hr, hst.grow hg⟩
  | durable v =>
    obtain ⟨r, hr, hst, hle⟩ := h
    refine ⟨r, hi.trans hr, hst.grow hg, ?_⟩
    rw [← hl.lba_eq] at hle
    rw [← hl'.lba_eq]
    exact hle.trans (hg.lba_le hl)

theorem keeps_sync (h : Keeps s k f) (hl : Within size (s'.log k))
    (hi : s'.index[k]? = s.index[k]?) (hg : Grows (s.log k) (s'.log k))
    (hc : (s.log k).contents.length ≤ (s'.log k).lba) : Keeps s' k f.sync := by
  rw [hl.lba_eq] at hc
  cases f with
  | absent => exact hi.trans h
  | lost => trivial
  | buffered v =>
    obtain ⟨r, hr, hst⟩ := h
    exact ⟨r, hi.trans hr, hst.grow hg, hst.below.trans hc⟩
  | durable v =>
    obtain ⟨r, hr, hst, -⟩ := h
    exact ⟨r, hi.trans hr, hst.grow hg, hst.below.trans hc⟩

theorem keeps_crash (h : Keeps s k f) (hl : Within size (s.log k)) :
    Keeps (reopenCrashed o s mem) k f.crash := by
  cases f with
  | absent => exact h
  | lost => trivial
  | buffered v => trivial
  | durable v =>
    obtain ⟨r, hr, hst, hle⟩ := h
    exact ⟨r, hr, openLog_stored hl hst hle _ _, hle⟩

theorem logs_insertAt {l : Loc} {v : Value} : (insertAt s l k v).1.logs = s.logs := by
  rw [insertAt]
  split
  · rfl
  · exact setCacheAt_logs

theorem logs_lookupAt {l : Loc} : (lookupAt s l k).1.logs = s.logs := by
  rw [lookupAt]
  split
  · rfl
  · exact setCacheAt_logs

theorem logs_releaseAt {l : Loc} {h : Option ShardedCache.Ref} :
    (releaseAt s l h).logs = s.logs := by
  simp only [releaseAt]
  split
  · exact setCacheAt_logs
  · rfl

theorem logs_eraseAt {l : Loc} : (eraseAt s l k).logs = s.logs := by
  rw [eraseAt]
  split
  · rfl
  · exact setCacheAt_logs

theorem wrote_of_stepped {es : List Concurrent.Event} (h : Stepped o s pc s' pc' es) :
    Wrote o s pc s' pc' := by
  cases h with
  | putInsert => exact .nothing index_insertAt logs_insertAt (fun _ => rfl) id
  | putReleaseData | putReleaseBuffer =>
    exact .nothing index_releaseAt logs_releaseAt (fun _ => rfl) id
  | putLog => exact .appended
  | putIndex => exact .indexed
  | deleteIndex => exact .deleted
  | flush => exact .flushed
  | insert => exact .nothing index_insertAt logs_insertAt (fun _ => rfl) fun _ => trivial
  | release | insertRelease =>
    exact .nothing index_releaseAt logs_releaseAt (fun _ => rfl) fun _ => trivial
  | eraseData | eraseBuffer =>
    exact .nothing index_eraseAt logs_eraseAt (fun _ => rfl) fun _ => trivial
  | cacheHit | cacheMiss | bufferHit | bufferMiss =>
    exact .nothing index_lookupAt logs_lookupAt (fun _ => rfl) fun _ => trivial
  | indexHit | indexMiss | value | giveUp | logHit | retry | flushed =>
    exact .nothing rfl rfl (fun _ => rfl) fun _ => trivial

theorem Writing.grow (h : Writing s pc) (hg : ∀ i, Grows (s.logs i) (s'.logs i)) :
    Writing s' pc := by
  cases pc with
  | putIndex k v lba => exact ⟨h.1, h.2.grow (hg _)⟩
  | putInsert l k v | putRelease l k v q | putLog k v => exact h
  | idle | deleteErase l k | deleteIndex k | getCache k | getIndex k | getBuffer k r
  | getValue l k q | getRelease l k q v | getLog k r n | getInsert k v | getInsertRelease k v q
  | flush ps => trivial

theorem update_grows {logs : Fin 4 → VLog} (hl : ∀ i, Layout size (logs i)) {p : Fin 4}
    {log : VLog} (h : Layout size log) (hg : Grows (logs p) log) :
    (∀ i, Layout size (Function.update logs p log i)) ∧
      ∀ i, Grows (logs i) (Function.update logs p log i) := by
  constructor
  · intro i
    by_cases hi : i = p
    · subst i
      rwa [Function.update_self]
    · rw [Function.update_of_ne hi]
      exact hl i
  · intro i
    by_cases hi : i = p
    · subst i
      rwa [Function.update_self]
    · rw [Function.update_of_ne hi]
      exact Grows.refl _

theorem wrote_grows (hb : PageBuffer o.logBufSize)
    (hl : ∀ i, Layout (bufSize o.logBufSize) (s.logs i)) (hw : Writing s pc)
    (h : Wrote o s pc s' pc') :
    (∀ i, Layout (bufSize o.logBufSize) (s'.logs i)) ∧ ∀ i, Grows (s.logs i) (s'.logs i) := by
  cases h with
  | nothing hi hlogs hs hp =>
    rw [hlogs]
    exact ⟨hl, fun i => Grows.refl _⟩
  | @appended k v =>
    exact update_grows hl (append_layout hb (hl _) hw) (append_grows hb (hl _) hw)
  | indexed | deleted => exact ⟨hl, fun i => Grows.refl _⟩
  | @flushed p ps =>
    exact update_grows hl (flush_layout hb.2 (hl p)) (flush_grows (hl p).toWithin)

theorem wrote_writing (hb : PageBuffer o.logBufSize)
    (hl : ∀ i, Layout (bufSize o.logBufSize) (s.logs i)) (hw : Writing s pc)
    (h : Wrote o s pc s' pc') : Writing s' pc' := by
  cases h with
  | nothing hi hlogs hs hp => exact hp hw
  | @appended k v =>
    refine ⟨hw, ?_⟩
    simpa only [State.appendLog, State.log, State.setLog, Function.update_self] using
      append_stored hb (hl (partition k)) hw
  | indexed | deleted | flushed => trivial

theorem wrote_small (hr : ∀ (k : Key) (r : Record), s.index[k]? = some r → r.size ≤ pageSize)
    (hw : Writing s pc) (h : Wrote o s pc s' pc') (k : Key) (r : Record)
    (hk : s'.index[k]? = some r) : r.size ≤ pageSize := by
  cases h with
  | nothing hi hlogs hs hp =>
    rw [hi] at hk
    exact hr k r hk
  | appended | flushed => exact hr k r hk
  | indexed =>
    rw [State.putIndex, getElem?_insert] at hk
    split at hk
    · cases hk
      exact hw.1
    · exact hr k r hk
  | deleted =>
    rw [State.deleteIndex, getElem?_erase] at hk
    split at hk
    · cases hk
    · exact hr k r hk

theorem settle_flush {p : Fin 4} {ps : List (Fin 4)} (f : Key → Fate) :
    settle f (.flush (p :: ps)) k = if partition k = p then (f k).sync else f k := rfl

theorem wrote_keeps (hb : PageBuffer o.logBufSize)
    (hl : ∀ i, Layout (bufSize o.logBufSize) (s.logs i)) (hw : Writing s pc)
    (h : Wrote o s pc s' pc') {f : Key → Fate} (hk : ∀ k, Keeps s k (f k)) (k : Key) :
    Keeps s' k (settle f pc k) := by
  obtain ⟨hl', hg⟩ := wrote_grows hb hl hw h
  have hsame : s'.index[k]? = s.index[k]? → Keeps s' k (f k) := fun hi =>
    keeps_grow (hk k) (hl _).toWithin (hl' _).toWithin hi (hg _)
  cases h with
  | nothing hi hlogs hs hp =>
    rw [hs]
    exact hsame (by rw [hi])
  | appended => exact hsame rfl
  | @indexed k' v lba =>
    by_cases he : k = k'
    · subst k'
      rw [settle, Function.update_self]
      refine ⟨_, ?_, hw.2⟩
      rw [State.putIndex, getElem?_insert, if_pos rfl]
    · rw [settle, Function.update_of_ne he]
      refine hsame ?_
      rw [State.putIndex, getElem?_insert, if_neg (Ne.symm he)]
  | @deleted k' =>
    by_cases he : k = k'
    · subst k'
      rw [settle, Function.update_self]
      exact (getElem?_erase _ _ _).trans (if_pos rfl)
    · rw [settle, Function.update_of_ne he]
      refine hsame ?_
      rw [State.deleteIndex, getElem?_erase, if_neg (Ne.symm he)]
  | @flushed p ps =>
    by_cases he : partition k = p
    · subst p
      rw [settle_flush, if_pos rfl]
      refine keeps_sync (hk k) (hl' _).toWithin rfl (hg _) ?_
      simp only [State.log, Function.update_self]
      exact flush_lba (hl _).toWithin
    · rw [settle_flush, if_neg he]
      exact hsame rfl

theorem go_sound (hb : PageBuffer o.logBufSize) (h : Sound o t) {j : Nat}
    {es : List Concurrent.Event} (hj : t.config.clients[j]? = some pc)
    (hs : Stepped o t.config.state pc s' pc' es) :
    Sound o ⟨⟨s', t.config.clients.set j pc', t.config.events ++ es⟩, settle t.fates pc⟩ := by
  have hw := h.writing pc (List.mem_of_getElem? hj)
  have hwrote := wrote_of_stepped hs
  obtain ⟨hl, hg⟩ := wrote_grows hb h.layout hw hwrote
  refine ⟨hl, wrote_small h.small hw hwrote, ?_, wrote_keeps hb h.layout hw hwrote h.keeps⟩
  intro a ha
  obtain ha | rfl := List.mem_or_eq_of_mem_set ha
  · exact (h.writing a ha).grow hg
  · exact wrote_writing hb h.layout hw hwrote

theorem call_sound (h : Sound o t) {j : Nat} {op : Sequential.Op} (hop : op.Small)
    {ev : List Concurrent.Event} :
    Sound o ⟨⟨t.config.state, t.config.clients.set j (begin op).1, ev⟩, t.fates⟩ := by
  refine ⟨h.layout, h.small, ?_, h.keeps⟩
  intro a ha
  obtain ha | rfl := List.mem_or_eq_of_mem_set ha
  · exact h.writing a ha
  · cases op with
    | put k v => exact hop
    | delete k | get k | flush => trivial

theorem idle_writing {clients : List Pc} (h : ∀ pc ∈ clients, pc = .idle) (s : State) :
    ∀ pc ∈ clients, Writing s pc := by
  intro pc hpc
  rw [h pc hpc]
  trivial

theorem crash_sound (h : Sound o t) :
    Sound o ⟨CrashRecovery.crash o t.config mem, fun k => (t.fates k).crash⟩ where
  layout i := by
    have hl := h.layout i
    exact openLog_layout _ _ (mem i) (hl.lba_eq ▸ hl.lba_dvd)
  small := h.small
  writing := idle_writing (fun pc hpc => by
    obtain ⟨a, -, rfl⟩ := List.mem_map.mp hpc
    rfl) _
  keeps k := keeps_crash (h.keeps k) (h.layout _).toWithin

theorem reopen_sound (hb : PageBuffer o.logBufSize) (h : Sound o t) (hi : AllIdle t.config) :
    Sound o ⟨{ t.config with state := Database.reopen o t.config.state mem },
      fun k => (t.fates k).sync⟩ where
  layout i := reopen_layout hb (h.layout i) (mem i)
  small := h.small
  writing := idle_writing hi _
  keeps k := by
    have hl := h.layout (partition k)
    refine keeps_sync (h.keeps k) (reopen_layout hb hl (mem _)).toWithin rfl
      (reopen_grows hl hb.2 _ _) ?_
    have hlba := (flush_layout hb.2 hl).lba_eq
    change _ ≤ ((t.config.state.logs (partition k)).reopen o.logBufSize (mem _)).lba
    rw [VLog.reopen, VLog.openLog, ← hlba]
    exact flush_lba hl.toWithin

theorem flush_flush (l : VLog) : l.flush.flush = l.flush := by
  rw [VLog.flush, if_pos (flush_offset l)]

/-- What a garbage collection goes by: the index and the flushed logs. -/
def flushedState (o : Options) (s : State) : State where
  index := s.index
  logs := fun i => (s.logs i).flush
  buffers := fun _ => newBuffer o
  cache := newDataCache o

theorem gcRun_flushedState (threads : Nat) (events : List Collect.Event) :
    gcRun o threads (flushedState o s) events = gcRun o threads s events := by
  simp only [gcRun, gcStart, snapshot, newSession, flushedState, flush_flush]

theorem Intact.le (h : Intact s) {r : Record} (hr : s.index[k]? = some r) :
    r.offset + r.size ≤ (s.log k).contents.length :=
  h (k, r) (Std.ExtTreeMap.mem_toList_iff_getElem?_eq_some.mpr hr)

theorem flushedState_represents (hb : PageBuffer o.logBufSize)
    (hl : ∀ i, Layout (bufSize o.logBufSize) (s.logs i))
    (hs : ∀ (k : Key) (r : Record), s.index[k]? = some r → r.size ≤ pageSize) (hin : Intact s) :
    Represents o (resolved s) (flushedState o s) where
  layout i := flush_layout hb.2 (hl i)
  buffer_quiet _ := new_quietCache _ _ _
  cache_quiet := newDataCache_quiet
  records k := by
    rw [resolved]
    cases hi : s.index[k]? with
    | none =>
      rw [show (flushedState o s).index[k]? = none from hi]
      exact Option.Rel.none
    | some r =>
      rw [show (flushedState o s).index[k]? = some r from hi]
      have hle := hin.le hi
      have hlog := (hl (partition k)).toWithin
      have hlen : (slice (s.log k).contents r.offset r.size).length = r.size := by
        rw [length_slice]
        omega
      refine Option.Rel.some ⟨hlen.symm, ?_, ?_, Or.inl (hle.trans (flush_lba hlog))⟩
      · refine slice_eq_of_prefix (flush_contents (s.log k)) ?_
        rw [hlen]
      · exact hle.trans (flush_contents (s.log k)).length_le
  small k v hv := by
    obtain ⟨r, hr, rfl⟩ := Option.map_eq_some_iff.mp hv
    rw [length_slice]
    exact (Nat.min_le_left _ _).trans (hs k r hr)

theorem keeps_collect (h : Keeps s k f) (hr : Represents o (resolved s) s')
    (hf : ∀ i, (s'.logs i).bufOffset = 0) : Keeps s' k f.sync := by
  have hrel := hr.records k
  have hlive : ∀ (r : Record) (v : Value), s.index[k]? = some r → Stored (s.log k) r v →
      Keeps s' k (.durable v) := by
    intro r v hi hst
    have hv : resolved s k = some v := by
      rw [resolved, hi, Option.map_some, hst.size_eq, hst.bytes]
    rw [hv] at hrel
    obtain ⟨r', hr', hst'⟩ : ∃ r', s'.index[k]? = some r' ∧ Stored (s'.log k) r' v := by
      generalize s'.index[k]? = x at hrel
      cases hrel with
      | some hst' => exact ⟨_, rfl, hst'⟩
    refine ⟨r', hr', hst', ?_⟩
    have hc : (s'.log k).contents = (s'.log k).file := by
      rw [VLog.contents, State.log, hf, List.take_zero, List.append_nil]
    exact hc ▸ hst'.below
  cases f with
  | absent =>
    have hv : resolved s k = none := by
      rw [resolved, show s.index[k]? = none from h]
      rfl
    rw [hv] at hrel
    generalize hx : s'.index[k]? = x at hrel
    cases hrel with
    | none => exact hx
  | lost => trivial
  | buffered v =>
    obtain ⟨r, hi, hst⟩ := h
    exact hlive r v hi hst
  | durable v =>
    obtain ⟨r, hi, hst, -⟩ := h
    exact hlive r v hi hst

theorem collect_sound (hb : PageBuffer o.logBufSize) (h : Sound o t) (hi : AllIdle t.config)
    {threads : Nat} (ht : 0 < threads) {events : List Collect.Event}
    (hfew : FewKeys t.config.state) (hin : Intact t.config.state)
    (hgc : vLogGarbageCollect o threads t.config.state events = some s') :
    Sound o ⟨{ t.config with state := s' }, fun k => (t.fates k).sync⟩ := by
  obtain ⟨g, hg, hp, rfl⟩ := vLogGarbageCollect_eq_some hgc
  rw [← gcRun_flushedState] at hg
  have hr : Represents o (resolved t.config.state) (gcFinish o g) := gcFinish_represents
    (flushedState_represents hb h.layout h.small hin) hb hfew ht hg hp
  refine ⟨hr.layout, ?_, idle_writing hi _, ?_⟩
  · intro k r hk
    obtain ⟨v, hv, hst⟩ := hr.stored hk
    rw [hst.size_eq]
    exact hr.small k v hv
  · exact fun k => keeps_collect (h.keeps k) hr fun i => flush_offset _

theorem track_sound (hb : PageBuffer o.logBufSize) (h : Sound o t) {e : Step} (he : e.Small)
    (hc : Collectable t e) (hs : track o t e = some t') : Sound o t' := by
  obtain ⟨c', hstep, rfl⟩ := Option.map_eq_some_iff.mp hs
  cases e with
  | move m =>
    cases moved_of_move hstep with
    | call hj => exact call_sound h he
    | go hj hstepped =>
      rw [note, hj]
      exact go_sound hb h hj hstepped
  | crash mem =>
    cases hstep
    exact crash_sound h
  | reopen mem =>
    obtain ⟨hi, hstep⟩ := Option.ite_none_right_eq_some.mp hstep
    cases hstep
    exact reopen_sound hb h hi
  | collect threads events =>
    obtain ⟨hi, hstep⟩ := Option.ite_none_right_eq_some.mp hstep
    obtain ⟨s', hgc, rfl⟩ := Option.map_eq_some_iff.mp hstep
    exact collect_sound hb h hi hc.1 hc.2.1 hc.2.2 hgc

theorem start_sound (o : Options) (mem : Fin 4 → Nat → UInt8) (n : Nat) :
    Sound o (start o mem n) where
  layout i := openLog_layout _ _ (mem i) (Nat.dvd_zero _)
  small k r hk := by
    rw [start, openClients, openFresh, Std.ExtTreeMap.getElem?_empty] at hk
    cases hk
  writing := idle_writing (fun pc hpc => List.eq_of_mem_replicate hpc) _
  keeps k := Std.ExtTreeMap.getElem?_empty

theorem run_sound (hb : PageBuffer o.logBufSize) {steps : List Step} (hsmall : ∀ e ∈ steps, e.Small)
    (h : Sound o t) (hc : AlongM (track o) Collectable t steps)
    (hr : steps.foldlM (track o) t = some t') : Sound o t' :=
  hc.keeps (fun _ e he _ h hc hs => track_sound hb h (hsmall e he) hc hs) h hr

def whole (op : Sequential.Op) (n : Nat) : List Step :=
  .move (.call 0 op) :: List.replicate n (.move (.go 0))

/-- One value is flushed and another one is not when the database crashes. -/
def crashing : List Step :=
  whole (.put [7] [1]) 6 ++ whole .flush 5 ++ whole (.put [1] [2]) 6 ++ [.crash fun _ _ => 0]

def collecting : List Step :=
  whole (.delete [1]) 3 ++ [.collect 1 [.join, .join, .join, .worker 0, .worker 0, .join]]

end WiscKey.Restart
