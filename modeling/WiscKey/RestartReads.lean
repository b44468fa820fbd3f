import WiscKey.Restart

namespace WiscKey.RestartReads

open WiscKey.Maps WiscKey.Runs WiscKey.ValueLog WiscKey.LogLayout WiscKey.LogRecords WiscKey.Hash
  WiscKey.ShardedCache WiscKey.CachePins WiscKey.Database WiscKey.Concurrent
  WiscKey.ConcurrentShared WiscKey.ConcurrentSafe WiscKey.ConcurrentSteps WiscKey.ConcurrentGet
  WiscKey.Resurrection WiscKey.Restart

def writes : Pc → Option Key
  | .putInsert _ k _ | .putRelease _ k _ _ | .putLog k _ | .putIndex k _ _ | .deleteErase _ k
  | .deleteIndex k => some k
  | _ => none

def adds : Pc → Option (Key × Value)
  | .putInsert _ k v | .getInsert k v => some (k, v)
  | _ => none

/-- While nobody writes a key: what it has in the index and the log file. -/
def OnDisk (s : State) (k : Key) : Option Value → Prop
  | none => s.index[k]? = none
  | some v => ∃ r, s.index[k]? = some r ∧ readLog (s.log k).file r = some v

def Reading (k : Key) (x : Option Value) (s : State) : Pc → Prop
  | .getBuffer k' r => k' = k → s.index[k]? = some r
  | .getLog k' r n => k' = k → s.index[k]? = some r ∧ n = 0
  | .getValue l k' h => ∃ c ∈ cacheAt s l, Names c h k'
  | .getRelease _ k' _ v | .getInsert k' v | .getInsertRelease k' v _ => k' = k → x = some v
  | pc => writes pc ≠ some k

def reply : Option Value → Answer
  | none => .notFound
  | some v => .ok v

def Right (k : Key) (x : Option Value) (k' : Key) (v : Value) : Prop := k' = k → x = some v

def fateOf : Option Value → Fate
  | none => .absent
  | some v => .durable v

def Restarts : Step → Prop
  | .move _ => False
  | .crash _ | .reopen _ | .collect _ _ => True

def Spares (k : Key) : Step → Prop
  | .move (.call _ (.put k' _)) | .move (.call _ (.delete k')) => k' ≠ k
  | .move (.call _ (.get _)) | .move (.call _ .flush) | .move (.go _) | .crash _ | .reopen _
  | .collect _ _ => True

instance (k : Key) : DecidablePred (Spares k)
  | .move (.call _ (.put k' _)) | .move (.call _ (.delete k')) =>
    inferInstanceAs (Decidable (k' ≠ k))
  | .move (.call _ (.get _)) | .move (.call _ .flush) | .move (.go _) | .crash _ | .reopen _
  | .collect _ _ => inferInstanceAs (Decidable True)

structure Caches (P : Key → Value → Prop) (refs : Loc → List Ref) (s : State) : Prop where
  pinned : ∀ l, ∀ c ∈ cacheAt s l, Pinned c (refs l)
  entries : ∀ l, ∀ c ∈ cacheAt s l, Entries P c

def Evolved (P : Key → Value → Prop) (s s' : State) : Prop :=
  ∀ l, ∀ c ∈ cacheAt s l, ∃ c' ∈ cacheAt s' l, Evolves P c c'

/-- The caches and the clients agree with what the key has. -/
structure Settled (k : Key) (x : Option Value) (c : Config) : Prop where
  caches : Caches (Right k x) (refsAt c.clients) c.state
  reading : ∀ pc ∈ c.clients, Reading k x c.state pc

/-- The key has kept what it had, and the `Get`s of it since some events have
answered that. -/
structure Served (o : Options) (k : Key) (x : Option Value) (ev : List Event) (t : Tracked) :
    Prop where
  sound : Sound o t
  fate : t.fates k = fateOf x
  settled : Settled k x t.config
  answers : ∃ es, t.config.events = ev ++ es ∧ ∀ a, .answer k a ∈ es → a = reply x

variable {o : Options} {P : Key → Value → Prop} {refs : Loc → List Ref} {s s' : State} {l : Loc}
  {k : Key} {v : Value} {c c' : Cache} {pc pc' : Pc} {es : List Event}

theorem Evolved.refl (s : State) : Evolved P s s := fun _ c hc => ⟨c, hc, evolves_refl c⟩

theorem cacheAt_congr (hc : s'.cache = s.cache) (hb : s'.buffers = s.buffers) (l : Loc) :
    cacheAt s' l = cacheAt s l := by
  cases l with
  | data => exact hc
  | buffer p => exact congrArg some (congrFun hb p)

theorem evolved_of_caches (h : ∀ l, cacheAt s' l = cacheAt s l) : Evolved P s s' := by
  intro l c hc
  exact ⟨c, by rwa [h], evolves_refl c⟩

theorem Caches.congr (h : Caches P refs s) (he : ∀ l, cacheAt s' l = cacheAt s l) :
    Caches P refs s' :=
  ⟨fun l c hc => h.pinned l c (he l ▸ hc), fun l c hc => h.entries l c (he l ▸ hc)⟩

theorem setCacheAt_caches (h : Caches P refs s) (hc : c ∈ cacheAt s l) (he : Evolves P c c')
    {rs : List Ref} (hp : Pinned c' rs) :
    Caches P (Function.update refs l rs) (setCacheAt s c' l) ∧ Evolved P s (setCacheAt s c' l) := by
  refine ⟨⟨fun l' d hd => ?_, fun l' d hd => ?_⟩, fun l' d hd => ?_⟩
  · rw [cacheAt_setCacheAt] at hd
    split at hd
    · rename_i hl
      subst hl
      cases hd
      rwa [Function.update_self]
    · rename_i hl
      rw [Function.update_of_ne hl]
      exact h.pinned l' d hd
  · rw [cacheAt_setCacheAt] at hd
    split at hd
    · cases hd
      exact (h.entries l c hc).evolve he
    · exact h.entries l' d hd
  · rw [cacheAt_setCacheAt]
    split
    · rename_i hl
      subst hl
      cases Option.mem_unique hc hd
      exact ⟨c', rfl, he⟩
    · exact ⟨d, hd, evolves_refl d⟩

theorem insertAt_caches (h : Caches P refs s) (hv : P k v) :
    Caches P (addRef l (insertAt s l k v).2 refs) (insertAt s l k v).1 ∧
      Evolved P s (insertAt s l k v).1 := by
  unfold insertAt
  cases hc : cacheAt s l with
  | none => exact ⟨by rwa [addRef_none], Evolved.refl s⟩
  | some c => exact setCacheAt_caches h hc (insert_evolves hv) (insert_pinned (h.pinned l c hc))

theorem lookupAt_caches (h : Caches P refs s) :
    Caches P (addRef l (lookupAt s l k).2 refs) (lookupAt s l k).1 ∧
      Evolved P s (lookupAt s l k).1 := by
  unfold lookupAt
  cases hc : cacheAt s l with
  | none => exact ⟨by rwa [addRef_none], Evolved.refl s⟩
  | some c =>
    refine setCacheAt_caches h hc lookup_evolves ?_
    cases hl : (c.lookup k).2 with
    | none => exact lookup_pinned_miss (h.pinned l c hc) hl
    | some r => exact lookup_pinned (h.pinned l c hc) hl

theorem lookupAt_caches_miss (h : Caches P refs s) (hl : (lookupAt s l k).2 = none) :
    Caches P refs (lookupAt s l k).1 ∧ Evolved P s (lookupAt s l k).1 := by
  have hc := lookupAt_caches (l := l) (k := k) h
  rwa [hl, addRef_none] at hc

theorem lookupAt_finds (h : Caches P refs s) {r : Ref} (hl : (lookupAt s l k).2 = some r) :
    ∃ c ∈ cacheAt (lookupAt s l k).1 l, Names c r k := by
  unfold lookupAt at hl ⊢
  cases hc : cacheAt s l with
  | none =>
    rw [hc] at hl
    cases hl
  | some c =>
    rw [hc] at hl
    refine ⟨(c.lookup k).1, ?_, lookup_names (h.pinned l c hc) hl⟩
    rw [cacheAt_setCacheAt, if_pos rfl]
    rfl

theorem releaseAt_caches {r : Option Ref} (h : Caches P (addRef l r refs) s) :
    Caches P refs (releaseAt s l r) ∧ Evolved P s (releaseAt s l r) := by
  unfold releaseAt
  cases r with
  | none =>
    rw [addRef_none] at h
    cases cacheAt s l with
    | none => exact ⟨h, Evolved.refl s⟩
    | some c => exact ⟨h, Evolved.refl s⟩
  | some r =>
    cases hc : cacheAt s l with
    | none =>
      refine ⟨⟨fun l' d hd => ?_, h.entries⟩, Evolved.refl s⟩
      have hl : l' ≠ l := by
        rintro rfl
        rw [hc] at hd
        cases hd
      have hp := h.pinned l' d hd
      rwa [addRef, Function.update_of_ne hl] at hp
    | some c =>
      have hp := h.pinned l c hc
      rw [addRef, Function.update_self] at hp
      have hr : Pinned (c.release r) (refs l) := release_pinned hp
      have hs := setCacheAt_caches h hc release_evolves hr
      rwa [addRef, Function.update_idem, Function.update_eq_self] at hs

theorem eraseAt_caches (h : Caches P refs s) :
    Caches P refs (eraseAt s l k) ∧ Evolved P s (eraseAt s l k) := by
  unfold eraseAt
  cases hc : cacheAt s l with
  | none => exact ⟨h, Evolved.refl s⟩
  | some c =>
    have hp : Pinned (c.erase k) (refs l) := erase_pinned (h.pinned l c hc)
    have hs := setCacheAt_caches h hc erase_evolves hp
    rwa [Function.update_eq_self] at hs

theorem stepped_caches (h : Caches P (withRefs pc refs) s)
    (ha : ∀ k v, adds pc = some (k, v) → P k v) (hs : Stepped o s pc s' pc' es) :
    Caches P (withRefs pc' refs) s' ∧ Evolved P s s' := by
  cases hs with
  | @putInsert l k v =>
    rw [withRefs_none rfl] at h
    rw [withRefs_eq (l := l) rfl]
    exact insertAt_caches h (ha _ _ rfl)
  | @insert k v =>
    rw [withRefs_none rfl] at h
    rw [withRefs_eq (l := .data) rfl]
    exact insertAt_caches h (ha _ _ rfl)
  | putReleaseData | putReleaseBuffer | insertRelease =>
    rw [withRefs_eq rfl] at h
    rw [withRefs_none rfl]
    exact releaseAt_caches h
  | @release l k q v =>
    rw [withRefs_eq (h := some q) rfl] at h
    rw [withRefs_none rfl]
    exact releaseAt_caches h
  | eraseData | eraseBuffer =>
    rw [withRefs_none rfl] at h
    rw [withRefs_none rfl]
    exact eraseAt_caches h
  | @cacheHit k q hl | @bufferHit k q _ hl =>
    rw [withRefs_none rfl] at h
    rw [withRefs_eq (h := some _) rfl, ← hl]
    exact lookupAt_caches h
  | @cacheMiss k hl | @bufferMiss k _ hl =>
    rw [withRefs_none rfl] at h
    rw [withRefs_none rfl]
    exact lookupAt_caches_miss h hl
  | @value l k q v hv =>
    rw [withRefs_eq (h := some q) rfl] at h
    rw [withRefs_eq (h := some q) rfl]
    exact ⟨h, Evolved.refl s⟩
  | putLog | putIndex | deleteIndex | indexHit | indexMiss | giveUp | logHit | retry | flushed
  | flush =>
    rw [withRefs_none rfl] at h
    rw [withRefs_none rfl]
    exact ⟨h.congr (cacheAt_congr rfl rfl), evolved_of_caches (cacheAt_congr rfl rfl)⟩

variable {x : Option Value}

theorem reading_adds (h : Reading k x s pc) (k' : Key) (v : Value) (ha : adds pc = some (k', v)) :
    Right k x k' v := by
  cases pc with
  | putInsert l k v =>
    cases ha
    rintro rfl
    exact absurd rfl h
  | getInsert k v =>
    cases ha
    exact h
  | idle | putRelease l k v q | putLog k v | putIndex k v lba | deleteErase l k | deleteIndex k
  | getCache k | getIndex k | getBuffer k r | getValue l k q | getRelease l k q v | getLog k r n
  | getInsertRelease k v q | flush ps => cases ha

theorem reading_log {r : Record} (hd : OnDisk s k x) (hr : s.index[k]? = some r)
    (hn : next o s (.getLog k r 0) = some (s', pc', es)) :
    ∃ v, x = some v ∧ pc' = .getInsert k v ∧ s' = s ∧ es = [] := by
  cases x with
  | none =>
    rw [show s.index[k]? = none from hd] at hr
    cases hr
  | some v =>
    obtain ⟨r', hr', hv⟩ := hd
    cases hr.symm.trans hr'
    rw [next, if_neg (by decide), hv] at hn
    cases hn
    exact ⟨v, rfl, rfl, rfl, rfl⟩

theorem next_reading (hc : Caches (Right k x) refs s) (hd : OnDisk s k x) (h : Reading k x s pc)
    (hn : next o s pc = some (s', pc', es)) :
    Reading k x s' pc' ∧ ∀ a, .answer k a ∈ es → a = reply x := by
  have hs := stepped_of_next hn
  cases hs with
  | putInsert | putReleaseData | putReleaseBuffer | putLog | eraseData | eraseBuffer =>
    exact ⟨h, by simp⟩
  | putIndex | deleteIndex | flushed | flush => exact ⟨by simp [Reading, writes], by simp⟩
  | cacheMiss => exact ⟨by simp [Reading, writes], by simp⟩
  | cacheHit hl => exact ⟨lookupAt_finds hc hl, by simp⟩
  | bufferHit hl => exact ⟨lookupAt_finds hc hl, by simp⟩
  | @bufferMiss k' q hl =>
    refine ⟨fun hk => ⟨?_, rfl⟩, by simp⟩
    rw [index_lookupAt]
    exact h hk
  | @indexHit k' q hi =>
    refine ⟨?_, by simp⟩
    rintro rfl
    exact hi
  | @indexMiss k' hi =>
    refine ⟨by simp [Reading, writes], fun a ha => ?_⟩
    cases List.mem_singleton.mp ha
    cases x with
    | none => rfl
    | some v =>
      obtain ⟨r, hr, -⟩ := hd
      rw [hi] at hr
      cases hr
  | @value l k' q v hv =>
    refine ⟨?_, by simp⟩
    obtain ⟨c, hcl, hnames⟩ := h
    obtain ⟨w, hw, hright⟩ := hnames.exists_value (hc.pinned l c hcl) (hc.entries l c hcl)
    rw [valueAt, Option.mem_def.mp hcl, Option.bind_some, hw] at hv
    cases hv
    exact hright
  | @release l k' q v | @insertRelease k' v q =>
    refine ⟨by simp [Reading, writes], fun a ha => ?_⟩
    cases List.mem_singleton.mp ha
    rw [h rfl]
    rfl
  | @insert k' v => exact ⟨h, by simp⟩
  | @giveUp k' q =>
    refine ⟨by simp [Reading, writes], fun a ha => ?_⟩
    cases List.mem_singleton.mp ha
    cases (h rfl).2
  | @logHit k' q n v hv =>
    refine ⟨?_, by simp⟩
    rintro rfl
    obtain ⟨hr, rfl⟩ := h rfl
    obtain ⟨w, hx, hpc, -⟩ := reading_log hd hr hn
    cases hpc
    exact hx
  | @retry k' q n =>
    refine ⟨?_, by simp⟩
    rintro rfl
    obtain ⟨hr, rfl⟩ := h rfl
    obtain ⟨w, hx, hpc, -⟩ := reading_log hd hr hn
    cases hpc

theorem reading_writes (h : Reading k x s pc) : writes pc ≠ some k := by
  cases pc with
  | putInsert l k v | putRelease l k v q | putLog k v | putIndex k v lba | deleteErase l k
  | deleteIndex k => exact h
  | idle | getCache k | getIndex k | getBuffer k r | getValue l k q | getRelease l k q v
  | getLog k r n | getInsert k v | getInsertRelease k v q | flush ps => simp [writes]

theorem wrote_index (h : Wrote o s pc s' pc') (hw : writes pc ≠ some k) :
    s'.index[k]? = s.index[k]? := by
  cases h with
  | nothing hi => rw [hi]
  | appended | flushed => rfl
  | indexed =>
    rw [State.putIndex, getElem?_insert, if_neg]
    rintro rfl
    exact hw rfl
  | deleted =>
    rw [State.deleteIndex, getElem?_erase, if_neg]
    rintro rfl
    exact hw rfl

theorem Reading.later {refs' : Loc → List Ref} (h : Reading k x s pc) (hc : Caches P refs s)
    (hc' : Caches P refs' s') (he : Evolved P s s') (hi : s'.index[k]? = s.index[k]?)
    (hr : ∀ l, refsOf pc l ⊆ refs' l) : Reading k x s' pc := by
  cases pc with
  | getBuffer k' r => exact fun hk => hi.trans (h hk)
  | getLog k' r n => exact fun hk => ⟨hi.trans (h hk).1, (h hk).2⟩
  | getValue l k' q =>
    obtain ⟨c, hcl, hn⟩ := h
    obtain ⟨c', hcl', hev⟩ := he l c hcl
    refine ⟨c', hcl', hn.evolve (hc.pinned l c hcl) (hc'.pinned l c' hcl') hev (hr l ?_)⟩
    simp [refsOf, held]
  | getRelease l k' q v | getInsert k' v | getInsertRelease k' v q => exact h
  | idle | putInsert l k v | putRelease l k v q | putLog k v | putIndex k v lba | deleteErase l k
  | deleteIndex k | getCache k | getIndex k | flush ps => exact h

theorem Caches.perm (h : Caches P refs s) {refs' : Loc → List Ref}
    (hp : ∀ l, (refs l).Perm (refs' l)) : Caches P refs' s :=
  ⟨fun l c hc => (h.pinned l c hc).perm (hp l), h.entries⟩

theorem go_settled {c : Config} {j : Nat} (h : Settled k x c) (hd : OnDisk c.state k x)
    (hj : c.clients[j]? = some pc) (hn : next o c.state pc = some (s', pc', es)) :
    Settled k x ⟨s', c.clients.set j pc', c.events ++ es⟩ ∧
      ∀ a, .answer k a ∈ es → a = reply x := by
  have hpc := h.reading pc (List.mem_of_getElem? hj)
  have hs := stepped_of_next hn
  have hi := wrote_index (wrote_of_stepped hs) (reading_writes hpc)
  obtain ⟨hread, hans⟩ := next_reading h.caches hd hpc hn
  obtain ⟨pre, post, hsplit, hset⟩ := split_at hj
  have hc := h.caches
  rw [hsplit] at hc
  obtain ⟨hc', he⟩ := stepped_caches (hc.perm (refsAt_perm pre post pc)) (reading_adds hpc) hs
  have hc'' : Caches (Right k x) (refsAt (pre ++ pc' :: post)) s' :=
    hc'.perm fun l => (refsAt_perm pre post pc' l).symm
  rw [hset]
  refine ⟨⟨hc'', fun a ha => ?_⟩, hans⟩
  by_cases hap : a = pc'
  · rw [hap]
    exact hread
  · refine (h.reading a ?_).later h.caches hc'' he hi ?_
    · rw [hsplit]
      simp only [List.mem_append, List.mem_cons, hap, false_or] at ha ⊢
      exact ha.imp_right Or.inr
    · intro l r hr
      exact List.mem_flatMap.mpr ⟨a, ha, hr⟩

theorem begin_writes {op : Sequential.Op} {j : Nat} (h : Spares k (.move (.call j op))) :
    writes (begin op).1 ≠ some k := by
  cases op with
  | put k' v | delete k' =>
    rintro ⟨⟩
    exact h rfl
  | get k' | flush => simp [begin, writes]

theorem begin_reading {op : Sequential.Op} {j : Nat} (h : Spares k (.move (.call j op))) :
    Reading k x s (begin op).1 := by
  cases op with
  | put k' v | delete k' | get k' | flush => exact begin_writes h

theorem call_settled {c : Config} {j : Nat} {op : Sequential.Op} {ev : List Event}
    (h : Settled k x c) (hj : c.clients[j]? = some .idle) (hs : Spares k (.move (.call j op))) :
    Settled k x ⟨c.state, c.clients.set j (begin op).1, ev⟩ := by
  obtain ⟨pre, post, hsplit, hset⟩ := split_at hj
  have hrefs : refsAt (c.clients.set j (begin op).1) = refsAt c.clients := by
    funext l
    have hbegin : refsOf (begin op).1 l = [] := by rw [refsOf, begin_held]
    rw [hset, hsplit, refsAt, List.flatMap_append, List.flatMap_cons, hbegin, refsAt,
      List.flatMap_append, List.flatMap_cons]
    rfl
  refine ⟨by rw [hrefs]; exact h.caches, fun pc hpc => ?_⟩
  obtain hpc | rfl := List.mem_or_eq_of_mem_set hpc
  · exact h.reading pc hpc
  · exact begin_reading hs

theorem fresh_settled {c : Config} (hi : AllIdle c) (hb : c.state.buffers = fun _ => newBuffer o)
    (hc : c.state.cache = newDataCache o) : Settled k x c := by
  have hrefs : ∀ l, refsAt c.clients l = [] := by
    intro l
    rw [refsAt, List.flatMap_eq_nil_iff]
    intro pc hpc
    rw [hi pc hpc]
    rfl
  have hnew : ∀ l, ∀ d ∈ cacheAt c.state l,
      ∃ policy capacity bits, d = newCache policy capacity bits := by
    intro l d hd
    rw [cacheAt_congr (s := openFresh o fun _ _ => 0) hc hb l] at hd
    exact cacheAt_openFresh hd
  refine ⟨⟨fun l d hd => ?_, fun l d hd => ?_⟩, fun pc hpc => ?_⟩
  · obtain ⟨policy, capacity, bits, rfl⟩ := hnew l d hd
    rw [hrefs]
    exact new_pinned policy capacity bits
  · obtain ⟨policy, capacity, bits, rfl⟩ := hnew l d hd
    exact new_entries policy capacity bits
  · rw [hi pc hpc]
    simp [Reading, writes]

theorem restart_settled {c c' : Config} {e : Step} (he : Restarts e)
    (hs : Restart.step o c e = some c') : Settled k x c' ∧ c'.events = c.events := by
  cases e with
  | move m => cases he
  | crash mem =>
    cases hs
    refine ⟨fresh_settled (o := o) (fun pc hpc => ?_) rfl rfl, rfl⟩
    obtain ⟨a, -, rfl⟩ := List.mem_map.mp hpc
    rfl
  | reopen mem =>
    obtain ⟨hi, hs⟩ := Option.ite_none_right_eq_some.mp hs
    cases hs
    exact ⟨fresh_settled (o := o) hi rfl rfl, rfl⟩
  | collect threads events =>
    obtain ⟨hi, hs⟩ := Option.ite_none_right_eq_some.mp hs
    obtain ⟨s', hgc, rfl⟩ := Option.map_eq_some_iff.mp hs
    obtain ⟨g, -, -, rfl⟩ := GarbageCollection.vLogGarbageCollect_eq_some hgc
    exact ⟨fresh_settled (o := o) hi rfl rfl, rfl⟩

theorem onDisk_of_keeps {size : Nat} (h : Keeps s k (fateOf x)) (hl : Within size (s.log k))
    (hx : ∀ v ∈ x, 0 < v.length) : OnDisk s k x := by
  cases x with
  | none => exact h
  | some v =>
    obtain ⟨r, hr, hst, hle⟩ := h
    rw [← hl.lba_eq] at hle
    refine ⟨r, hr, ?_⟩
    rw [readLog_eq_some hl hle (hst.size_eq ▸ hx v rfl), cut_stored hl hst hle]

theorem fateOf_sync (x : Option Value) : (fateOf x).sync = fateOf x := by
  cases x with
  | none => rfl
  | some v => rfl

theorem fateOf_crash (x : Option Value) : (fateOf x).crash = fateOf x := by
  cases x with
  | none => rfl
  | some v => rfl

theorem settle_spares {f : Key → Fate} (hw : writes pc ≠ some k) :
    settle f pc k = f k ∨ settle f pc k = (f k).sync := by
  cases pc with
  | putIndex k' v lba | deleteIndex k' =>
    refine Or.inl (Function.update_of_ne ?_ _ _)
    rintro rfl
    exact hw rfl
  | flush ps =>
    cases ps with
    | nil => exact Or.inl rfl
    | cons p ps =>
      rw [settle_flush]
      split
      · exact Or.inr rfl
      · exact Or.inl rfl
  | idle | putInsert l k v | putRelease l k v q | putLog k v | deleteErase l k | getCache k
  | getIndex k | getBuffer k r | getValue l k q | getRelease l k q v | getLog k r n
  | getInsert k v | getInsertRelease k v q => exact Or.inl rfl

theorem note_fateOf {t : Tracked} (hf : t.fates k = fateOf x)
    (hw : ∀ pc ∈ t.config.clients, writes pc ≠ some k) (e : Step) :
    note t.config t.fates e k = fateOf x := by
  cases e with
  | move m =>
    cases m with
    | call j op => exact hf
    | go j =>
      rw [note]
      cases hj : t.config.clients[j]? with
      | none => exact hf
      | some pc =>
        obtain hs | hs := settle_spares (f := t.fates) (hw pc (List.mem_of_getElem? hj))
        · exact hs.trans hf
        · exact hs.trans (by rw [hf, fateOf_sync])
  | crash mem => exact (congrArg Fate.crash hf).trans (fateOf_crash x)
  | reopen mem | collect threads events => exact (congrArg Fate.sync hf).trans (fateOf_sync x)

theorem track_served {t t' : Tracked} {ev : List Event} {e : Step} (hb : PageBuffer o.logBufSize)
    (hx : ∀ v ∈ x, 0 < v.length) (h : Served o k x ev t) (he : e.Small) (hsp : Spares k e)
    (hc : Collectable t e) (hs : track o t e = some t') : Served o k x ev t' := by
  have hsound := track_sound hb h.sound he hc hs
  have hdisk := onDisk_of_keeps (h.fate ▸ h.sound.keeps k) (h.sound.layout _).toWithin hx
  obtain ⟨c', hstep, rfl⟩ := Option.map_eq_some_iff.mp hs
  have hfate := note_fateOf h.fate (fun pc hpc => reading_writes (h.settled.reading pc hpc)) e
  obtain ⟨es, hev, hans⟩ := h.answers
  have hrestart : Restarts e → Served o k x ev ⟨c', note t.config t.fates e⟩ := by
    intro hre
    obtain ⟨hset, he⟩ := restart_settled (k := k) (x := x) hre hstep
    exact ⟨hsound, hfate, hset, es, he.trans hev, hans⟩
  cases e with
  | move m =>
    have hmove : move o t.config m = some c' := hstep
    cases m with
    | call j op =>
      cases moved_of_move hmove with
      | call hj =>
        refine ⟨hsound, hfate, call_settled h.settled hj hsp, es ++ (begin op).2, ?_, ?_⟩
        · rw [hev, List.append_assoc]
        · intro a ha
          obtain ha | ha := List.mem_append.mp ha
          · exact hans a ha
          · exact absurd ha begin_no_answer
    | go j =>
      obtain ⟨pc, hj, hmove⟩ := Option.bind_eq_some_iff.mp hmove
      obtain ⟨⟨s', pc', es'⟩, hnext, rfl⟩ := Option.map_eq_some_iff.mp hmove
      obtain ⟨hset, hnew⟩ := go_settled h.settled hdisk hj hnext
      refine ⟨hsound, hfate, hset, es ++ es', ?_, ?_⟩
      · rw [hev, List.append_assoc]
      · intro a ha
        obtain ha | ha := List.mem_append.mp ha
        · exact hans a ha
        · exact hnew a ha
  | crash mem | reopen mem | collect threads events => exact hrestart trivial

theorem run_served {t t' : Tracked} {ev : List Event} {steps : List Step}
    (hb : PageBuffer o.logBufSize) (hx : ∀ v ∈ x, 0 < v.length) (h : Served o k x ev t)
    (hsmall : ∀ e ∈ steps, e.Small) (hsp : ∀ e ∈ steps, Spares k e)
    (hc : AlongM (track o) Collectable t steps) (hr : steps.foldlM (track o) t = some t') :
    Served o k x ev t' :=
  hc.keeps (fun _ e he _ h hc hs => track_served hb hx h (hsmall e he) (hsp e he) hc hs) h hr

theorem restart_served {t t' : Tracked} {e : Step} (hb : PageBuffer o.logBufSize)
    (h : Sound o t) (he : e.Small) (hc : Collectable t e) (hre : Restarts e)
    (hs : track o t e = some t') (hf : t'.fates k = fateOf x) :
    Served o k x t'.config.events t' := by
  have hsound := track_sound hb h he hc hs
  obtain ⟨c', hstep, rfl⟩ := Option.map_eq_some_iff.mp hs
  exact ⟨hsound, hf, (restart_settled hre hstep).1, [], (List.append_nil _).symm, by simp⟩

/-- A key that was absent or in the log file at a restart has not been written
since. Whatever else the clients do, and however often the database restarts
again, every `Get` of it answers just that. -/
theorem answers_after_restart (hb : PageBuffer o.logBufSize) (mem : Fin 4 → Nat → UInt8) (n : Nat)
    (pre post : List Step) {e : Step} {t₀ t : Tracked}
    (hsmall : ∀ e' ∈ pre ++ e :: post, e'.Small) (hre : Restarts e)
    (hsp : ∀ e' ∈ post, Spares k e')
    (hc : AlongM (track o) Collectable (start o mem n) (pre ++ e :: post))
    (h₀ : (pre ++ [e]).foldlM (track o) (start o mem n) = some t₀)
    (hf : t₀.fates k = fateOf x) (hx : ∀ v ∈ x, 0 < v.length)
    (hr : post.foldlM (track o) t₀ = some t) :
    ∃ es, t.config.events = t₀.config.events ++ es ∧ ∀ a, .answer k a ∈ es → a = reply x := by
  rw [List.foldlM_append] at h₀
  obtain ⟨t₁, h₁, h₀⟩ := Option.bind_eq_some_iff.mp h₀
  rw [List.foldlM_cons] at h₀
  obtain ⟨t₂, h₂, ht⟩ := Option.bind_eq_some_iff.mp h₀
  cases ht
  obtain ⟨hc₁, hc₂, hc₃⟩ := hc.append h₁
  have hsound := run_sound hb (fun a ha => hsmall a (List.mem_append_left _ ha))
    (start_sound o mem n) hc₁ h₁
  have hserved := restart_served hb hsound (hsmall e (by simp)) hc₂ hre h₂ hf
  exact (run_served hb hx hserved (fun a ha => hsmall a (by simp [ha])) hsp (hc₃ t₀ h₂) hr).answers

theorem answers_after_restart_crash :
    ∃ t₀ t, crashing.foldlM (track ⟨32768, 16⟩) (start ⟨32768, 16⟩ (fun _ _ => 0) 1) = some t₀ ∧
      (whole (.put [1] [3]) 6 ++ whole (.get [7]) 6).foldlM (track ⟨32768, 16⟩) t₀ = some t ∧
      t.config.events = t₀.config.events ++ [.start [1] [3], .answer [7] (.ok [1])] ∧
      ∃ es, t.config.events = t₀.config.events ++ es ∧
        ∀ a, .answer [7] a ∈ es → a = reply (some [1]) := by
  have hrun : ∃ t₀ ∈ crashing.foldlM (track ⟨32768, 16⟩) (start ⟨32768, 16⟩ (fun _ _ => 0) 1),
      t₀.fates [7] = fateOf (some [1]) ∧
      ∃ t ∈ (whole (.put [1] [3]) 6 ++ whole (.get [7]) 6).foldlM (track ⟨32768, 16⟩) t₀,
        t.config.events = t₀.config.events ++ [.start [1] [3], .answer [7] (.ok [1])] := by
    decide +kernel
  obtain ⟨t₀, h₀, hf, t, ht, he⟩ := hrun
  refine ⟨t₀, t, h₀, ht, he, ?_⟩
  exact answers_after_restart (by decide) (fun _ _ => 0) 1
    (whole (.put [7] [1]) 6 ++ whole .flush 5 ++ whole (.put [1] [2]) 6)
    (whole (.put [1] [3]) 6 ++ whole (.get [7]) 6) (e := .crash fun _ _ => 0)
    (by simp [whole, Step.Small, Move.Small, Sequential.Op.Small, pageSize]) trivial
    (by decide) (by decide +kernel) h₀ hf (by decide) ht

end WiscKey.RestartReads
