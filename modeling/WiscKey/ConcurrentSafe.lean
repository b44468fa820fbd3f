import WiscKey.ConcurrentShared

namespace WiscKey.ConcurrentSafe

open WiscKey.ValueLog WiscKey.LogLayout WiscKey.LogRecords WiscKey.Hash WiscKey.ShardedCache
  WiscKey.CachePins WiscKey.Database WiscKey.Concurrent WiscKey.ConcurrentShared

def held : Pc → Option (Loc × Ref)
  | .putRelease l _ _ h => h.map fun r => (l, r)
  | .getValue l _ h | .getRelease l _ h _ => some (l, h)
  | .getInsertRelease _ _ h => h.map fun r => (.data, r)
  | _ => none

def refsOf (pc : Pc) (l : Loc) : List Ref :=
  match held pc with
  | none => []
  | some x => if x.1 = l then [x.2] else []

def Fine (ev : List Event) (s : State) : Pc → Prop
  | .putInsert _ k v | .putRelease _ k v _ | .putLog k v => Started ev k v ∧ v.length ≤ pageSize
  | .putIndex k v lba => Started ev k v ∧ Stored (s.log k) ⟨lba, v.length⟩ v
  | .getBuffer k r | .getLog k r _ => ∃ v, Started ev k v ∧ Stored (s.log k) r v
  | .getValue l k h => ∃ c ∈ cacheAt s l, Names c h k
  | .getRelease _ k _ v | .getInsert k v | .getInsertRelease k v _ => Started ev k v
  | _ => True

variable {o : Options} {ev : List Event} {refs : Loc → List Ref} {s s' : State} {pc pc' : Pc}

def withRefs (pc : Pc) (refs : Loc → List Ref) : Loc → List Ref := fun l => refsOf pc l ++ refs l

theorem withRefs_eq {l : Loc} {h : Option Ref} (hh : held pc = h.map fun r => (l, r)) :
    withRefs pc refs = addRef l h refs := by
  funext l'
  rw [withRefs, refsOf, hh]
  by_cases hl : l' = l
  · subst l'
    cases h with
    | none => simp [addRef]
    | some r => simp [addRef]
  · cases h with
    | none => simp [addRef, Function.update_of_ne hl]
    | some r => simp [addRef, Function.update_of_ne hl, Ne.symm hl]

theorem withRefs_none (hh : held pc = none) : withRefs pc refs = refs := by
  rw [withRefs_eq (l := .data) (h := none) hh, addRef_none]

theorem Fine.later {ev' : List Event} {refs' : Loc → List Ref} (hf : Fine ev s pc)
    (h : Shared o ev refs s) (h' : Shared o ev' refs' s') (hl : Later ev s s') (he : ev ⊆ ev')
    (hr : ∀ l, refsOf pc l ⊆ refs' l) : Fine ev' s' pc := by
  cases pc with
  | putInsert l k v | putRelease l k v r | putLog k v => exact ⟨he hf.1, hf.2⟩
  | putIndex k v lba => exact ⟨he hf.1, hf.2.grow (hl.logs _)⟩
  | getBuffer k r | getLog k r n =>
    obtain ⟨v, hv, hst⟩ := hf
    exact ⟨v, he hv, hst.grow (hl.logs _)⟩
  | getValue l k r =>
    obtain ⟨c, hc, hn⟩ := hf
    obtain ⟨c', hc', hev⟩ := hl.caches l c hc
    refine ⟨c', hc', hn.evolve (h.pinned l c hc) (h'.pinned l c' hc') hev (hr l ?_)⟩
    simp [refsOf, held]
  | getRelease l k r v | getInsert k v | getInsertRelease k v r => exact he hf
  | idle | deleteErase l k | deleteIndex k | getCache k | getIndex k | flush ps => trivial

structure Advance (o : Options) (ev : List Event) (refs : Loc → List Ref) (s : State)
    (r : State × Pc × List Event) : Prop where
  shared : Shared o ev (withRefs r.2.1 refs) r.1
  later : Later ev s r.1
  fine : Fine ev r.1 r.2.1
  answered : ∀ e ∈ r.2.2, ∃ k a, e = .answer k a ∧ ∀ v, a = .ok v → Started ev k v

theorem answer_ok {k : Key} {v : Value} (hv : Started ev k v) :
    ∀ e ∈ [Event.answer k (.ok v)], ∃ k a, e = .answer k a ∧ ∀ v, a = .ok v → Started ev k v := by
  intro e he
  rw [List.mem_singleton.mp he]
  refine ⟨k, _, rfl, ?_⟩
  rintro _ ⟨⟩
  exact hv

theorem answer_notFound (k : Key) :
    ∀ e ∈ [Event.answer k .notFound],
      ∃ k a, e = .answer k a ∧ ∀ v, a = .ok v → Started ev k v := by
  intro e he
  rw [List.mem_singleton.mp he]
  exact ⟨k, _, rfl, fun v hv => by cases hv⟩

theorem advance_free {es : List Event} (hh : held pc' = none) (hs : Shared o ev refs s')
    (hl : Later ev s s') (hf : Fine ev s' pc')
    (ha : ∀ e ∈ es, ∃ k a, e = .answer k a ∧ ∀ v, a = .ok v → Started ev k v) :
    Advance o ev refs s (s', pc', es) :=
  ⟨by rw [withRefs_none hh]; exact hs, hl, hf, ha⟩

theorem advance_holding {l : Loc} {h : Option Ref} (hh : held pc' = h.map fun r => (l, r))
    (hs : Shared o ev (addRef l h refs) s') (hl : Later ev s s') (hf : Fine ev s' pc') :
    Advance o ev refs s (s', pc', []) :=
  ⟨by rw [withRefs_eq hh]; exact hs, hl, hf, by simp⟩

theorem next_advance (hb : PageBuffer o.logBufSize) (h : Shared o ev (withRefs pc refs) s)
    (hf : Fine ev s pc) {r : State × Pc × List Event} (hn : next o s pc = some r) :
    Advance o ev refs s r := by
  cases pc with
  | idle => cases hn
  | putInsert l k v =>
    cases hn
    rw [withRefs_none rfl] at h
    obtain ⟨hs, hl⟩ := insertAt_shared (l := l) h hf.1
    exact advance_holding rfl hs hl hf
  | putRelease l k v q =>
    rw [withRefs_eq rfl] at h
    obtain ⟨hs, hl⟩ := releaseAt_shared h
    cases l with
    | data =>
      cases hn
      exact advance_free rfl hs hl hf (by simp)
    | buffer p =>
      cases hn
      exact advance_free rfl hs hl hf (by simp)
  | putLog k v =>
    cases hn
    rw [withRefs_none rfl] at h
    have hlay := h.layout (partition k)
    obtain ⟨hs, hl⟩ := updateLog_shared h (partition k) (append_layout hb hlay hf.2)
      (append_grows hb hlay hf.2)
    refine advance_free rfl hs hl ⟨hf.1, ?_⟩ (by simp)
    simpa only [State.appendLog, State.log, State.setLog, Function.update_self] using
      append_stored hb hlay hf.2
  | putIndex k v lba =>
    cases hn
    rw [withRefs_none rfl] at h
    exact advance_free rfl (putIndex_shared h hf.1 hf.2) (setIndex_later _) trivial (by simp)
  | deleteErase l k =>
    rw [withRefs_none rfl] at h
    cases l with
    | data =>
      cases hn
      obtain ⟨hs, hl⟩ := eraseAt_shared (l := .data) (k := k) h
      exact advance_free rfl hs hl trivial (by simp)
    | buffer p =>
      cases hn
      obtain ⟨hs, hl⟩ := eraseAt_shared (l := .buffer p) (k := k) h
      exact advance_free rfl hs hl trivial (by simp)
  | deleteIndex k =>
    cases hn
    rw [withRefs_none rfl] at h
    exact advance_free rfl (deleteIndex_shared h) (setIndex_later _) trivial (by simp)
  | getCache k =>
    rw [withRefs_none rfl] at h
    obtain ⟨hs, hl⟩ := lookupAt_shared (l := .data) (k := k) h
    simp only [next] at hn
    split at hn
    · rename_i q hq
      cases hn
      rw [hq] at hs
      exact advance_holding (h := some q) rfl hs hl (lookupAt_names h hq)
    · rename_i hq
      cases hn
      rw [hq, addRef_none] at hs
      exact advance_free rfl hs hl trivial (by simp)
  | getIndex k =>
    rw [withRefs_none rfl] at h
    simp only [next] at hn
    split at hn
    · rename_i q hq
      cases hn
      exact advance_free rfl h (Later.refl ev s) (h.index k q hq) (by simp)
    · cases hn
      exact advance_free rfl h (Later.refl ev s) trivial (answer_notFound k)
  | getBuffer k q =>
    rw [withRefs_none rfl] at h
    obtain ⟨hs, hl⟩ := lookupAt_shared (l := bufferOf k) (k := k) h
    simp only [next] at hn
    split at hn
    · rename_i q hq
      cases hn
      rw [hq] at hs
      exact advance_holding (h := some q) rfl hs hl (lookupAt_names h hq)
    · rename_i hq
      cases hn
      rw [hq, addRef_none] at hs
      obtain ⟨v, hv, hst⟩ := hf
      exact advance_free rfl hs hl ⟨v, hv, hst.grow (hl.logs _)⟩ (by simp)
  | getValue l k q =>
    obtain ⟨c, hc, hnm⟩ := hf
    obtain ⟨v, hv, hsv⟩ := hnm.exists_value (h.pinned l c hc) (h.entries l c hc)
    have hva : valueAt s l q = some v := by
      rw [valueAt, hc, Option.bind_some, hv]
    rw [next, hva] at hn
    cases hn
    rw [withRefs_eq (h := some q) rfl] at h
    exact advance_holding (h := some q) rfl h (Later.refl ev s) hsv
  | getRelease l k q v =>
    cases hn
    rw [withRefs_eq (h := some q) rfl] at h
    obtain ⟨hs, hl⟩ := releaseAt_shared h
    exact advance_free rfl hs hl trivial (answer_ok hf)
  | getLog k q n =>
    rw [withRefs_none rfl] at h
    simp only [next] at hn
    split at hn
    · cases hn
      exact advance_free rfl h (Later.refl ev s) trivial (answer_notFound k)
    · split at hn
      · rename_i v hv
        cases hn
        obtain ⟨w, hw, hst⟩ := hf
        have he := readLog_stored (h.layout _).toWithin hst hv
        exact advance_free rfl h (Later.refl ev s) (he ▸ hw) (by simp)
      · cases hn
        exact advance_free rfl h (Later.refl ev s) hf (by simp)
  | getInsert k v =>
    cases hn
    rw [withRefs_none rfl] at h
    obtain ⟨hs, hl⟩ := insertAt_shared (l := .data) h hf
    exact advance_holding rfl hs hl hf
  | getInsertRelease k v q =>
    cases hn
    rw [withRefs_eq rfl] at h
    obtain ⟨hs, hl⟩ := releaseAt_shared h
    exact advance_free rfl hs hl trivial (answer_ok hf)
  | flush ps =>
    rw [withRefs_none rfl] at h
    cases ps with
    | nil =>
      cases hn
      exact advance_free rfl h (Later.refl ev s) trivial (by simp)
    | cons p ps =>
      cases hn
      obtain ⟨hs, hl⟩ := updateLog_shared h p (flush_layout hb.2 (h.layout p))
        (flush_grows (h.layout p).toWithin)
      exact advance_free rfl hs hl trivial (by simp)

end WiscKey.ConcurrentSafe
