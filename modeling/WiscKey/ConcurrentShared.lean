import WiscKey.Concurrent
import WiscKey.CachePins
import WiscKey.LogRecords

namespace WiscKey.ConcurrentShared

open WiscKey.Maps WiscKey.ValueLog WiscKey.LogLayout WiscKey.LogRecords WiscKey.Hash
  WiscKey.ShardedCache WiscKey.CachePins WiscKey.Database WiscKey.Concurrent

def Started (ev : List Event) (k : Key) (v : Value) : Prop := Event.start k v ∈ ev

/-- What the clients may rely on, where `refs` are the handles they hold. -/
structure Shared (o : Options) (ev : List Event) (refs : Loc → List Ref) (s : State) : Prop where
  layout : ∀ i, Layout (bufSize o.logBufSize) (s.logs i)
  pinned : ∀ l, ∀ c ∈ cacheAt s l, Pinned c (refs l)
  entries : ∀ l, ∀ c ∈ cacheAt s l, Entries (Started ev) c
  index : ∀ k r, s.index[k]? = some r → ∃ v, Started ev k v ∧ Stored (s.log k) r v

/-- What a step of one client may do to what the others rely on. -/
structure Later (ev : List Event) (s s' : State) : Prop where
  logs : ∀ i, Grows (s.logs i) (s'.logs i)
  caches : ∀ l, ∀ c ∈ cacheAt s l, ∃ c' ∈ cacheAt s' l, Evolves (Started ev) c c'

def addRef (l : Loc) (h : Option Ref) (refs : Loc → List Ref) : Loc → List Ref :=
  Function.update refs l (h.toList ++ refs l)

variable {o : Options} {ev : List Event} {refs : Loc → List Ref} {s : State} {l : Loc}
  {c c' : Cache}
  {k : Key} {v : Value}

theorem evolves_refl {P : List UInt8 → List UInt8 → Prop} (c : Cache) : Evolves P c c :=
  ⟨rfl, fun _ _ he => Or.inl he⟩

theorem Later.refl (ev : List Event) (s : State) : Later ev s s :=
  ⟨fun _ => Grows.refl _, fun _ c hc => ⟨c, hc, evolves_refl c⟩⟩

theorem addRef_none (l : Loc) (refs : Loc → List Ref) : addRef l none refs = refs :=
  Function.update_eq_self _ _

theorem cacheAt_setCacheAt {l' : Loc} :
    cacheAt (setCacheAt s c l) l' = if l' = l then some c else cacheAt s l' := by
  cases l with
  | data =>
    cases l' with
    | data => rfl
    | buffer p => rfl
  | buffer p =>
    cases l' with
    | data => rfl
    | buffer q =>
      by_cases hq : q = p
      · simp [cacheAt, setCacheAt, hq]
      · simp [cacheAt, setCacheAt, hq]

theorem setCacheAt_logs : (setCacheAt s c l).logs = s.logs := by
  cases l with
  | data => rfl
  | buffer p => rfl

theorem setCacheAt_later (hc : c ∈ cacheAt s l) (he : Evolves (Started ev) c c') :
    Later ev s (setCacheAt s c' l) := by
  refine ⟨fun i => ?_, ?_⟩
  · rw [setCacheAt_logs]
    exact Grows.refl _
  · intro l' d hd
    rw [cacheAt_setCacheAt]
    split
    · rename_i hl
      subst hl
      cases Option.mem_unique hc hd
      exact ⟨c', rfl, he⟩
    · exact ⟨d, hd, evolves_refl d⟩

theorem setCacheAt_shared (h : Shared o ev refs s) (hc : c ∈ cacheAt s l)
    (he : Evolves (Started ev) c c') {rs : List Ref} (hp : Pinned c' rs) :
    Shared o ev (Function.update refs l rs) (setCacheAt s c' l) where
  layout := by
    rw [setCacheAt_logs]
    exact h.layout
  pinned l' d hd := by
    rw [cacheAt_setCacheAt] at hd
    split at hd
    · rename_i hl
      subst hl
      cases hd
      rw [Function.update_self]
      exact hp
    · rename_i hl
      rw [Function.update_of_ne hl]
      exact h.pinned l' d hd
  entries l' d hd := by
    rw [cacheAt_setCacheAt] at hd
    split at hd
    · cases hd
      exact (h.entries l c hc).evolve he
    · exact h.entries l' d hd
  index := by
    simp only [State.log, setCacheAt_logs, setCacheAt_index]
    exact h.index

theorem insertAt_shared (h : Shared o ev refs s) (hv : Started ev k v) :
    Shared o ev (addRef l (insertAt s l k v).2 refs) (insertAt s l k v).1 ∧
      Later ev s (insertAt s l k v).1 := by
  unfold insertAt
  cases hc : cacheAt s l with
  | none => exact ⟨by rw [addRef_none]; exact h, Later.refl ev s⟩
  | some c =>
    exact ⟨setCacheAt_shared h hc (insert_evolves hv) (insert_pinned (h.pinned l c hc)),
      setCacheAt_later hc (insert_evolves hv)⟩

theorem lookupAt_shared (h : Shared o ev refs s) :
    Shared o ev (addRef l (lookupAt s l k).2 refs) (lookupAt s l k).1 ∧
      Later ev s (lookupAt s l k).1 := by
  unfold lookupAt
  cases hc : cacheAt s l with
  | none => exact ⟨by rw [addRef_none]; exact h, Later.refl ev s⟩
  | some c =>
    refine ⟨setCacheAt_shared h hc lookup_evolves ?_, setCacheAt_later hc lookup_evolves⟩
    cases hl : (c.lookup k).2 with
    | none => exact lookup_pinned_miss (h.pinned l c hc) hl
    | some r => exact lookup_pinned (h.pinned l c hc) hl

theorem lookupAt_names (h : Shared o ev refs s) {r : Ref} (hl : (lookupAt s l k).2 = some r) :
    ∃ c ∈ cacheAt (lookupAt s l k).1 l, Names c r k := by
  unfold lookupAt at hl ⊢
  cases hc : cacheAt s l with
  | none =>
    rw [hc] at hl
    cases hl
  | some c =>
    rw [hc] at hl
    refine ⟨(c.lookup k).1, ?_, lookup_names (h.pinned l c hc) hl⟩
    rw [cacheAt_setCacheAt, if_pos rfl]
    rfl

theorem releaseAt_shared {r : Option Ref} (h : Shared o ev (addRef l r refs) s) :
    Shared o ev refs (releaseAt s l r) ∧ Later ev s (releaseAt s l r) := by
  unfold releaseAt
  cases r with
  | none =>
    rw [addRef_none] at h
    cases cacheAt s l with
    | none => exact ⟨h, Later.refl ev s⟩
    | some c => exact ⟨h, Later.refl ev s⟩
  | some r =>
    cases hc : cacheAt s l with
    | none =>
      refine ⟨⟨h.layout, ?_, h.entries, h.index⟩, Later.refl ev s⟩
      intro l' d hd
      have hl : l' ≠ l := by
        rintro rfl
        rw [hc] at hd
        cases hd
      have hp := h.pinned l' d hd
      rwa [addRef, Function.update_of_ne hl] at hp
    | some c =>
      have hp := h.pinned l c hc
      rw [addRef, Function.update_self] at hp
      have hr : Pinned (c.release r) (refs l) := release_pinned hp
      have hs := setCacheAt_shared h hc release_evolves hr
      rw [addRef, Function.update_idem, Function.update_eq_self] at hs
      exact ⟨hs, setCacheAt_later hc release_evolves⟩

theorem eraseAt_shared (h : Shared o ev refs s) :
    Shared o ev refs (eraseAt s l k) ∧ Later ev s (eraseAt s l k) := by
  unfold eraseAt
  cases hc : cacheAt s l with
  | none => exact ⟨h, Later.refl ev s⟩
  | some c =>
    have hp : Pinned (c.erase k) (refs l) := erase_pinned (h.pinned l c hc)
    have hs := setCacheAt_shared h hc erase_evolves hp
    rw [Function.update_eq_self] at hs
    exact ⟨hs, setCacheAt_later hc erase_evolves⟩

theorem setLogs_shared (h : Shared o ev refs s) {logs : Fin 4 → VLog}
    (hl : ∀ i, Layout (bufSize o.logBufSize) (logs i)) (hg : ∀ i, Grows (s.logs i) (logs i)) :
    Shared o ev refs { s with logs := logs } ∧ Later ev s { s with logs := logs } := by
  refine ⟨⟨hl, h.pinned, h.entries, ?_⟩, hg, fun l c hc => ⟨c, hc, evolves_refl c⟩⟩
  intro k r hr
  obtain ⟨v, hv, hst⟩ := h.index k r hr
  exact ⟨v, hv, hst.grow (hg _)⟩

theorem updateLog_shared (h : Shared o ev refs s) (p : Fin 4) {log : VLog}
    (hl : Layout (bufSize o.logBufSize) log) (hg : Grows (s.logs p) log) :
    Shared o ev refs { s with logs := Function.update s.logs p log } ∧
      Later ev s { s with logs := Function.update s.logs p log } := by
  refine setLogs_shared h ?_ ?_
  · intro i
    by_cases hi : i = p
    · subst i
      simpa only [Function.update_self] using hl
    · simpa only [Function.update_of_ne hi] using h.layout i
  · intro i
    by_cases hi : i = p
    · subst i
      simpa only [Function.update_self] using hg
    · simpa only [Function.update_of_ne hi] using Grows.refl (s.logs i)

theorem setIndex_later (index : Index) : Later ev s { s with index := index } :=
  ⟨fun _ => Grows.refl _, fun _ c hc => ⟨c, hc, evolves_refl c⟩⟩

theorem putIndex_shared (h : Shared o ev refs s) {r : Record} (hv : Started ev k v)
    (hr : Stored (s.log k) r v) : Shared o ev refs (s.putIndex k r) := by
  refine ⟨h.layout, h.pinned, h.entries, ?_⟩
  intro k' r' hi
  rw [State.putIndex, getElem?_insert] at hi
  split at hi
  · rename_i hk
    cases hi
    subst k'
    exact ⟨v, hv, hr⟩
  · exact h.index k' r' hi

theorem deleteIndex_shared (h : Shared o ev refs s) : Shared o ev refs (s.deleteIndex k) := by
  refine ⟨h.layout, h.pinned, h.entries, ?_⟩
  intro k' r' hi
  rw [State.deleteIndex, getElem?_erase] at hi
  split at hi
  · cases hi
  · exact h.index k' r' hi

theorem Shared.perm (h : Shared o ev refs s) {refs' : Loc → List Ref}
    (hp : ∀ l, (refs l).Perm (refs' l)) : Shared o ev refs' s :=
  ⟨h.layout, fun l c hc => (h.pinned l c hc).perm (hp l), h.entries, h.index⟩

theorem Shared.mono (h : Shared o ev refs s) {ev' : List Event} (he : ev ⊆ ev') :
    Shared o ev' refs s := by
  refine ⟨h.layout, h.pinned, fun l c hc i e hm => he (h.entries l c hc i e hm), ?_⟩
  intro k r hr
  obtain ⟨v, hv, hst⟩ := h.index k r hr
  exact ⟨v, he hv, hst⟩

end WiscKey.ConcurrentShared
