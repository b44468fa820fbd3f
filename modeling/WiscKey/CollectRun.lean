import WiscKey.Runs
import WiscKey.CollectSteps

namespace WiscKey.CollectRun

open WiscKey.Maps WiscKey.Runs WiscKey.ValueLog WiscKey.LogLayout WiscKey.LogRecords
  WiscKey.LogHistory WiscKey.Hash WiscKey.WorkShares WiscKey.Database WiscKey.Collect
  WiscKey.CollectJobs WiscKey.CollectMoving WiscKey.CollectSteps

/-- All that an event can do: an index write, an append or a join. -/
inductive Stepped (o : Options) (threads : Nat) (snap : Snapshot) : Gc → Gc → Prop
  | place {g p ps w e pre post} (hp : g.parts = p :: ps) (hw : g.workers = pre ++ w :: post)
      (he : w.pending = some e) :
      Stepped o threads snap g { g with
        index := g.index.insert e.1 e.2
        workers := pre ++ { w with i := int32 (w.i + 1), pending := none } :: post }
  | move {g p ps w e pre post} (hp : g.parts = p :: ps) (hw : g.workers = pre ++ w :: post)
      (hn : w.pending = none) (hl : w.i < w.stop) (he : keyAt (snap.keys p) w.i = some e) :
      Stepped o threads snap g { g with
        sessions := Function.update g.sessions p
          ((g.sessions p).append o.logBufSize (cut (alignedRead (snap.files p) e.2) e.2))
        moved := Function.update g.moved p (g.moved p ++ [e])
        workers := pre ++ { w with pending := some (e.1, ⟨((g.sessions p).log.append o.logBufSize
          (cut (alignedRead (snap.files p) e.2) e.2)).2, e.2.size⟩) } :: post }
  | join {g p ps} (hp : g.parts = p :: ps) (hf : ∀ w ∈ g.workers, w.finished) :
      Stepped o threads snap g { g with parts := ps, workers := nextWorkers threads snap ps }

variable {o : Options} {threads : Nat} {snap : Snapshot} {g g' : Gc}

theorem stepped_of_gcStep {ev : Event} (h : gcStep o threads snap g ev = some g') :
    Stepped o threads snap g g' := by
  unfold gcStep at h
  cases hp : g.parts with
  | nil =>
    rw [hp] at h
    cases h
  | cons p ps =>
    rw [hp] at h
    cases ev with
    | join =>
      simp only [List.all_eq_true, Option.ite_none_right_eq_some, Option.some.injEq] at h
      obtain ⟨hf, rfl⟩ := h
      exact Stepped.join hp hf
    | worker j =>
      simp only [workerStep, Option.bind_eq_some_iff] at h
      obtain ⟨w, hw, h⟩ := h
      obtain ⟨pre, post, hws, hset⟩ := split_at hw
      cases he : w.pending with
      | some e =>
        simp only [he, placeStep, Option.some.injEq, hset] at h
        subst h
        exact Stepped.place hp hws he
      | none =>
        simp only [he, Option.ite_none_right_eq_some, Option.map_eq_some_iff] at h
        obtain ⟨hl, e, hk, h⟩ := h
        simp only [moveStep, hset] at h
        subst h
        exact Stepped.move hp hws he hl hk

def workersOf (threads : Nat) (snap : Snapshot) (g : Gc) (q : Fin 4) : List Worker :=
  match g.parts with
  | [] => []
  | p :: ps =>
    if q = p then g.workers else if q ∈ ps then spawn threads (snap.keys q).length else []

def partOf (threads : Nat) (snap : Snapshot) (g : Gc) (q : Fin 4) : Part where
  index := g.index
  session := g.sessions q
  moved := g.moved q
  workers := workersOf threads snap g q

theorem workersOf_head {p : Fin 4} {ps : List (Fin 4)} (hp : g.parts = p :: ps) :
    workersOf threads snap g p = g.workers := by
  rw [workersOf, hp]
  exact if_pos rfl

theorem workersOf_next {p q : Fin 4} {ps : List (Fin 4)} (hp : g.parts = p :: ps)
    (hn : g.parts.Nodup) :
    workersOf threads snap { g with parts := ps, workers := nextWorkers threads snap ps } q =
      if q = p then [] else workersOf threads snap g q := by
  rw [hp] at hn
  simp only [workersOf, hp]
  cases ps with
  | nil =>
    by_cases hq : q = p
    · simp [hq]
    · simp [hq]
  | cons p' ps =>
    simp only [nextWorkers, List.nodup_cons, List.mem_cons, not_or] at hn ⊢
    split
    · rename_i hq
      subst q
      simp [Ne.symm hn.1.1]
    · rename_i hq
      by_cases hqp : q = p
      · subst q
        simp [hn.1.2]
      · simp [hq, hqp]

structure Taken (snap : Snapshot) (val : Key → Value) (index : Index) : Prop where
  source : ∀ q, Source (snap.keys q) (snap.files q) val
  part : ∀ q, ∀ e ∈ snap.keys q, partition e.1 = q
  live : ∀ q, ∀ e ∈ snap.keys q, index[e.1]? = some e.2
  few : ∀ q, (snap.keys q).length < 2 ^ 31

structure Collecting (o : Options) (threads : Nat) (snap : Snapshot) (val : Key → Value)
    (index : Index) (g : Gc) : Prop where
  nodup : g.parts.Nodup
  dead : ∀ k : Key, index[k]? = none → g.index[k]? = none
  moving : ∀ q, ∃ done, Moving o.logBufSize (snap.keys q) val (partOf threads snap g q) done

variable {val : Key → Value} {index : Index}

theorem place_collecting (ht : Taken snap val index) (h : Collecting o threads snap val index g)
    {p : Fin 4} {ps : List (Fin 4)} {w : Worker} {e : Key × Record} {pre post : List Worker}
    (hp : g.parts = p :: ps) (hw : g.workers = pre ++ w :: post) (he : w.pending = some e) :
    Collecting o threads snap val index { g with
      index := g.index.insert e.1 e.2
      workers := pre ++ { w with i := int32 (w.i + 1), pending := none } :: post } := by
  obtain ⟨done, hm⟩ := h.moving p
  rw [partOf, workersOf_head hp, hw] at hm
  have hk : e.1 ∈ (snap.keys p).map Prod.fst :=
    hm.newRecord_mem (Or.inr ⟨w, by simp, by rw [he]⟩)
  obtain ⟨c, hc, hce⟩ := List.mem_map.mp hk
  refine ⟨h.nodup, ?_, ?_⟩
  · intro k hn
    have hne : e.1 ≠ k := by
      rintro rfl
      rw [← hce, ht.live p c hc] at hn
      cases hn
    rw [getElem?_insert, if_neg hne]
    exact h.dead k hn
  · intro q
    by_cases hq : q = p
    · subst q
      obtain ⟨r0, hm'⟩ := place_moving (ht.few p) (ht.source p) hm he
      refine ⟨done ++ [(e.1, r0)], ?_⟩
      simpa only [partOf, workersOf, hp, ↓reduceIte] using hm'
    · obtain ⟨done, hm⟩ := h.moving q
      refine ⟨done, ?_⟩
      have hi : ∀ k ∈ (snap.keys q).map Prod.fst, (g.index.insert e.1 e.2)[k]? = g.index[k]? := by
        intro k hk
        obtain ⟨c', hc', rfl⟩ := List.mem_map.mp hk
        rw [getElem?_insert, if_neg]
        intro hee
        apply hq
        rw [← ht.part q c' hc', ← hee, ← hce, ht.part p c hc]
      have hf := hm.frame hi
      simpa only [partOf, workersOf, hp, hq, ↓reduceIte] using hf

theorem move_collecting (hb : PageBuffer o.logBufSize) (ht : Taken snap val index)
    (h : Collecting o threads snap val index g) {p : Fin 4} {ps : List (Fin 4)} {w : Worker}
    {e : Key × Record} {pre post : List Worker} (hp : g.parts = p :: ps)
    (hw : g.workers = pre ++ w :: post) (hn : w.pending = none) (hl : w.i < w.stop)
    (he : keyAt (snap.keys p) w.i = some e) :
    Collecting o threads snap val index { g with
      sessions := Function.update g.sessions p
        ((g.sessions p).append o.logBufSize (cut (alignedRead (snap.files p) e.2) e.2))
      moved := Function.update g.moved p (g.moved p ++ [e])
      workers := pre ++ { w with pending := some (e.1, ⟨((g.sessions p).log.append o.logBufSize
        (cut (alignedRead (snap.files p) e.2) e.2)).2, e.2.size⟩) } :: post } := by
  refine ⟨h.nodup, h.dead, ?_⟩
  intro q
  by_cases hq : q = p
  · subst q
    obtain ⟨done, hm⟩ := h.moving p
    rw [partOf, workersOf_head hp, hw] at hm
    refine ⟨done, ?_⟩
    simp only [partOf, workersOf, hp, ↓reduceIte, Function.update_self]
    exact move_moving hb (ht.source p) hm hn hl he
  · obtain ⟨done, hm⟩ := h.moving q
    refine ⟨done, ?_⟩
    simpa only [partOf, workersOf, hp, hq, ↓reduceIte, Function.update_of_ne hq] using hm

theorem join_collecting (h : Collecting o threads snap val index g) {p : Fin 4}
    {ps : List (Fin 4)} (hp : g.parts = p :: ps) (hf : ∀ w ∈ g.workers, w.finished) :
    Collecting o threads snap val index
      { g with parts := ps, workers := nextWorkers threads snap ps } := by
  have hn := h.nodup
  rw [hp] at hn
  refine ⟨(List.nodup_cons.mp hn).2, h.dead, ?_⟩
  intro q
  obtain ⟨done, hm⟩ := h.moving q
  refine ⟨done, ?_⟩
  rw [partOf, workersOf_next hp h.nodup]
  split
  · rename_i hq
    subst q
    rw [partOf, workersOf_head hp] at hm
    exact join_moving hm hf
  · exact hm

theorem stepped_collecting (hb : PageBuffer o.logBufSize) (ht : Taken snap val index)
    (h : Collecting o threads snap val index g) (hs : Stepped o threads snap g g') :
    Collecting o threads snap val index g' := by
  cases hs with
  | place hp hw he => exact place_collecting ht h hp hw he
  | move hp hw hn hl he => exact move_collecting hb ht h hp hw hn hl he
  | join hp hf => exact join_collecting h hp hf

end WiscKey.CollectRun
