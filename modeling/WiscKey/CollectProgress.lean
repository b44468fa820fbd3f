import WiscKey.Runs
import WiscKey.CollectRun

namespace WiscKey.CollectProgress

open WiscKey.Runs WiscKey.LogLayout WiscKey.WorkShares WiscKey.Database WiscKey.Collect
  WiscKey.CollectJobs WiscKey.CollectMoving WiscKey.CollectSteps WiscKey.CollectRun

def eventsLeft (threads : Nat) (snap : Snapshot) (g : Gc) : Nat :=
  (∑ q, stepsLeft ((workersOf threads snap g q).map (share (snap.keys q)))) + g.parts.length

theorem sum_succ {f f' : Fin 4 → Nat} {p : Fin 4} (hp : f p = f' p + 1)
    (hq : ∀ q, q ≠ p → f q = f' q) : ∑ q, f q = (∑ q, f' q) + 1 := by
  have hr : ∑ q ∈ Finset.univ.erase p, f q = ∑ q ∈ Finset.univ.erase p, f' q :=
    Finset.sum_congr rfl (fun q hm => hq q (Finset.ne_of_mem_erase hm))
  rw [← Finset.add_sum_erase _ f (Finset.mem_univ p),
    ← Finset.add_sum_erase _ f' (Finset.mem_univ p), hr, hp, Nat.add_right_comm]

variable {o : Options} {threads : Nat} {snap : Snapshot} {val : Key → Value} {index : Index}
  {g g' : Gc}

theorem stepsLeft_finished {keys : List (Key × Record)} {ws : List Worker}
    (h : ∀ w ∈ ws, w.finished) : stepsLeft (ws.map (share keys)) = 0 := by
  rw [stepsLeft, List.sum_eq_zero_iff]
  intro n hn
  obtain ⟨a, ha, rfl⟩ := List.mem_map.mp hn
  obtain ⟨w, hw, rfl⟩ := List.mem_map.mp ha
  simp [share, todo_finished (h w hw)]

theorem eventsLeft_worker {p : Fin 4} {ps : List (Fin 4)} (hp : g.parts = p :: ps)
    (hp' : g'.parts = p :: ps) (hl : stepsLeft (g.workers.map (share (snap.keys p))) =
      stepsLeft (g'.workers.map (share (snap.keys p))) + 1) :
    eventsLeft threads snap g = eventsLeft threads snap g' + 1 := by
  rw [eventsLeft, eventsLeft, hp, hp', Nat.add_right_comm]
  refine congrArg (· + _) (sum_succ (p := p) ?_ ?_)
  · rw [workersOf_head hp, workersOf_head hp', hl]
  · intro q hq
    simp only [workersOf, hp, hp', hq, ↓reduceIte]

theorem stepped_eventsLeft (ht : Taken snap val index)
    (h : Collecting o threads snap val index g) (hs : Stepped o threads snap g g') :
    eventsLeft threads snap g = eventsLeft threads snap g' + 1 := by
  cases hs with
  | @place p ps w e pre post hp hw he =>
    obtain ⟨done, hm⟩ := h.moving p
    rw [partOf, workersOf_head hp, hw] at hm
    have hr := hm.range w (by simp)
    obtain ⟨r0, l, htd⟩ := hm.pending w (by simp) e he
    have h0 := hr.nonneg
    have hle := hr.stop_le
    have hlt := lt_of_todo htd
    have hfew := ht.few p
    have hi : int32 (w.i + 1) = w.i + 1 := int32_of_lt (by omega) (by omega)
    have hnext : todo (snap.keys p) { w with i := w.i + 1, pending := none } = l :=
      todo_next h0 htd rfl rfl
    refine eventsLeft_worker hp hp ?_
    simp only [hw, List.map_append, List.map_cons, share, hi, hnext, he, htd]
    exact stepsLeft_finish
  | @move p ps w e pre post hp hw hn hl he =>
    obtain ⟨done, hm⟩ := h.moving p
    rw [partOf, workersOf_head hp, hw] at hm
    obtain ⟨l, htd⟩ := todo_of_keyAt (hm.range w (by simp)) hl he
    refine eventsLeft_worker hp hp ?_
    rw [hw, List.map_append, List.map_cons, share, hn, htd, List.map_append, List.map_cons]
    change _ = stepsLeft (_ ++ ⟨todo (snap.keys p) w, true⟩ :: _) + 1
    rw [htd]
    exact stepsLeft_begin
  | @join p ps hp hf =>
    have hl : stepsLeft (g.workers.map (share (snap.keys p))) = 0 := stepsLeft_finished hf
    have hq : ∀ q, stepsLeft ((workersOf threads snap { g with
        parts := ps, workers := nextWorkers threads snap ps } q).map (share (snap.keys q))) =
        stepsLeft ((workersOf threads snap g q).map (share (snap.keys q))) := by
      intro q
      rw [workersOf_next hp h.nodup]
      split
      · rename_i hq
        rw [hq, workersOf_head hp, hl]
        rfl
      · rfl
    rw [eventsLeft, eventsLeft, Finset.sum_congr rfl (fun q _ => hq q), hp, List.length_cons,
      Nat.add_assoc]

theorem gcStep_join {p : Fin 4} {ps : List (Fin 4)} (hp : g.parts = p :: ps)
    (hf : ∀ w ∈ g.workers, w.finished) : gcStep o threads snap g .join =
      some { g with parts := ps, workers := nextWorkers threads snap ps } := by
  simp only [gcStep, hp, List.all_eq_true.mpr hf, ↓reduceIte]

theorem gcStep_exists (h : Collecting o threads snap val index g) (hn : g.parts ≠ []) :
    ∃ ev g', gcStep o threads snap g ev = some g' := by
  obtain ⟨p, ps, hp⟩ := List.exists_cons_of_ne_nil hn
  obtain ⟨done, hm⟩ := h.moving p
  rw [partOf, workersOf_head hp] at hm
  by_cases hf : ∀ w ∈ g.workers, w.finished
  · exact ⟨.join, _, gcStep_join hp hf⟩
  · push Not at hf
    obtain ⟨w, hw, hnf⟩ := hf
    obtain ⟨j, hj⟩ := List.mem_iff_getElem?.mp hw
    cases he : w.pending with
    | some e =>
      refine ⟨.worker j, placeStep g j w e, ?_⟩
      simp only [gcStep, hp, workerStep, hj, Option.bind_some, he]
    | none =>
      have hl : w.i < w.stop := by
        simpa [Worker.finished, he] using hnf
      obtain ⟨e, hk⟩ := keyAt_of_lt (hm.range w hw) hl
      refine ⟨.worker j, moveStep o snap p g j w e, ?_⟩
      simp only [gcStep, hp, workerStep, hj, Option.bind_some, he, hl, ↓reduceIte, hk,
        Option.map_some]

end WiscKey.CollectProgress
