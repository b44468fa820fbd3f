import WiscKey.CollectCorrect
import WiscKey.Sequential

namespace WiscKey.CollectOverflow

open WiscKey.Bytes WiscKey.Runs WiscKey.ValueLog WiscKey.LogLayout WiscKey.LogHistory WiscKey.Hash
  WiscKey.Database WiscKey.Representation WiscKey.Sequential WiscKey.Collect WiscKey.CollectJobs
  WiscKey.CollectRun WiscKey.CollectProgress WiscKey.CollectCorrect

variable {o : Options} {threads : Nat} {snap : Snapshot} {s : State} {g g' : Gc}

/-- However many keys there are, the indices of the workers are `int`s. -/
structure Capped (snap : Snapshot) (g : Gc) : Prop where
  stop_lt : ∀ w ∈ g.workers, w.stop < 2 ^ 31
  reached : ∀ q, ∀ e ∈ g.moved q, ∃ i, i < 2 ^ 31 - 1 ∧ (snap.keys q)[i]? = some e

theorem nextWorkers_stop_lt {ps : List (Fin 4)} :
    ∀ w ∈ nextWorkers threads snap ps, w.stop < 2 ^ 31 := by
  intro w hw
  cases ps with
  | nil => cases hw
  | cons p ps => exact spawn_stop_lt hw

theorem keyAt_reached {keys : List (Key × Record)} {i : Int} {e : Key × Record}
    (h : keyAt keys i = some e) (hi : i < 2 ^ 31 - 1) :
    ∃ j, j < 2 ^ 31 - 1 ∧ keys[j]? = some e := by
  unfold keyAt at h
  split at h
  · exact ⟨i.toNat, by omega, h⟩
  · cases h

theorem stepped_capped (h : Capped snap g) (hs : Stepped o threads snap g g') :
    Capped snap g' := by
  cases hs with
  | @place p ps w e pre post hp hw he =>
    refine ⟨?_, h.reached⟩
    intro a ha
    obtain rfl | ha := CollectSteps.mem_replace (w := w) ha
    · exact h.stop_lt w (by simp [hw])
    · exact h.stop_lt a (hw ▸ ha)
  | @move p ps w e pre post hp hw hn hl he =>
    have hlt := h.stop_lt w (by simp [hw])
    refine ⟨?_, ?_⟩
    · intro a ha
      obtain rfl | ha := CollectSteps.mem_replace (w := w) ha
      · exact hlt
      · exact h.stop_lt a (hw ▸ ha)
    · intro q c hc
      by_cases hq : q = p
      · subst q
        simp only [Function.update_self] at hc
        obtain hc | hc := List.mem_append.mp hc
        · exact h.reached p c hc
        · rw [List.mem_singleton.mp hc]
          exact keyAt_reached he (by omega)
      · simp only [Function.update_of_ne hq] at hc
        exact h.reached q c hc
  | @join p ps hp hf => exact ⟨nextWorkers_stop_lt, h.reached⟩

theorem gcRun_capped {events : List Event} (hr : gcRun o threads s events = some g) :
    Capped (snapshot s) g := by
  refine foldlM_invariant (fun _ _ _ _ hc hs => stepped_capped hc (stepped_of_gcStep hs)) ?_ hr
  exact ⟨fun w hw => spawn_stop_lt hw, fun q e he => by cases he⟩

/-- Key number `2 ^ 31 - 1` of a partition is never moved. -/
theorem few_of_moved {events : List Event} (hr : gcRun o threads s events = some g) {q : Fin 4}
    (hm : ∀ e ∈ (snapshot s).keys q, e.1 ∈ (g.moved q).map Prod.fst) :
    ((snapshot s).keys q).length < 2 ^ 31 := by
  by_contra hge
  have hlen : 2 ^ 31 - 1 < ((snapshot s).keys q).length := by omega
  have hlast := List.getElem?_eq_getElem hlen
  obtain ⟨c, hc, hce⟩ := List.mem_map.mp (hm _ (List.getElem_mem hlen))
  obtain ⟨i, hi, hic⟩ := (gcRun_capped hr).reached q c hc
  have hlen' : i < (((snapshot s).keys q).map Prod.fst).length := by
    rw [List.length_map]
    omega
  refine absurd ((List.getElem?_inj hlen' (snapshot_nodup s q) (j := 2 ^ 31 - 1)).mp ?_) hi.ne
  rw [List.getElem?_map, List.getElem?_map, hic, hlast, Option.map_some, Option.map_some, hce]

/-- A job size that is not positive as an `int` makes a single worker skip
its whole key list. -/
theorem spawn_one_finished {n : Nat} (hn : int32 n ≤ 0) : ∀ w ∈ spawn 1 n, w.finished := by
  intro w hw
  have hle : int32 (0 + int32 n) ≤ 0 := by
    rw [zero_add, int32, int32, Int.bmod_bmod]
    exact hn
  rw [spawn, jobs, List.map_singleton, List.mem_singleton] at hw
  rw [hw]
  simpa [Worker.finished] using hle

theorem foldlM_join (hf : ∀ ps, ∀ w ∈ nextWorkers threads snap ps, w.finished)
    (ps : List (Fin 4)) (hp : g.parts = ps) (hw : g.workers = nextWorkers threads snap ps) :
    (List.replicate ps.length Event.join).foldlM (gcStep o threads snap) g =
      some { g with parts := [], workers := [] } := by
  induction ps generalizing g with
  | nil =>
    obtain ⟨parts, index, sessions, workers, moved⟩ := g
    cases hp
    cases hw
    rfl
  | cons p ps ih =>
    rw [List.length_cons, List.replicate_succ, List.foldlM_cons, gcStep_join hp (hw ▸ hf _)]
    exact ih rfl rfl

theorem gcRun_skip (hn : ∀ q, int32 ((snapshot s).keys q).length ≤ 0) :
    gcRun o 1 s (List.replicate 4 .join) =
      some { gcStart 1 s with parts := [], workers := [] } := by
  have hf : ∀ ps, ∀ w ∈ nextWorkers 1 (snapshot s) ps, w.finished := by
    intro ps w hw
    cases ps with
    | nil => cases hw
    | cons p ps => exact spawn_one_finished (hn p) w hw
  exact foldlM_join hf (gcStart 1 s).parts rfl rfl

theorem skip_resolved {k : Key} {r : Record} (hi : s.index[k]? = some r) :
    resolved (gcFinish o { gcStart 1 s with parts := [], workers := [] }) k = some [] := by
  have hl : (gcFinish o { gcStart 1 s with parts := [], workers := [] }).log k =
      (newSession (s.log k)).log := if_pos (flush_offset _)
  have hx : (gcFinish o { gcStart 1 s with parts := [], workers := [] }).index[k]? = some r := hi
  rw [resolved, hx, hl, newSession_contents]
  simp [slice]

def putAll (f : Nat → Key) (n : Nat) : List Op := (List.range n).map (fun i => .put (f i) [1])

theorem putAll_succ (f : Nat → Key) (n : Nat) :
    putAll f (n + 1) = putAll f n ++ [.put (f n) [1]] := by
  rw [putAll, List.range_succ, List.map_append]
  rfl

theorem putAll_small (f : Nat → Key) (n : Nat) : ∀ op ∈ putAll f n, op.Small := by
  intro op hop
  obtain ⟨i, -, rfl⟩ := List.mem_map.mp hop
  exact (by decide : 1 ≤ pageSize)

theorem putAll_index {f : Nat → Key} (hf : Function.Injective f) (mem : Fin 4 → Nat → UInt8)
    (n : Nat) :
    ((putAll f n).foldl (step o) (openFresh o mem)).index.size = n ∧
      ∀ k, k ∈ ((putAll f n).foldl (step o) (openFresh o mem)).index ↔ ∃ i < n, f i = k := by
  induction n with
  | zero => simp [putAll, openFresh]
  | succ n ih =>
    obtain ⟨hsize, hmem⟩ := ih
    have hnew : f n ∉ ((putAll f n).foldl (step o) (openFresh o mem)).index := by
      rw [hmem]
      rintro ⟨i, hi, he⟩
      exact absurd (hf he) hi.ne
    obtain ⟨r, hr⟩ := put_index o ((putAll f n).foldl (step o) (openFresh o mem)) (f n) [1]
    rw [putAll_succ, List.foldl_append, List.foldl_cons, List.foldl_nil,
      Sequential.step, hr]
    constructor
    · rw [Std.ExtTreeMap.size_insert, if_neg (mt Std.ExtTreeMap.mem_iff_contains.mpr hnew), hsize]
    · intro k
      rw [Std.ExtTreeMap.mem_insert, Std.LawfulEqOrd.compare_eq_iff_eq, hmem,
        Nat.exists_lt_succ_right, or_comm]

theorem putAll_keys {f : Nat → Key} (hf : Function.Injective f) {p : Fin 4}
    (hp : ∀ i, partition (f i) = p) (mem : Fin 4 → Nat → UInt8) (n : Nat) (q : Fin 4) :
    ((snapshot ((putAll f n).foldl (step o) (openFresh o mem))).keys q).length =
      if q = p then n else 0 := by
  obtain ⟨hsize, hmem⟩ := putAll_index (o := o) hf mem n
  have hpart : ∀ e ∈ ((putAll f n).foldl (step o) (openFresh o mem)).index.toList,
      partition e.1 = p := by
    intro e he
    have hi := Std.ExtTreeMap.mem_toList_iff_getElem?_eq_some.mp he
    obtain ⟨i, -, hi⟩ := (hmem e.1).mp (by
      rw [Std.ExtTreeMap.mem_iff_isSome_getElem?, hi]
      rfl)
    rw [← hi, hp]
  simp only [snapshot]
  split
  · rename_i hq
    rw [List.filter_eq_self.mpr, Std.ExtTreeMap.length_toList, hsize]
    intro e he
    rw [hq, hpart e he]
    exact decide_eq_true rfl
  · rename_i hq
    rw [List.length_eq_zero_iff, List.filter_eq_nil_iff]
    intro e he
    rw [hpart e he, decide_eq_true_iff]
    exact Ne.symm hq

theorem putAll_resolved (hb : PageBuffer o.logBufSize) (f : Nat → Key)
    (mem : Fin 4 → Nat → UInt8) (n : Nat) :
    resolved ((putAll f (n + 1)).foldl (step o) (openFresh o mem)) (f n) = some [1] := by
  have hr := (along_of_forall (putAll_small f (n + 1))).simulates mapStep
    (fun s m => Represents o m s) (openFresh_represents o mem)
    (fun s m op h hop => step_represents hb h hop)
  rw [resolved_eq hr, putAll_succ, List.foldl_append]
  exact Function.update_self _ _ _

theorem exists_family :
    ∃ (p : Fin 4) (f : Nat → Key), Function.Injective f ∧ ∀ i, partition (f i) = p := by
  obtain ⟨p, hp⟩ := Finite.exists_infinite_fiber (fun n : Nat => partition (List.replicate n 0))
  let e := Infinite.natEmbedding
    (Set.preimage (fun n : Nat => partition (List.replicate n 0)) {p})
  refine ⟨p, fun i => List.replicate (e i).1 0, ?_, fun i => (e i).2⟩
  intro i j hij
  have hlen := congrArg List.length hij
  simp only [List.length_replicate] at hlen
  exact e.injective (Subtype.ext hlen)

end WiscKey.CollectOverflow
