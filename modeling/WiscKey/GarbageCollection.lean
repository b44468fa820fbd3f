import WiscKey.CollectOverflow

namespace WiscKey.GarbageCollection

open WiscKey.LogLayout WiscKey.LogHistory WiscKey.LogCoverage WiscKey.Hash WiscKey.Database
  WiscKey.Representation WiscKey.Sequential WiscKey.Collect WiscKey.CollectJobs
  WiscKey.CollectCorrect WiscKey.CollectOverflow

/-- No partition has more live keys than an `int` can count. -/
def FewKeys (s : State) : Prop := ∀ p, ((snapshot s).keys p).length < 2 ^ 31

/-- States after any calls, clean reopens and garbage collections, the latter
with few keys each. -/
inductive Reachable (o : Options) : State → Prop
  | fresh (mem : Fin 4 → Nat → UInt8) : Reachable o (openFresh o mem)
  | call {s : State} (op : Op) : Reachable o s → op.Small → Reachable o (step o s op)
  | reopen {s : State} (mem : Fin 4 → Nat → UInt8) :
      Reachable o s → Reachable o (Database.reopen o s mem)
  | collect {s s' : State} {threads : Nat} {events : List Event} : Reachable o s → 0 < threads →
      FewKeys s → vLogGarbageCollect o threads s events = some s' → Reachable o s'

/-- What a garbage collection is for: whatever the order of the threads, it
ends, it keeps the contents, it moves every live key once, and the new logs
have nothing but live values and padding. -/
structure Collects (o : Options) (threads : Nat) (s : State) : Prop where
  slices : ∀ p, (spawn threads ((snapshot s).keys p).length).flatMap
    (todo ((snapshot s).keys p)) = (snapshot s).keys p
  bounded : ∀ events g, gcRun o threads s events = some g →
    events.length ≤ 2 * (∑ p, ((snapshot s).keys p).length) + 4
  completes : ∀ events g, gcRun o threads s events = some g →
    ∃ more g', gcRun o threads s (events ++ more) = some g' ∧ g'.parts = []
  contents : ∀ events g, gcRun o threads s events = some g → g.parts = [] →
    resolved (gcFinish o g) = resolved s
  once : ∀ events g, gcRun o threads s events = some g → g.parts = [] → ∀ p k,
    ((g.moved p).map Prod.fst).count k =
      if (s.index[k]?).isSome ∧ partition k = p then 1 else 0
  bytes : ∀ events g, gcRun o threads s events = some g → g.parts = [] → ∀ p x,
    x < ((gcFinish o g).logs p).file.length →
    LiveByte (gcFinish o g) p x ∨ Padding (g.sessions p).flush.accesses x

variable {o : Options} {s : State}

theorem vLogGarbageCollect_eq_some {threads : Nat} {events : List Event} {s' : State}
    (h : vLogGarbageCollect o threads s events = some s') :
    ∃ g, gcRun o threads s events = some g ∧ g.parts = [] ∧ s' = gcFinish o g := by
  obtain ⟨g, hg, h⟩ := Option.bind_eq_some_iff.mp h
  rw [Option.ite_none_right_eq_some] at h
  exact ⟨g, hg, h.1, (Option.some.inj h.2).symm⟩

theorem reachable_represents (hb : PageBuffer o.logBufSize) (h : Reachable o s) :
    ∃ m, Represents o m s := by
  induction h with
  | fresh mem => exact ⟨_, openFresh_represents o mem⟩
  | call op _ hop ih =>
    obtain ⟨m, hm⟩ := ih
    exact ⟨_, step_represents hb hm hop⟩
  | reopen mem _ ih =>
    obtain ⟨m, hm⟩ := ih
    exact ⟨m, reopen_represents hb hm mem⟩
  | collect _ ht hfew hgc ih =>
    obtain ⟨m, hm⟩ := ih
    obtain ⟨g, hg, hp, rfl⟩ := vLogGarbageCollect_eq_some hgc
    exact ⟨m, gcFinish_represents hm hb hfew ht hg hp⟩

/-- Garbage collection does its work exactly if no partition has `2 ^ 31` live
keys. -/
theorem collects_iff (hb : PageBuffer o.logBufSize) (hs : Reachable o s) (threads : Nat)
    (ht : 0 < threads) : Collects o threads s ↔ FewKeys s := by
  constructor
  · intro hc q
    obtain ⟨events, g, hr, hp⟩ := hc.completes [] _ rfl
    refine few_of_moved hr ?_
    intro e he
    obtain ⟨hi, hq⟩ := mem_snapshot.mp he
    rw [← List.count_pos_iff, hc.once _ g hr hp q e.1, if_pos ⟨by rw [hi]; rfl, hq⟩]
    exact Nat.one_pos
  · intro hfew
    obtain ⟨m, hm⟩ := reachable_represents hb hs
    exact {
      slices := fun p => spawn_todo (hfew p) ht
      bounded := fun _ _ hr => gcRun_length hm hb hfew ht hr
      completes := fun _ _ hr => gcRun_complete hm hb hfew ht hr
      contents := fun _ _ hr hp => by
        rw [resolved_eq (gcFinish_represents hm hb hfew ht hr hp), resolved_eq hm]
      once := fun _ _ hr hp => gcRun_once hm hb hfew ht hr hp
      bytes := fun _ _ hr hp p _ hx => gcRun_bytes hm hb hfew ht hr hp p hx }

theorem collects_three :
    Collects ⟨16384, 0⟩ 2 ([Op.put [3] [1], .put [5] [2, 2], .put [6] [3]].foldl
      (Sequential.step ⟨16384, 0⟩) (openFresh ⟨16384, 0⟩ fun _ _ => 0)) :=
  (collects_iff (by decide)
    (.call (.put [6] [3]) (.call (.put [5] [2, 2]) (.call (.put [3] [1]) (.fresh _)
      (by decide)) (by decide)) (by decide)) 2 (by decide)).mpr (by unfold FewKeys; decide +kernel)

/-- With `2 ^ 31` live keys in one partition a single worker gets a negative
job size. No value reaches the new log. -/
theorem collect_loses_values :
    ∃ ops : List Op, (∀ op ∈ ops, op.Small) ∧ ∃ events s' k,
      vLogGarbageCollect ⟨16384, 0⟩ 1 (ops.foldl (Sequential.step ⟨16384, 0⟩)
        (openFresh ⟨16384, 0⟩ fun _ _ => 0)) events = some s' ∧
      resolved (ops.foldl (Sequential.step ⟨16384, 0⟩)
        (openFresh ⟨16384, 0⟩ fun _ _ => 0)) k = some [1] ∧
      resolved s' k = some [] := by
  obtain ⟨p, f, hf, hp⟩ := exists_family
  obtain ⟨n, hn⟩ : ∃ n, n + 1 = 2 ^ 31 := ⟨2 ^ 31 - 1, rfl⟩
  have hold := putAll_resolved (o := ⟨16384, 0⟩) (by decide) f (fun _ _ => 0) n
  have hneg : ∀ q, int32 ((snapshot ((putAll f (n + 1)).foldl (Sequential.step ⟨16384, 0⟩)
      (openFresh ⟨16384, 0⟩ fun _ _ => 0))).keys q).length ≤ 0 := by
    intro q
    rw [putAll_keys hf hp, hn]
    split
    · decide
    · decide
  obtain ⟨r, hr, -⟩ := Option.map_eq_some_iff.mp hold
  refine ⟨putAll f (n + 1), putAll_small f _, List.replicate 4 .join, _, f n, ?_, hold,
    skip_resolved (o := ⟨16384, 0⟩) hr⟩
  rw [vLogGarbageCollect, gcRun_skip hneg]
  rfl

end WiscKey.GarbageCollection
