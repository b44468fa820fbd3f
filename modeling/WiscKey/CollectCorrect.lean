import WiscKey.CollectProgress
import WiscKey.Representation

namespace WiscKey.CollectCorrect

open WiscKey.Runs WiscKey.ValueLog WiscKey.LogLayout WiscKey.LogRecords WiscKey.LogHistory
  WiscKey.LogCoverage WiscKey.Hash WiscKey.WorkShares WiscKey.CacheQuiet WiscKey.Database
  WiscKey.Representation WiscKey.Collect WiscKey.CollectJobs WiscKey.CollectMoving
  WiscKey.CollectSteps WiscKey.CollectRun WiscKey.CollectProgress

variable {o : Options} {threads : Nat} {m : Store} {s : State} {g : Gc}

theorem mem_snapshot {p : Fin 4} {e : Key × Record} :
    e ∈ (snapshot s).keys p ↔ s.index[e.1]? = some e.2 ∧ partition e.1 = p := by
  simp only [snapshot, List.mem_filter, decide_eq_true_eq]
  exact and_congr_left' Std.ExtTreeMap.mem_toList_iff_getElem?_eq_some

theorem snapshot_nodup (s : State) (p : Fin 4) :
    (((snapshot s).keys p).map Prod.fst).Nodup := by
  refine (List.filter_sublist.map Prod.fst).nodup ?_
  rw [Std.ExtTreeMap.map_fst_toList_eq_keys]
  exact Std.ExtTreeMap.nodup_keys

def valueOf (m : Store) (k : Key) : Value := (m k).getD []

theorem snapshot_taken (h : Represents o m s) (hb : PageBuffer o.logBufSize)
    (hfew : ∀ p, ((snapshot s).keys p).length < 2 ^ 31) :
    Taken (snapshot s) (valueOf m) s.index := by
  have hst : ∀ p, ∀ e ∈ (snapshot s).keys p, m e.1 = some (valueOf m e.1) ∧
      Stored (s.logs p) e.2 (valueOf m e.1) := by
    intro p e he
    obtain ⟨hi, hp⟩ := mem_snapshot.mp he
    obtain ⟨v, hm, hs⟩ := h.stored hi
    rw [valueOf, hm, ← hp]
    exact ⟨rfl, hs⟩
  refine ⟨?_, fun p e he => (mem_snapshot.mp he).2, fun p e he => (mem_snapshot.mp he).1, hfew⟩
  intro p
  refine ⟨snapshot_nodup s p, ?_, ?_, ?_⟩
  · intro e he
    have hw := (h.layout p).toWithin
    have hl := (hst p e he).2.below.trans (flush_lba hw)
    exact cut_stored (flush_layout hb.2 (h.layout p)).toWithin
      ((hst p e he).2.grow (flush_grows hw)) hl
  · intro e he
    exact (hst p e he).2.size_eq
  · intro e he
    exact h.small e.1 _ (hst p e he).1

theorem newSession_layout {size : Nat} {l : VLog} (hs : pageSize ∣ size) (h : Layout size l) :
    Layout size (newSession l).log :=
  ⟨⟨rfl, Nat.dvd_zero _, (flush_layout hs h).buf_length, (flush_layout hs h).offset_le⟩,
    Or.inl (flush_offset l)⟩

theorem newSession_contents (l : VLog) : (newSession l).log.contents = [] := by
  simp [newSession, VLog.contents, flush_offset]

theorem gcStart_workersOf (q : Fin 4) :
    workersOf threads (snapshot s) (gcStart threads s) q =
      spawn threads ((snapshot s).keys q).length := by
  simp only [workersOf, gcStart]
  fin_cases q <;> rfl

theorem gcStart_collecting (h : Represents o m s) (hb : PageBuffer o.logBufSize)
    (hfew : ∀ p, ((snapshot s).keys p).length < 2 ^ 31) (ht : 0 < threads) :
    Collecting o threads (snapshot s) (valueOf m) s.index (gcStart threads s) := by
  refine ⟨(by decide : [(0 : Fin 4), 1, 2, 3].Nodup), fun _ hk => hk, ?_⟩
  intro q
  refine ⟨[], ?_⟩
  rw [partOf, gcStart_workersOf]
  exact spawn_moving (hfew q) ht (newSession_layout hb.2 (h.layout q)) (newSession_contents _)
    (fun e he => (mem_snapshot.mp he).1)

theorem gcStart_eventsLeft (hfew : ∀ p, ((snapshot s).keys p).length < 2 ^ 31)
    (ht : 0 < threads) :
    eventsLeft threads (snapshot s) (gcStart threads s) =
      2 * (∑ p, ((snapshot s).keys p).length) + 4 := by
  have hq : ∀ q, stepsLeft ((workersOf threads (snapshot s) (gcStart threads s) q).map
      (share ((snapshot s).keys q))) = 2 * ((snapshot s).keys q).length := by
    intro q
    rw [gcStart_workersOf, stepsLeft_idle, List.flatMap_map]
    · rw [show (fun w => (share ((snapshot s).keys q) w).todo) = todo ((snapshot s).keys q) from
        rfl, spawn_todo (hfew q) ht]
    · intro a ha
      obtain ⟨w, hw, rfl⟩ := List.mem_map.mp ha
      rw [share, spawn_pending hw]
      rfl
  rw [eventsLeft, Finset.sum_congr rfl (fun q _ => hq q), ← Finset.mul_sum]
  rfl

section Run

variable (h : Represents o m s) (hb : PageBuffer o.logBufSize)
  (hfew : ∀ p, ((snapshot s).keys p).length < 2 ^ 31) (ht : 0 < threads)

include h hb hfew

theorem gcStep_collecting {g' : Gc} {ev : Event}
    (hc : Collecting o threads (snapshot s) (valueOf m) s.index g)
    (hs : gcStep o threads (snapshot s) g ev = some g') :
    Collecting o threads (snapshot s) (valueOf m) s.index g' ∧
      eventsLeft threads (snapshot s) g = eventsLeft threads (snapshot s) g' + 1 :=
  have htaken := snapshot_taken h hb hfew
  have hstep := stepped_of_gcStep hs
  ⟨stepped_collecting hb htaken hc hstep, stepped_eventsLeft htaken hc hstep⟩

include ht

theorem gcRun_collecting {events : List Event} (hr : gcRun o threads s events = some g) :
    Collecting o threads (snapshot s) (valueOf m) s.index g :=
  foldlM_invariant (fun _ _ _ _ hc hs => (gcStep_collecting h hb hfew hc hs).1)
    (gcStart_collecting h hb hfew ht) hr

theorem gcRun_length {events : List Event} (hr : gcRun o threads s events = some g) :
    events.length ≤ 2 * (∑ p, ((snapshot s).keys p).length) + 4 := by
  have hl := foldlM_length (fun _ _ _ hc hs => gcStep_collecting h hb hfew hc hs)
    (gcStart_collecting h hb hfew ht) hr
  rw [gcStart_eventsLeft hfew ht] at hl
  omega

theorem gcRun_complete {events : List Event} (hr : gcRun o threads s events = some g) :
    ∃ more g', gcRun o threads s (events ++ more) = some g' ∧ g'.parts = [] := by
  have hnext : ∀ g, Collecting o threads (snapshot s) (valueOf m) s.index g →
      0 < eventsLeft threads (snapshot s) g →
      ∃ ev g', gcStep o threads (snapshot s) g ev = some g' := by
    intro g hc hl
    refine gcStep_exists hc ?_
    intro hp
    simp [eventsLeft, workersOf, hp, stepsLeft] at hl
  obtain ⟨more, g', hm, hz⟩ := foldlM_complete
    (fun _ _ _ hc hs => gcStep_collecting h hb hfew hc hs) hnext
    (gcRun_collecting h hb hfew ht hr)
  refine ⟨more, g', ?_, ?_⟩
  · rw [gcRun] at hr
    rw [gcRun, List.foldlM_append, hr]
    exact hm
  · rw [eventsLeft] at hz
    exact List.length_eq_zero_iff.mp (by omega)

theorem gcRun_done {events : List Event} (hr : gcRun o threads s events = some g)
    (hp : g.parts = []) (q : Fin 4) :
    ∃ done, Moving o.logBufSize ((snapshot s).keys q) (valueOf m)
      ⟨g.index, g.sessions q, g.moved q, []⟩ done ∧ (g.moved q).Perm ((snapshot s).keys q) ∧
      done.Perm ((snapshot s).keys q) := by
  obtain ⟨done, hm⟩ := (gcRun_collecting h hb hfew ht hr).moving q
  rw [partOf, workersOf, hp] at hm
  have hc := account_complete hm.account (by simp)
  exact ⟨done, hm, hc.1, hc.2⟩

theorem gcFinish_represents {events : List Event} (hr : gcRun o threads s events = some g)
    (hp : g.parts = []) : Represents o m (gcFinish o g) := by
  have hc := gcRun_collecting h hb hfew ht hr
  refine ⟨?_, fun _ => new_quietCache _ _ _, newDataCache_quiet, ?_, h.small⟩
  · intro q
    obtain ⟨done, hm, -⟩ := gcRun_done h hb hfew ht hr hp q
    exact flush_layout hb.2 hm.layout
  · intro k
    cases hi : s.index[k]? with
    | none =>
      have hd : (gcFinish o g).index[k]? = none := hc.dead k hi
      rw [hd, h.dead hi]
      exact Option.Rel.none
    | some r =>
      obtain ⟨v, hv, -⟩ := h.stored hi
      obtain ⟨done, hm, -, hd⟩ := gcRun_done h hb hfew ht hr hp (partition k)
      have hk : (k, r) ∈ done := hd.mem_iff.mpr (mem_snapshot.mpr ⟨hi, rfl⟩)
      obtain ⟨r', hr'⟩ := Option.isSome_iff_exists.mp (hm.placed _ hk)
      have hst := hm.stored k r' (Or.inl ⟨List.mem_map_of_mem (f := Prod.fst) hk, hr'⟩)
      have hf : (gcFinish o g).index[k]? = some r' := hr'
      rw [valueOf, hv] at hst
      rw [hf, hv]
      exact Option.Rel.some (hst.grow (flush_grows hm.layout.toWithin))

theorem gcRun_once {events : List Event} (hr : gcRun o threads s events = some g)
    (hp : g.parts = []) (q : Fin 4) (k : Key) :
    ((g.moved q).map Prod.fst).count k =
      if (s.index[k]?).isSome ∧ partition k = q then 1 else 0 := by
  obtain ⟨done, -, hm, -⟩ := gcRun_done h hb hfew ht hr hp q
  rw [(hm.map Prod.fst).count_eq]
  split
  · rename_i hk
    obtain ⟨r, hr⟩ := Option.isSome_iff_exists.mp hk.1
    refine List.count_eq_one_of_mem (snapshot_nodup s q) ?_
    exact List.mem_map.mpr ⟨(k, r), mem_snapshot.mpr ⟨hr, hk.2⟩, rfl⟩
  · rename_i hk
    refine List.count_eq_zero_of_not_mem ?_
    intro hm
    obtain ⟨e, he, rfl⟩ := List.mem_map.mp hm
    obtain ⟨hi, hq⟩ := mem_snapshot.mp he
    exact hk ⟨by rw [hi]; rfl, hq⟩

def LiveByte (s : State) (q : Fin 4) (x : Nat) : Prop :=
  ∃ k r, s.index[k]? = some r ∧ partition k = q ∧ r.offset ≤ x ∧ x < r.offset + r.size

theorem gcRun_bytes {events : List Event} (hr : gcRun o threads s events = some g)
    (hp : g.parts = []) (q : Fin 4) {x : Nat} (hx : x < ((gcFinish o g).logs q).file.length) :
    LiveByte (gcFinish o g) q x ∨ Padding (g.sessions q).flush.accesses x := by
  obtain ⟨done, hm, -⟩ := gcRun_done h hb hfew ht hr hp q
  have hx : x < (g.sessions q).flush.log.contents.length := by
    rw [VLog.contents, List.length_append]
    exact Nat.lt_of_lt_of_le hx (Nat.le_add_right _ _)
  obtain hx | hx := flush_covered hm.layout.toWithin hb.2 hx
  · obtain ⟨k, r, hn, hin⟩ | hpad := hm.covered x hx
    · refine Or.inl ⟨k, r, ?_, ?_, hin⟩
      · obtain ⟨-, hi⟩ | ⟨w, hw, -⟩ := hn
        · exact hi
        · cases hw
      · obtain ⟨e, he, rfl⟩ := List.mem_map.mp (hm.newRecord_mem hn)
        exact (mem_snapshot.mp he).2
    · exact Or.inr (flush_accesses hpad)
  · exact Or.inr hx

end Run

end WiscKey.CollectCorrect
