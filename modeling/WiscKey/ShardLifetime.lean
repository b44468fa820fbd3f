import WiscKey.PointerRuns

namespace WiscKey.ShardLifetime

open WiscKey.CacheShard WiscKey.HandleTable WiscKey.HandleTableRuns WiscKey.Chains
open WiscKey.ShardPointers WiscKey.PointerRefinement WiscKey.PointerRuns WiscKey.Runs
open WiscKey.ShardRuns (Op Client Fits Kept)

variable {ν : Type} {m m' : Memory ν} {c : Client ν} {es r : List Slot} {ps qs : List Nat}
  {fuel : Nat}

def without (m : Memory ν) (ps : List Nat) : Memory ν :=
  { m with heap := fun p => if p ∈ ps then none else m.heap p, freed := m.freed ++ ps }

theorem without_nil (m : Memory ν) : without m [] = m := by
  simp [without]

theorem without_append (m : Memory ν) (ps qs : List Nat) :
    without (without m ps) qs = without m (ps ++ qs) := by
  simp only [without, List.append_assoc, Memory.mk.injEq, and_true, true_and]
  funext p
  by_cases hp : p ∈ ps
  · simp [hp]
  · simp [hp]

theorem free_eq {p : Nat} (hp : (m.heap p).isSome) : m.free p = some (without m [p]) := by
  obtain ⟨a, ha⟩ := Option.isSome_iff_exists.mp hp
  rw [Memory.free, ha]
  refine congrArg some ?_
  simp only [without, Memory.mk.injEq, and_true, true_and]
  funext q
  by_cases hq : q = p
  · simp [hq]
  · simp [hq]

theorem without_alive {p : Nat} (hp : p ∉ ps) (ha : (m.heap p).isSome) :
    ((without m ps).heap p).isSome := by
  simpa only [without, if_neg hp] using ha

theorem freeChain_eq {head : Option Slot} (hc : Chain m.table.links.next head es)
    (hf : es.length ≤ fuel) (ha : ∀ e ∈ es, (m.heap e.ptr).isSome)
    (hd : (es.map Slot.ptr).Nodup) :
    Memory.freeChain fuel head m = some (without m (es.map Slot.ptr)) := by
  induction es generalizing head m fuel with
  | nil =>
    cases hc
    rw [List.map_nil, without_nil]
    cases fuel <;> rfl
  | cons e es ih =>
    obtain ⟨rfl, hc⟩ := hc
    obtain ⟨hae, ha⟩ := List.forall_mem_cons.mp ha
    obtain ⟨hne, hd⟩ := List.nodup_cons.mp hd
    cases fuel with
    | zero => cases hf
    | succ fuel =>
      have hrest : ∀ b ∈ es, ((without m [e.ptr]).heap b.ptr).isSome := by
        intro b hb
        refine without_alive ?_ (ha b hb)
        rw [List.mem_singleton]
        exact ne_of_mem_of_not_mem (List.mem_map_of_mem hb) hne
      rw [Memory.freeChain, free_eq hae, Option.bind_some]
      rw [ih (m := without m [e.ptr]) hc (Nat.le_of_succ_le_succ hf) hrest hd, without_append]
      rfl

theorem buckets_eq {f : Slot → UInt32} (bs : List UInt32) (hr : Filed f m.table.links r)
    (hf : r.length ≤ fuel)
    (ha : ∀ e ∈ bs.flatMap fun b => r.filter fun h => f h = b, (m.heap e.ptr).isSome)
    (hd : ((bs.flatMap fun b => r.filter fun h => f h = b).map Slot.ptr).Nodup) :
    bs.foldlM (fun m b => Memory.freeChain fuel (m.table.links.heads b) m) m =
      some (without m ((bs.flatMap fun b => r.filter fun h => f h = b).map Slot.ptr)) := by
  induction bs generalizing m with
  | nil => rw [List.flatMap_nil, List.map_nil, without_nil, List.foldlM_nil]; rfl
  | cons b bs ih =>
    rw [List.flatMap_cons, List.map_append] at hd
    rw [List.flatMap_cons] at ha
    obtain ⟨hdb, hdr, hdis⟩ := List.nodup_append.mp hd
    have hfree := freeChain_eq (hr b) ((List.length_filter_le _ _).trans hf)
      (fun e he => ha e (List.mem_append_left _ he)) hdb
    rw [List.foldlM_cons, hfree, Option.bind_eq_bind, Option.bind_some,
      ih (m := without m _) hr ?_ hdr, without_append, List.flatMap_cons, List.map_append]
    intro e he
    refine without_alive (fun hm => ?_) (ha e (List.mem_append_right _ he))
    exact hdis _ hm _ (List.mem_map_of_mem he) rfl

theorem destroy_eq {s : Shard ν} {n : Nat} (h : Refines m s [] n) (hd : Distinct s.table)
    (hf : s.table.length ≤ fuel) (ht : ∀ e ∈ s.table, ∃ a ∈ s.list, a.slot = e)
    (ho : (s.table.map Slot.ptr).Nodup) :
    ∃ ps, ps.Perm (s.table.map Slot.ptr) ∧ m.destroy fuel = some (without m ps) := by
  obtain ⟨r, hperm, hfiled⟩ := h.table
  have hall := flatMap_perm h.sized.length_ne (hd.perm hperm).nodup
  have hptr := (hall.trans hperm).map Slot.ptr
  refine ⟨_, hptr, buckets_eq _ hfiled (hperm.length_eq.trans_le hf) ?_ (hptr.nodup_iff.mpr ho)⟩
  intro e he
  obtain ⟨a, ha, rfl⟩ := ht e ((hall.trans hperm).mem_iff.mp he)
  rw [show a.slot.ptr = a.ptr from rfl, h.heap_of_mem (List.mem_append_left [] ha)]
  rfl

theorem heap_isSome {s : Shard ν} {n p : Nat} (h : Refines m s [] n) :
    (m.heap p).isSome ↔ p ∈ s.list.map Handle.ptr := by
  constructor
  · intro hs
    by_contra hp
    rw [h.heap.absent p (by rwa [List.append_nil])] at hs
    cases hs
  · intro hp
    obtain ⟨a, ha, rfl⟩ := List.mem_map.mp hp
    rw [h.heap_of_mem (List.mem_append_left [] ha)]
    rfl

/-- A shard is destroyed after any calls. No handle is freed twice. What stays
allocated are the handles that were erased and are still held, so that nothing
does when all were released. A handle that is held and was not erased is freed. -/
theorem destroy_frees (policy : Policy) (hashOf : List UInt8 → UInt32) (capacity : UInt64)
    (ops : List (Op ν)) (fuel : Nat)
    (hfit : AlongM (ShardRuns.step policy hashOf) Fits (ShardRuns.start capacity) ops)
    (hrun : ops.foldlM (ShardRuns.step policy hashOf) (ShardRuns.start capacity) = some c)
    (hn : c.shard.nextPtr ≤ 2 ^ 30) (hf : c.shard.nextPtr < fuel) :
    ∃ d m', ShardPointers.run fuel policy hashOf capacity ops = some d ∧
      d.memory.destroy fuel = some m' ∧ m'.freed.Nodup ∧
      (∀ p, (m'.heap p).isSome ↔ p ∈ c.held ∧ p ∉ c.shard.table.map Slot.ptr) ∧
      (c.held = [] → m'.freed.Perm (List.range c.shard.nextPtr)) := by
  obtain ⟨d, hd, -, k, -, hr⟩ := run_from_start policy hashOf capacity ops hfit hrun hn hf
  have hk : Kept hashOf c := hfit.keeps (fun _ _ _ _ hk hf h => ShardRuns.step_kept hk hf h)
    (ShardRuns.start_kept capacity) hrun
  have hrep := hk.represents
  have hlen := (table_length_le hk.inv.toCore).trans (list_length_le hk.inv.toCore)
  obtain ⟨ps, hps, hdes⟩ := destroy_eq hr hk.inv.keys (hlen.trans hf.le) hrep.table
    hrep.table_once
  have hsub : ∀ p ∈ ps, p ∈ c.shard.list.map Handle.ptr :=
    fun p hp => (hrep.listed p).mpr (Or.inl (hps.mem_iff.mp hp))
  have halloc := hk.inv.allocated.nodup_iff.mpr List.nodup_range
  obtain ⟨hfreed, hlist, hdis⟩ := List.nodup_append.mp halloc
  have heq : (without d.memory ps).freed = c.shard.freed ++ ps := congrArg (· ++ ps) hr.freed
  refine ⟨d, without d.memory ps, hd, hdes, ?_, ?_, ?_⟩
  · rw [heq]
    refine List.nodup_append.mpr ⟨hfreed, hps.nodup_iff.mpr hrep.table_once, ?_⟩
    exact fun a ha b hb => hdis a ha b (hsub b hb)
  · intro p
    by_cases hp : p ∈ ps
    · have hnone : (without d.memory ps).heap p = none := if_pos hp
      rw [hnone]
      exact iff_of_false Bool.false_ne_true fun h => h.2 (hps.mem_iff.mp hp)
    · have hsame : (without d.memory ps).heap p = d.memory.heap p := if_neg hp
      have ht : p ∉ c.shard.table.map Slot.ptr := fun hm => hp (hps.mem_iff.mpr hm)
      rw [hsame, heap_isSome hr, hrep.listed p, or_iff_right ht, and_iff_left ht]
  · intro hnil
    have hall : ps.Perm (c.shard.list.map Handle.ptr) := by
      refine (List.perm_ext_iff_of_nodup (hps.nodup_iff.mpr hrep.table_once) hlist).mpr fun p => ?_
      rw [hps.mem_iff, hrep.listed p, hnil]
      simp
    rw [heq]
    exact (hall.append_left c.shard.freed).trans hk.inv.allocated

def holding : List (Op Nat) :=
  [.insert [1] 10 50, .insert [2] 20 50, .insert [3] 30 50, .release 2, .erase [1]]

theorem destroy_frees_holding : ∃ (c : Client Nat) (d : Session Nat) (m' : Memory Nat),
    holding.foldlM (ShardRuns.step .fifo Hash.hashSlice) (ShardRuns.start 1000) = some c ∧
      c.held = [1, 0] ∧ ShardPointers.run 8 .fifo Hash.hashSlice 1000 holding = some d ∧
      d.memory.destroy 8 = some m' ∧ m'.freed.Nodup ∧ (m'.heap 0).isSome ∧
      m'.heap 1 = none ∧ m'.heap 2 = none := by
  have hrun : ∃ c ∈ holding.foldlM (ShardRuns.step .fifo Hash.hashSlice) (ShardRuns.start 1000),
      c.held = [1, 0] ∧ c.shard.nextPtr = 3 ∧ c.shard.table.map Slot.ptr = [2, 1] := by
    decide +kernel
  obtain ⟨c, hc, hheld, hnext, htable⟩ := hrun
  obtain ⟨d, m', hd, hdes, hfreed, hheap, -⟩ := destroy_frees .fifo Hash.hashSlice 1000 holding 8
    (by decide +kernel) hc (by rw [hnext]; decide) (by rw [hnext]; decide)
  rw [hheld, htable] at hheap
  refine ⟨c, d, m', hc, hheld, hd, hdes, hfreed, (hheap 0).mpr (by decide), ?_, ?_⟩
  · exact Option.not_isSome_iff_eq_none.mp fun h => absurd ((hheap 1).mp h) (by decide)
  · exact Option.not_isSome_iff_eq_none.mp fun h => absurd ((hheap 2).mp h) (by decide)

end WiscKey.ShardLifetime
