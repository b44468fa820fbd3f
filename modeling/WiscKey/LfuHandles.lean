import WiscKey.LfuRuns

namespace WiscKey.LfuHandles

open WiscKey.CacheShard WiscKey.LfuCache WiscKey.LfuRing WiscKey.LfuRuns WiscKey.ShardInvariant
open WiscKey.Runs WiscKey.Hash
open WiscKey.ShardRuns (Op)

variable {ν : Type} {x : Client ν}

/-- The handles of an LFU shard. An address that was handed out has been freed
once or is listed once. -/
structure Owned (x : Client ν) : Prop where
  allocated : (x.shard.freed ++ x.shard.listed.map fun h => h.ptr).Perm
    (List.range x.shard.nextPtr)
  refs : ∀ h ∈ x.shard.listed, h.refs = x.held.count h.ptr
  alive : ∀ p ∈ x.held, p ∉ x.shard.freed ∧ ∃ h ∈ x.shard.listed, h.ptr = p
  table : ∀ e ∈ x.shard.table, ∃ h ∈ x.shard.listed, h.slot = e
  erased : ∀ h ∈ x.shard.listed, h.slot ∉ x.shard.table → h.ptr ∈ x.held
  keys : ∀ e ∈ x.shard.table, ∀ f ∈ x.shard.table, e.key = f.key → e.hash = f.hash → e = f

theorem mem_plain {s : LfuShard ν} {a : Handle ν} (ha : a ∈ (plain s).list) :
    ∃ h ∈ s.listed, h.toHandle = a :=
  List.mem_map.mp ha

theorem owned_of_kept (hk : Kept x) : Owned x where
  allocated := by
    change (x.shard.freed ++ ptrs x.shard.listed).Perm _
    rw [← plain_ptrs]
    exact hk.inv.allocated
  refs := by
    intro h hm
    exact hk.inv.refs_eq h.toHandle (List.mem_map_of_mem hm)
  alive := by
    intro p hp
    have hpin := hk.inv.pinned p (List.count_pos_iff.mpr hp)
    have hn := hk.inv.allocated.nodup_iff.mpr List.nodup_range
    refine ⟨fun hf => (List.disjoint_of_nodup_append hn) hf hpin, ?_⟩
    obtain ⟨a, ha, rfl⟩ := List.mem_map.mp hpin
    obtain ⟨h, hm, rfl⟩ := mem_plain ha
    exact ⟨h, hm, rfl⟩
  table := by
    intro e he
    obtain ⟨a, ha, -, rfl⟩ := mem_live.mp (hk.inv.table_perm.mem_iff.mp he)
    obtain ⟨h, hm, rfl⟩ := mem_plain ha
    exact ⟨h, hm, rfl⟩
  erased := by
    intro h hm ht
    have hl : h.toHandle ∈ (plain x.shard).list := List.mem_map_of_mem hm
    have hc : h.toHandle.inCache = false := by
      by_contra hc
      have hlive := mem_live.mpr ⟨h.toHandle, hl, Bool.not_eq_false _ ▸ hc, rfl⟩
      exact ht (hk.inv.table_perm.mem_iff.mpr hlive)
    have hr := hk.inv.erased h.toHandle hl hc
    rw [hk.inv.refs_eq h.toHandle hl] at hr
    exact List.count_pos_iff.mp hr
  keys := by
    intro e he f hf hkey hhash
    exact hk.inv.slot_inj he hf (Prod.ext hkey hhash)

/-- Whatever the calls and their order, they all return, and the handles that the
clients hold are the ones the shard counts. -/
theorem lfu_owned (hash : List UInt8 → UInt32) (capacity : UInt64) (ops : List (Op ν))
    (h : AlongM (step hash) (Allowed hash) (start capacity) ops) :
    ∃ x, ops.foldlM (step hash) (start capacity) = some x ∧ Owned x := by
  obtain ⟨x, hx, hk⟩ := run_kept h
  exact ⟨x, hx, owned_of_kept hk⟩

def contended : List (Op Nat) :=
  [.insert [1] 10 200, .insert [2] 20 200, .release 0, .insert [3] 30 500, .erase [2],
    .insert [2] 21 100, .insert [2] 22 100]

theorem lfu_owned_contended : ∃ x : Client Nat,
    contended.foldlM (step hashSlice) (start 1000) = some x ∧ x.held = [3, 3, 2, 1] ∧
      x.shard.freed = [0, 4] ∧ Owned x := by
  have hrun : ∃ x ∈ contended.foldlM (step hashSlice) (start 1000),
      x.held = [3, 3, 2, 1] ∧ x.shard.freed = [0, 4] := by
    decide +kernel
  obtain ⟨x, hx, hheld, hfreed⟩ := hrun
  obtain ⟨y, hy, ho⟩ := lfu_owned hashSlice 1000 contended (by decide +kernel)
  obtain rfl := Option.some.inj (hx.symm.trans hy)
  exact ⟨x, hx, hheld, hfreed, ho⟩

end WiscKey.LfuHandles
