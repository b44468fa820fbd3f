import WiscKey.Runs
import WiscKey.CacheTable
import WiscKey.ShardQuiet
import WiscKey.ShardWords

namespace WiscKey.ShardRuns

open WiscKey.Evict WiscKey.CacheShard WiscKey.ShardInvariant WiscKey.ShardHandles
open WiscKey.ShardWords WiscKey.CacheTable WiscKey.Hash WiscKey.Runs

variable {ν : Type}

/-- A shard and the handles its clients hold, one element for each that was
returned and has not been released. -/
structure Client (ν : Type) where
  shard : Shard ν
  held : List Nat
deriving DecidableEq

inductive Op (ν : Type) where
  | insert (key : List UInt8) (value : ν) (charge : UInt64)
  | lookup (key : List UInt8)
  | erase (key : List UInt8)
  | setCapacity (capacity : UInt64)
  | release (handle : Nat)

def start (capacity : UInt64) : Client ν := ⟨Shard.new capacity.toNat, []⟩

/-- One call. Every caller passes the hash of the key, and a handle that is not
held cannot be released. -/
def step (policy : Policy) (hash : List UInt8 → UInt32) (c : Client ν) :
    Op ν → Option (Client ν)
  | .insert key value charge =>
    let r := insert c.shard key (hash key) value charge.toNat
    some ⟨r.1, r.2 :: c.held⟩
  | .lookup key =>
    let r := lookup policy c.shard key (hash key)
    some ⟨r.1, r.2.toList ++ c.held⟩
  | .erase key => some ⟨(erase c.shard key (hash key)).1, c.held⟩
  | .setCapacity capacity => some ⟨c.shard.setCapacity capacity.toNat, c.held⟩
  | .release p => if p ∈ c.held then some ⟨release c.shard p, c.held.erase p⟩ else none

/-- What is promised of a shard. An entry is known by its address, and an entry
that is held but not in the table has been erased. -/
structure Represents (c : Client ν) : Prop where
  once : (c.shard.list.map Handle.ptr).Nodup
  table : ∀ e ∈ c.shard.table, ∃ h ∈ c.shard.list, h.slot = e
  table_once : (c.shard.table.map Slot.ptr).Nodup
  listed : ∀ p, p ∈ c.shard.list.map Handle.ptr ↔
    p ∈ c.shard.table.map Slot.ptr ∨ p ∈ c.held
  refs : ∀ h ∈ c.shard.list, h.refs = c.held.count h.ptr
  keys : (c.shard.table.map Slot.key).Nodup
  usage : c.shard.usage = total chargeWord c.shard.list
  charged : ∀ h ∈ c.shard.list, chargeWord h ≤ c.shard.usage
  alive : ∀ p ∈ c.held, p ∉ c.shard.freed
  freed : ∀ p, p < c.shard.nextPtr → p ∉ c.shard.list.map Handle.ptr →
    p ∉ c.shard.table.map Slot.ptr → c.shard.freed.count p = 1

/-- The charges of the entries do not overflow a `size_t`, and the handles of
one entry do not overflow its count. -/
def Fits (c : Client ν) : Op ν → Prop
  | .insert key _ charge =>
    total Handle.totalCharge c.shard.list + (charge.toNat + sizeofHandle - 1 + key.length) < sizes ∧
      Spare c.shard (fun p => c.held.count p) key
  | .lookup key => Spare c.shard (fun p => c.held.count p) key
  | .erase _ => True
  | .setCapacity _ => True
  | .release _ => True

instance decidableFits (c : Client ν) (op : Op ν) : Decidable (Fits c op) :=
  match op with
  | .insert _ _ _ => inferInstanceAs (Decidable (_ ∧ _))
  | .lookup key => inferInstanceAs (Decidable (Spare c.shard (fun p => c.held.count p) key))
  | .erase _ => inferInstanceAs (Decidable True)
  | .setCapacity _ => inferInstanceAs (Decidable True)
  | .release _ => inferInstanceAs (Decidable True)

structure Kept (hash : List UInt8 → UInt32) (c : Client ν) : Prop where
  inv : Inv c.shard (fun p => c.held.count p)
  usage_lt : c.shard.usage < sizes
  count_lt : ∀ p, c.held.count p < counts
  hashed : ∀ a ∈ CacheTable.listed c.shard, a.2 = hash a.1

variable {policy : Policy} {hash : List UInt8 → UInt32} {c c' : Client ν} {s : Shard ν}
  {out : Nat → Nat}

theorem count_cons_update (p : Nat) (l : List Nat) :
    (fun q => (p :: l).count q) =
      Function.update (fun q => l.count q) p (l.count p + 1) := by
  funext q
  by_cases hq : q = p
  · subst q
    simp
  · rw [Function.update_of_ne hq, List.count_cons_of_ne (Ne.symm hq)]

theorem count_erase_update (p : Nat) (l : List Nat) :
    (fun q => (l.erase p).count q) =
      Function.update (fun q => l.count q) p (l.count p - 1) := by
  funext q
  by_cases hq : q = p
  · subst q
    simp
  · rw [Function.update_of_ne hq, List.count_erase_of_ne hq]

theorem insert_count (hs : Inv s out) {key : List UInt8} {hash : UInt32} {value : ν}
    {charge : Nat} (hk : Spare s out key) :
    out (s.insert key hash value charge).2 + 1 < counts := by
  have hr := ShardOps.makeRoom_inv hs (s.alloc key hash value charge).totalCharge
  have hsub := makeRoom_list_subset s (s.alloc key hash value charge).totalCharge
  simp only [Shard.insert]
  split
  · rename_i p hf
    obtain ⟨a, ha, hc, hkey, -, rfl⟩ := hr.toCore.find_iff.mp hf
    exact hk a (hsub ha) hc hkey
  · have h0 : out s.nextPtr = 0 := by
      by_contra hp
      exact nextPtr_fresh hs.toCore (hs.pinned _ (Nat.pos_of_ne_zero hp))
    change out s.nextPtr + 1 < counts
    rw [h0]
    decide

theorem insert_usage (s : Shard ν) (key : List UInt8) (hash : UInt32) (value : ν)
    (charge : Nat) : (s.insert key hash value charge).1.usage ≤
      s.usage + (charge + sizeofHandle - 1 + key.length) := by
  have hle := makeRoom_usage_le s (s.alloc key hash value charge).totalCharge
  simp only [Shard.insert]
  split
  · exact hle.trans (Nat.le_add_right _ _)
  · exact Nat.add_le_add_right hle _

theorem lookup_usage (s : Shard ν) (policy : Policy) (key : List UInt8) (hash : UInt32) :
    (s.lookup policy key hash).1.usage = s.usage := by
  rw [Shard.lookup]
  split
  · split
    · rfl
    · rfl
  · rfl

theorem release_usage (s : Shard ν) (p : Nat) : (s.release p).usage ≤ s.usage := by
  simp only [Shard.release]
  split
  · split
    · exact Nat.sub_le _ _
    · exact Nat.le_refl _
  · exact Nat.le_refl _

theorem erase_usage (s : Shard ν) (key : List UInt8) (hash : UInt32) :
    (s.erase key hash).1.usage ≤ s.usage := by
  simp only [Shard.erase]
  split
  · split
    · simp only
      split
      · exact Nat.le_refl _
      · exact Nat.sub_le _ _
    · exact Nat.le_refl _
  · exact Nat.le_refl _

theorem lookup_found (hs : Inv s out) {key : List UInt8} {hash : UInt32} {p : Nat}
    (hf : (s.lookup policy key hash).2 = some p) (hk : Spare s out key) :
    out p + 1 < counts := by
  rw [Shard.lookup] at hf
  split at hf
  · rename_i q hq
    cases hf
    obtain ⟨a, ha, hc, hkey, -, rfl⟩ := hs.toCore.find_iff.mp hq
    exact hk a ha hc hkey
  · cases hf

theorem start_kept (capacity : UInt64) : Kept hash (start capacity : Client ν) where
  inv := ShardQuiet.new_quiet capacity.toNat
  usage_lt := by
    change 0 < sizes
    decide
  count_lt := fun _ => by
    rw [start, List.count_nil]
    decide
  hashed := by
    intro a ha
    cases ha

theorem insert_hashed {key : List UInt8} {value : ν} {charge : Nat}
    (hh : ∀ a ∈ CacheTable.listed s, a.2 = hash a.1) :
    ∀ a ∈ CacheTable.listed (s.insert key (hash key) value charge).1, a.2 = hash a.1 := by
  intro a ha
  obtain h | ⟨l, hl, -, he⟩ := insert_listed s key (hash key) value charge
  · exact hh a (h.subset ha)
  · rw [he] at ha
    obtain rfl | ha := List.mem_cons.mp ha
    · rfl
    · exact hh a (hl.subset ha)

theorem insert_kept (hk : Kept hash c) {key : List UInt8} {value : ν} {charge : UInt64}
    (hf : Fits c (.insert key value charge)) :
    Kept hash (⟨(insert c.shard key (hash key) value charge.toNat).1,
      (insert c.shard key (hash key) value charge.toNat).2 :: c.held⟩ : Client ν) := by
  have hu := hf.1
  rw [← hk.inv.usage_eq] at hu
  have he : insert c.shard key (hash key) value charge.toNat =
      c.shard.insert key (hash key) value charge.toNat := insert_eq hk.inv hu hf.2
  rw [he]
  refine ⟨?_, ?_, ?_, insert_hashed hk.hashed⟩
  · simp only [count_cons_update]
    exact insert_inv hk.inv key (hash key) value charge.toNat
  · exact lt_of_le_of_lt (insert_usage ..) hu
  · intro p
    have hp := congrFun (count_cons_update
      (c.shard.insert key (hash key) value charge.toNat).2 c.held) p
    simp only at hp ⊢
    rw [hp, Function.update_apply]
    split
    · exact insert_count hk.inv hf.2
    · exact hk.count_lt p

theorem lookup_kept (hk : Kept hash c) {key : List UInt8} (hf : Fits c (.lookup key)) :
    Kept hash (⟨(lookup policy c.shard key (hash key)).1,
      (lookup policy c.shard key (hash key)).2.toList ++ c.held⟩ : Client ν) := by
  have he : lookup policy c.shard key (hash key) = c.shard.lookup policy key (hash key) :=
    lookup_eq hk.inv policy hf
  rw [he]
  cases hr : (c.shard.lookup policy key (hash key)).2 with
  | none =>
    rw [lookup_miss hr]
    exact hk
  | some p =>
    refine ⟨?_, ?_, ?_, ?_⟩
    · simp only [Option.toList_some, List.singleton_append, count_cons_update]
      exact lookup_inv hk.inv policy hr
    · rw [lookup_usage]
      exact hk.usage_lt
    · intro q
      have hq := congrFun (count_cons_update p c.held) q
      simp only [Option.toList_some, List.singleton_append] at hq ⊢
      rw [hq, Function.update_apply]
      split
      · exact lookup_found hk.inv hr hf
      · exact hk.count_lt q
    · rw [lookup_listed]
      exact hk.hashed

theorem erase_kept (hk : Kept hash c) (key : List UInt8) :
    Kept hash (⟨(erase c.shard key (hash key)).1, c.held⟩ : Client ν) := by
  rw [erase_eq hk.inv hk.usage_lt]
  refine ⟨erase_inv hk.inv key (hash key), lt_of_le_of_lt (erase_usage ..) hk.usage_lt,
    hk.count_lt, ?_⟩
  intro a ha
  rw [erase_listed] at ha
  exact hk.hashed a (List.mem_of_mem_erase ha)

theorem release_kept (hk : Kept hash c) {p : Nat} (hp : p ∈ c.held) :
    Kept hash (⟨release c.shard p, c.held.erase p⟩ : Client ν) := by
  have hpos : 0 < c.held.count p := List.count_pos_iff.mpr hp
  rw [release_eq hk.inv hpos (hk.count_lt p) hk.usage_lt]
  refine ⟨?_, lt_of_le_of_lt (release_usage ..) hk.usage_lt, ?_, ?_⟩
  · simp only [count_erase_update]
    exact release_inv hk.inv hpos
  · exact fun q => lt_of_le_of_lt (List.erase_sublist.count_le q) (hk.count_lt q)
  · rw [release_listed]
    exact hk.hashed

theorem setCapacity_kept (hk : Kept hash c) (capacity : Nat) :
    Kept hash (⟨c.shard.setCapacity capacity, c.held⟩ : Client ν) where
  inv := ⟨⟨hk.inv.allocated, hk.inv.refs_eq, hk.inv.pinned, hk.inv.table_perm, hk.inv.keys,
    hk.inv.usage_eq⟩, hk.inv.erased⟩
  usage_lt := hk.usage_lt
  count_lt := hk.count_lt
  hashed := hk.hashed

theorem step_kept {op : Op ν} (hk : Kept hash c) (hf : Fits c op)
    (h : step policy hash c op = some c') : Kept hash c' := by
  cases op with
  | insert key value charge =>
    cases h
    exact insert_kept hk hf
  | lookup key =>
    cases h
    exact lookup_kept hk hf
  | erase key =>
    cases h
    exact erase_kept hk key
  | setCapacity capacity =>
    cases h
    exact setCapacity_kept hk capacity.toNat
  | release p =>
    simp only [step] at h
    split at h
    · cases h
      exact release_kept hk ‹_›
    · cases h

theorem mem_table_ptr (hs : Core s out) {p : Nat} :
    p ∈ s.table.map Slot.ptr ↔ ∃ h ∈ s.list, h.inCache = true ∧ h.ptr = p := by
  rw [(hs.table_perm.map Slot.ptr).mem_iff, live, List.map_map, List.mem_map]
  simp only [List.mem_filter, and_assoc]
  rfl

theorem Kept.represents (hk : Kept hash c) : Represents c where
  once := hk.inv.ptr_nodup
  table := by
    intro e he
    obtain ⟨h, hm, -, hs⟩ := mem_live.mp (hk.inv.table_perm.mem_iff.mp he)
    exact ⟨h, hm, hs⟩
  table_once := by
    rw [(hk.inv.table_perm.map Slot.ptr).nodup_iff, live, List.map_map]
    exact hk.inv.ptr_nodup.sublist ((List.filter_sublist).map Handle.ptr)
  listed := by
    intro p
    rw [mem_table_ptr hk.inv.toCore]
    constructor
    · intro hp
      obtain ⟨h, hm, rfl⟩ := List.mem_map.mp hp
      cases hc : h.inCache with
      | true => exact Or.inl ⟨h, hm, hc, rfl⟩
      | false =>
        have hr := hk.inv.erased h hm hc
        rw [hk.inv.refs_eq h hm] at hr
        exact Or.inr (List.count_pos_iff.mp hr)
    · rintro (⟨h, hm, -, rfl⟩ | hp)
      · exact List.mem_map_of_mem hm
      · exact hk.inv.pinned p (List.count_pos_iff.mpr hp)
  refs := hk.inv.refs_eq
  keys := by
    have hn := hk.inv.keys
    rw [show c.shard.table.map Slot.key = (CacheTable.listed c.shard).map Prod.fst by
      rw [CacheTable.listed, List.map_map]; rfl]
    refine (List.nodup_map_iff_inj_on hn).mpr ?_
    intro a ha b hb hab
    exact Prod.ext hab (by rw [hk.hashed a ha, hk.hashed b hb, hab])
  usage := by
    exact hk.inv.usage_eq.trans (total_mod _ (hk.inv.usage_eq ▸ hk.usage_lt)).symm
  charged := by
    intro h hm
    have ht := total_perm Handle.totalCharge (split_perm hk.inv.toCore hm)
    rw [total_cons, ← hk.inv.usage_eq] at ht
    exact (Nat.mod_le _ _).trans (by omega)
  alive := by
    intro p hp hf
    have hl := hk.inv.pinned p (List.count_pos_iff.mpr hp)
    have hn := hk.inv.allocated.nodup_iff.mpr List.nodup_range
    exact (List.disjoint_of_nodup_append hn) hf hl
  freed := by
    intro p hp hl _
    have hm := hk.inv.allocated.mem_iff.mpr (List.mem_range.mpr hp)
    have hn := hk.inv.allocated.nodup_iff.mpr List.nodup_range
    obtain hf | hf := List.mem_append.mp hm
    · exact List.count_eq_one_of_mem (List.nodup_append.mp hn).1 hf
    · exact absurd hf hl

/-- Whatever the calls and their order, each state reached has the promised
shape as long as the sums fit their words. -/
theorem shard_represents (policy : Policy) (hash : List UInt8 → UInt32) (capacity : UInt64)
    (ops : List (Op ν)) (c : Client ν)
    (hfit : AlongM (step policy hash) Fits (start capacity) ops)
    (hrun : ops.foldlM (step policy hash) (start capacity) = some c) : Represents c := by
  have hk : Kept hash c :=
    hfit.keeps (fun _ _ _ _ hk hf h => step_kept hk hf h) (start_kept capacity) hrun
  exact hk.represents

/-- An erased entry that is still held, a new entry for its key, a refused
duplicate, and an eviction. -/
theorem shard_represents_pinned : ∃ c : Client Nat,
    [.insert [1] 10 50, .insert [2] 20 50, .release 1, .lookup [1], .erase [1],
      .insert [1] 11 50, .insert [1] 12 50, .release 0].foldlM (step .lru hashSlice)
        (start 300) = some c ∧
      c.held = [2, 2, 0] ∧ c.shard.freed = [1, 3] ∧ Represents c := by
  have hrun : ∃ c ∈ [.insert [1] 10 50, .insert [2] 20 50, .release 1, .lookup [1], .erase [1],
      .insert [1] 11 50, .insert [1] 12 50, .release 0].foldlM (step .lru hashSlice)
        (start 300 : Client Nat), c.held = [2, 2, 0] ∧ c.shard.freed = [1, 3] := by
    decide +kernel
  obtain ⟨c, hc, hheld, hfreed⟩ := hrun
  refine ⟨c, hc, hheld, hfreed, ?_⟩
  exact shard_represents .lru hashSlice 300 _ c (by decide +kernel) hc

/-- Two charges whose sum does not fit a `size_t`. The release that comes next
would find `usage_` below the charge of its entry. -/
theorem usage_wraps : ∃ c : Client Nat,
    [.insert [1] 10 9223372036854775808, .insert [2] 20 9223372036854775808,
      .erase [1]].foldlM (step .lru hashSlice) (start 1000) = some c ∧
      (∃ h ∈ c.shard.list, h.ptr ∈ c.held ∧ h.inCache = false ∧
        c.shard.usage < chargeWord h) ∧ ¬ Represents c := by
  have hrun : ∃ c ∈ [.insert [1] 10 9223372036854775808, .insert [2] 20 9223372036854775808,
      .erase [1]].foldlM (step .lru hashSlice) (start 1000 : Client Nat),
      (∃ h ∈ c.shard.list, h.ptr ∈ c.held ∧ h.inCache = false ∧
        c.shard.usage < chargeWord h) ∧ c.shard.usage ≠ total chargeWord c.shard.list := by
    decide +kernel
  obtain ⟨c, hc, hlow, husage⟩ := hrun
  exact ⟨c, hc, hlow, fun h => husage h.usage⟩

end WiscKey.ShardRuns
