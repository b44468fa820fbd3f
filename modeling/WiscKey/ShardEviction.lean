import WiscKey.ShardRuns

namespace WiscKey.ShardEviction

open WiscKey.Evict WiscKey.CacheShard WiscKey.ShardInvariant WiscKey.ShardOps
open WiscKey.ShardHandles WiscKey.ShardWords WiscKey.ShardRuns WiscKey.Runs WiscKey.Hash

variable {ν : Type}

/-- The entry that a call creates, or that a successful lookup of an LRU shard
finds. -/
def used (policy : Policy) (hash : List UInt8 → UInt32) (c : Client ν) : Op ν → Option Nat
  | .insert key value charge =>
    let p := (insert c.shard key (hash key) value charge.toNat).2
    if p = c.shard.nextPtr then some p else none
  | .lookup key =>
    match policy with
    | .lru => (lookup .lru c.shard key (hash key)).2
    | .fifo => none
  | _ => none

/-- A shard with its clients, and the time each entry was last used. -/
structure History (ν : Type) where
  client : Client ν
  stamp : Nat → Nat
  now : Nat

def History.start (capacity : UInt64) : History ν := ⟨ShardRuns.start capacity, fun _ => 0, 0⟩

def History.step (policy : Policy) (hash : List UInt8 → UInt32) (x : History ν) (op : Op ν) :
    Option (History ν) :=
  (ShardRuns.step policy hash x.client op).map fun c =>
    { client := c
      now := x.now + 1
      stamp := match used policy hash x.client op with
        | some p => Function.update x.stamp p x.now
        | none => x.stamp }

def Ordered (x : History ν) : Prop :=
  x.client.shard.list.Pairwise fun a b => x.stamp a.ptr < x.stamp b.ptr

def idle (c : Client ν) : List (Handle ν) := c.shard.list.filter fun a => a.ptr ∉ c.held

def evicted (s s' : Shard ν) : List (Handle ν) :=
  s.list.filter fun a => a.ptr ∉ s'.list.map Handle.ptr

def MakesRoom (s : Shard ν) (charge : Nat) (r : List (Handle ν)) : Prop :=
  s.usage - total chargeWord r + charge ≤ s.capacity

structure Inserts (c : Client ν) (charge : Nat) (s' : Shard ν) (p : Nat) : Prop where
  shortest : Shortest (MakesRoom c.shard charge) (idle c) (evicted c.shard s')
  room : s'.usage ≤ s'.capacity ∨ ∀ a ∈ s'.list, a.ptr ≠ p → a.ptr ∈ c.held

variable {policy : Policy} {hash : List UInt8 → UInt32} {c : Client ν} {s : Shard ν}
  {out : Nat → Nat} {key : List UInt8} {value : ν} {charge : Nat} {x y : History ν}

theorem makeRoom_list (s : Shard ν) (charge : Nat) :
    (s.makeRoom charge).list =
        (evict Handle.totalCharge Handle.hasRefs s.capacity charge s.usage s.list).1 ∧
      (s.makeRoom charge).usage = s.usage - total Handle.totalCharge
        (evict Handle.totalCharge Handle.hasRefs s.capacity charge s.usage s.list).2 := by
  rw [Shard.makeRoom]
  split
  · exact ⟨rfl, rfl⟩
  · rename_i hn
    have he : evict Handle.totalCharge Handle.hasRefs s.capacity charge s.usage s.list =
        (s.list, []) := by
      cases s.list with
      | nil => rfl
      | cons a l => rw [evict, if_pos (Nat.le_of_not_lt hn)]
    rw [he]
    exact ⟨rfl, rfl⟩

theorem insert_cases (hs : Inv s out) (key : List UInt8) (hash : UInt32) (value : ν)
    (charge : Nat) :
    let m := s.makeRoom (s.alloc key hash value charge).totalCharge
    let r := s.insert key hash value charge
    r.1.capacity = s.capacity ∧
      ((r.2 = s.nextPtr ∧ r.1.list.map Handle.ptr = m.list.map Handle.ptr ++ [s.nextPtr] ∧
          r.1.usage = m.usage + (s.alloc key hash value charge).totalCharge) ∨
        (r.2 ∈ m.list.map Handle.ptr ∧ r.1.list.map Handle.ptr = m.list.map Handle.ptr ∧
          r.1.usage = m.usage)) := by
  have hcap : (s.makeRoom (s.alloc key hash value charge).totalCharge).capacity = s.capacity := by
    rw [Shard.makeRoom]
    split
    · rfl
    · rfl
  have hr := makeRoom_inv hs (s.alloc key hash value charge).totalCharge
  simp only [Shard.insert]
  split
  · rename_i p hf
    obtain ⟨a, ha, -, -, -, rfl⟩ := hr.toCore.find_iff.mp hf
    exact ⟨hcap, Or.inr ⟨List.mem_map_of_mem ha, modify_map _ _ _ _ fun _ => rfl, rfl⟩⟩
  · exact ⟨hcap, Or.inl ⟨rfl, by rw [List.map_append]; rfl, rfl⟩⟩

theorem hasRefs_iff (hk : Kept hash c) {a : Handle ν} (ha : a ∈ c.shard.list) :
    a.hasRefs = true ↔ a.ptr ∈ c.held := by
  rw [Handle.hasRefs, decide_eq_true_eq, hk.inv.refs_eq a ha, List.count_pos_iff]

theorem idle_eq (hk : Kept hash c) : idle c = c.shard.list.filter fun a => !a.hasRefs := by
  apply List.filter_congr
  intro a ha
  rw [Bool.eq_iff_iff, decide_eq_true_eq, Bool.not_eq_true', ← Bool.not_eq_true, hasRefs_iff hk ha]

theorem makesRoom_iff (hk : Kept hash c) {r : List (Handle ν)} (hr : r.Sublist c.shard.list)
    (charge : Nat) : MakesRoom c.shard charge r ↔
      c.shard.usage - total Handle.totalCharge r + charge ≤ c.shard.capacity := by
  have hle := total_sublist Handle.totalCharge hr
  rw [← hk.inv.usage_eq] at hle
  rw [MakesRoom, show total chargeWord r = total Handle.totalCharge r from
    total_mod _ (hle.trans_lt hk.usage_lt)]

theorem evicted_insert (hs : Inv s out) (key : List UInt8) (hash : UInt32) (value : ν)
    (charge : Nat) : evicted s (s.insert key hash value charge).1 =
      (evict Handle.totalCharge Handle.hasRefs s.capacity
        (s.alloc key hash value charge).totalCharge s.usage s.list).2 := by
  obtain ⟨-, hcases⟩ := insert_cases hs key hash value charge
  rw [← evict_filter _ _ _ _ Handle.ptr _ _ hs.ptr_nodup, ← (makeRoom_list s _).1]
  apply List.filter_congr
  intro a ha
  obtain ⟨-, hl, -⟩ | ⟨-, hl, -⟩ := hcases
  · have hne : a.ptr ≠ s.nextPtr := fun he => nextPtr_fresh hs.toCore (he ▸ List.mem_map_of_mem ha)
    rw [hl]
    simp [hne]
  · rw [hl]

theorem kept_held (hk : Kept hash c) {charge : Nat}
    (he : (evict Handle.totalCharge Handle.hasRefs c.shard.capacity charge c.shard.usage
      c.shard.list).2 = c.shard.list.filter fun a => !a.hasRefs) :
    ∀ p ∈ (c.shard.makeRoom charge).list.map Handle.ptr, p ∈ c.held := by
  intro p hp
  obtain ⟨a, ha, rfl⟩ := List.mem_map.mp hp
  rw [(makeRoom_list c.shard charge).1] at ha
  have hm := (evict_sublist ..).subset ha
  rw [← hasRefs_iff hk hm]
  by_contra hn
  have hev : a ∈ c.shard.list.filter fun a => !a.hasRefs :=
    List.mem_filter.mpr ⟨hm, by simpa using hn⟩
  rw [← he, ← evict_filter _ _ _ _ Handle.ptr _ _ hk.inv.ptr_nodup, List.mem_filter] at hev
  exact (of_decide_eq_true hev.2) (List.mem_map_of_mem ha)

theorem insert_inserts (hk : Kept hash c) (key : List UInt8) (value : ν) (charge : Nat) :
    Inserts c (c.shard.alloc key (hash key) value charge).totalCharge
      (c.shard.insert key (hash key) value charge).1
      (c.shard.insert key (hash key) value charge).2 := by
  have hshort := evict_shortest Handle.totalCharge Handle.hasRefs c.shard.capacity
    (c.shard.alloc key (hash key) value charge).totalCharge c.shard.usage c.shard.list
    hk.inv.usage_eq.ge
  obtain ⟨hcap, hcases⟩ := insert_cases hk.inv key (hash key) value charge
  obtain ⟨-, husage⟩ :=
    makeRoom_list c.shard (c.shard.alloc key (hash key) value charge).totalCharge
  refine ⟨?_, ?_⟩
  · rw [evicted_insert hk.inv, idle_eq hk]
    refine hshort.congr (fun r hr => makesRoom_iff hk ?_ _)
    exact hr.sublist.trans List.filter_sublist
  · rw [hcap]
    obtain hroom | hall := hshort.complete
    · rw [← husage] at hroom
      refine Or.inl ?_
      obtain ⟨-, -, hu⟩ | ⟨-, -, hu⟩ := hcases
      · rw [hu]
        exact hroom
      · rw [hu]
        exact Nat.le_of_add_right_le hroom
    · refine Or.inr (fun a ha hne => ?_)
      have hp : a.ptr ∈ (c.shard.insert key (hash key) value charge).1.list.map Handle.ptr :=
        List.mem_map_of_mem ha
      obtain ⟨hnew, hl, -⟩ | ⟨-, hl, -⟩ := hcases
      · rw [hl] at hp
        obtain hp | hp := List.mem_append.mp hp
        · exact kept_held hk hall a.ptr hp
        · rw [List.mem_singleton, ← hnew] at hp
          exact absurd hp hne
      · rw [hl] at hp
        exact kept_held hk hall a.ptr hp

def Stamped (l : List Nat) (stamp : Nat → Nat) (now : Nat) : Prop :=
  l.Pairwise (fun p q => stamp p < stamp q) ∧ ∀ p ∈ l, stamp p < now

variable {l l' : List Nat} {stamp : Nat → Nat} {now p : Nat}

theorem Stamped.sublist (h : Stamped l stamp now) (hl : l'.Sublist l) :
    Stamped l' stamp (now + 1) :=
  ⟨h.1.sublist hl, fun p hp => Nat.lt_succ_of_lt (h.2 p (hl.subset hp))⟩

theorem Stamped.use (h : Stamped l stamp now) (hl : l'.Sublist l) (hp : p ∉ l') :
    Stamped (l' ++ [p]) (Function.update stamp p now) (now + 1) := by
  have hold : ∀ q ∈ l', Function.update stamp p now q = stamp q :=
    fun q hq => Function.update_of_ne (ne_of_mem_of_not_mem hq hp) _ _
  refine ⟨List.pairwise_append.mpr ⟨?_, List.pairwise_singleton _ _, fun q hq r hr => ?_⟩,
    fun q hq => ?_⟩
  · refine (h.1.sublist hl).imp_of_mem (fun {q r} hq hr hlt => ?_)
    rw [hold q hq, hold r hr]
    exact hlt
  · rw [List.mem_singleton.mp hr, Function.update_self, hold q hq]
    exact h.2 q (hl.subset hq)
  · obtain hq | hq := List.mem_append.mp hq
    · rw [hold q hq]
      exact Nat.lt_succ_of_lt (h.2 q (hl.subset hq))
    · rw [List.mem_singleton.mp hq, Function.update_self]
      exact Nat.lt_succ_self now

theorem makeRoom_ptrs (s : Shard ν) (charge : Nat) :
    ((s.makeRoom charge).list.map Handle.ptr).Sublist (s.list.map Handle.ptr) := by
  rw [(makeRoom_list s charge).1]
  exact (evict_sublist ..).map _

theorem lookup_ptrs (hs : Inv s out) {hash : UInt32} {p : Nat}
    (hf : (s.lookup .lru key hash).2 = some p) :
    (s.lookup .lru key hash).1.list.map Handle.ptr =
      (others s.list p).map Handle.ptr ++ [p] := by
  rw [Shard.lookup] at hf ⊢
  cases hq : s.find key hash with
  | none =>
    rw [hq] at hf
    cases hf
  | some q =>
    rw [hq] at hf
    cases hf
    obtain ⟨a, ha, -, -, -, rfl⟩ := hs.toCore.find_iff.mp hq
    simp only [if_true]
    rw [modify_map _ _ Handle.ref Handle.ptr (fun _ => rfl)]
    simp only [Shard.toBack]
    rw [filter_ptr hs.ptr_nodup ha, List.map_append]
    rfl

theorem lookup_fifo_ptrs (s : Shard ν) (key : List UInt8) (hash : UInt32) :
    (s.lookup .fifo key hash).1.list.map Handle.ptr = s.list.map Handle.ptr := by
  rw [Shard.lookup]
  split
  · exact modify_map _ _ _ _ fun _ => rfl
  · rfl

structure Good (hash : List UInt8 → UInt32) (x : History ν) : Prop where
  kept : Kept hash x.client
  stamped : Stamped (x.client.shard.list.map Handle.ptr) x.stamp x.now

theorem step_stamped {op : Op ν} (h : Good hash x) (hf : Fits x.client op)
    (hs : x.step policy hash op = some y) :
    Stamped (y.client.shard.list.map Handle.ptr) y.stamp y.now := by
  obtain ⟨hk, hst⟩ := h
  obtain ⟨c', hc, rfl⟩ := Option.map_eq_some_iff.mp hs
  cases op with
  | insert key value charge =>
    cases hc
    have hu := hf.1
    rw [← hk.inv.usage_eq] at hu
    have he : insert x.client.shard key (hash key) value charge.toNat =
        x.client.shard.insert key (hash key) value charge.toNat := insert_eq hk.inv hu hf.2
    have hsub := makeRoom_ptrs x.client.shard
      (x.client.shard.alloc key (hash key) value charge.toNat).totalCharge
    simp only [used, he]
    obtain ⟨-, ⟨hp, hl, -⟩ | ⟨hp, hl, -⟩⟩ := insert_cases hk.inv key (hash key) value charge.toNat
    · rw [hl, if_pos hp, hp]
      exact hst.use hsub fun hm => nextPtr_fresh hk.inv.toCore (hsub.subset hm)
    · have hne : (x.client.shard.insert key (hash key) value charge.toNat).2 ≠
          x.client.shard.nextPtr :=
        fun he => nextPtr_fresh hk.inv.toCore (he ▸ hsub.subset hp)
      rw [hl, if_neg hne]
      exact hst.sublist hsub
  | lookup key =>
    cases hc
    have he : ∀ policy, lookup policy x.client.shard key (hash key) =
        x.client.shard.lookup policy key (hash key) := fun policy => lookup_eq hk.inv policy hf
    cases policy with
    | fifo =>
      simp only [used, he, lookup_fifo_ptrs]
      exact hst.sublist (List.Sublist.refl _)
    | lru =>
      simp only [used, he]
      cases hr : (x.client.shard.lookup .lru key (hash key)).2 with
      | none =>
        rw [lookup_miss hr]
        exact hst.sublist (List.Sublist.refl _)
      | some p =>
        rw [lookup_ptrs hk.inv hr]
        refine hst.use (List.filter_sublist.map _) ?_
        intro hm
        obtain ⟨a, ha, rfl⟩ := List.mem_map.mp hm
        exact (mem_others.mp ha).2 rfl
  | erase key =>
    cases hc
    have he := erase_eq hk.inv hk.usage_lt key (hash key)
    simp only [used, he]
    exact hst.sublist (erase_sublist _ _ _ Handle.ptr fun _ => rfl)
  | setCapacity capacity =>
    cases hc
    exact hst.sublist (List.Sublist.refl _)
  | release p =>
    simp only [ShardRuns.step] at hc
    split at hc
    · rename_i hp
      cases hc
      have hpos : 0 < x.client.held.count p := List.count_pos_iff.mpr hp
      simp only [used, release_eq hk.inv hpos (hk.count_lt p) hk.usage_lt]
      exact hst.sublist (release_sublist _ _ Handle.ptr fun _ => rfl)
    · cases hc

theorem step_good {op : Op ν} (h : Good hash x) (hf : Fits x.client op)
    (hs : x.step policy hash op = some y) : Good hash y := by
  refine ⟨?_, step_stamped h hf hs⟩
  obtain ⟨c', hc, rfl⟩ := Option.map_eq_some_iff.mp hs
  exact step_kept h.kept hf hc

/-- In a run whose sums fit their words the list has the order of the last use, and
an insertion evicts the shortest initial part of the idle entries that makes
room. -/
theorem insert_evicts (policy : Policy) (hash : List UInt8 → UInt32) (capacity : UInt64)
    (ops : List (Op ν)) (x : History ν) (key : List UInt8) (value : ν) (charge : UInt64)
    (hfit : AlongM (History.step policy hash) (fun x => Fits x.client) (History.start capacity) ops)
    (hrun : ops.foldlM (History.step policy hash) (History.start capacity) = some x)
    (hins : Fits x.client (.insert key value charge)) :
    Ordered x ∧ Inserts x.client
      (chargeWord (x.client.shard.alloc key (hash key) value charge.toNat))
      (insert x.client.shard key (hash key) value charge.toNat).1
      (insert x.client.shard key (hash key) value charge.toNat).2 := by
  have hg : Good hash x := by
    refine hfit.keeps (fun _ _ _ _ h hf hs => step_good h hf hs) ?_ hrun
    exact ⟨start_kept capacity, List.Pairwise.nil, fun p hp => by cases hp⟩
  have hu := hins.1
  rw [← hg.kept.inv.usage_eq] at hu
  have he : insert x.client.shard key (hash key) value charge.toNat =
      x.client.shard.insert key (hash key) value charge.toNat := insert_eq hg.kept.inv hu hins.2
  have hc : (x.client.shard.alloc key (hash key) value charge.toNat).totalCharge < sizes :=
    (Nat.le_add_left _ _).trans_lt hu
  rw [he, chargeWord_eq hc]
  exact ⟨(List.pairwise_map (f := Handle.ptr)).mp hg.stamped.1,
    insert_inserts hg.kept key value charge.toNat⟩

/-- The second entry was looked up last and the third is held, so the first one goes
and the new one stays beside the two. -/
def lookedUp : List (Op Nat) :=
  [.insert [1] 10 50, .insert [2] 20 50, .insert [3] 30 50, .release 0, .release 1, .lookup [2],
    .release 1]

theorem insert_evicts_first : ∃ x : History Nat,
    lookedUp.foldlM (History.step .lru hashSlice) (History.start 400) = some x ∧
      (evicted x.client.shard (insert x.client.shard [4] (hashSlice [4]) 40 50).1).map Handle.ptr =
        [0] ∧
      Ordered x ∧ Inserts x.client (chargeWord (x.client.shard.alloc [4] (hashSlice [4]) 40 50))
        (insert x.client.shard [4] (hashSlice [4]) 40 50).1
        (insert x.client.shard [4] (hashSlice [4]) 40 50).2 := by
  have hrun : ∃ x ∈ lookedUp.foldlM (History.step .lru hashSlice) (History.start 400),
      (evicted x.client.shard (insert x.client.shard [4] (hashSlice [4]) 40 50).1).map Handle.ptr =
        [0] ∧ Fits x.client (.insert [4] 40 50) := by
    decide +kernel
  obtain ⟨x, hx, he, hf⟩ := hrun
  refine ⟨x, hx, he, ?_⟩
  exact insert_evicts .lru hashSlice 400 lookedUp x [4] 40 50 (by decide +kernel) hx hf

def released : List (Op Nat) := [.insert [1] 10 900, .insert [2] 20 900, .release 0, .release 1]

/-- With a charge that makes the sum overflow nothing is evicted, although the shard
is over its capacity and the second entry is idle. -/
theorem insert_evicts_nothing : ∃ x : History Nat,
    released.foldlM (History.step .lru hashSlice) (History.start 1000) = some x ∧
      1000 < (insert x.client.shard [1] (hashSlice [1]) 11 18446744073709550116).1.usage ∧
      ∃ a ∈ (insert x.client.shard [1] (hashSlice [1]) 11 18446744073709550116).1.list,
        a.ptr ≠ (insert x.client.shard [1] (hashSlice [1]) 11 18446744073709550116).2 ∧
          a.ptr ∉ x.client.held := by
  have hrun : ∃ x ∈ released.foldlM (History.step .lru hashSlice) (History.start 1000),
      1000 < (insert x.client.shard [1] (hashSlice [1]) 11 18446744073709550116).1.usage ∧
      ∃ a ∈ (insert x.client.shard [1] (hashSlice [1]) 11 18446744073709550116).1.list,
        a.ptr ≠ (insert x.client.shard [1] (hashSlice [1]) 11 18446744073709550116).2 ∧
          a.ptr ∉ x.client.held := by
    decide +kernel
  obtain ⟨x, hx, h⟩ := hrun
  exact ⟨x, hx, h⟩

end WiscKey.ShardEviction
