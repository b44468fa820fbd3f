import WiscKey.LfuOps
import WiscKey.ShardRuns

namespace WiscKey.LfuRuns

open WiscKey.Evict WiscKey.CacheShard WiscKey.FrequencyList WiscKey.LfuCache WiscKey.LfuRing
open WiscKey.LfuOps WiscKey.ShardOps WiscKey.ShardInvariant WiscKey.ShardHandles WiscKey.Runs
open WiscKey.Hash
open WiscKey.ShardWords (sizes counts)
open WiscKey.ShardRuns (Op count_cons_update count_erase_update)

variable {ν : Type}

/-- A shard and the handles its clients hold, with the entry that each lookup or
repeated insertion so far has hit. -/
structure Client (ν : Type) where
  shard : LfuShard ν
  held : List Nat
  hits : List Nat

def start (capacity : UInt64) : Client ν := ⟨LfuShard.new capacity.toNat, [], []⟩

/-- The entry that a call hits. An insertion makes room before it looks. -/
def accessed (hash : List UInt8 → UInt32) (x : Client ν) : Op ν → Option Nat
  | .insert key value charge =>
    (x.shard.makeRoom (x.shard.alloc key (hash key) value charge.toNat).toHandle).find key
      (hash key)
  | .lookup key => x.shard.find key (hash key)
  | .erase _ => none
  | .setCapacity _ => none
  | .release _ => none

/-- One call. There is no result if it releases a handle that is not held, or reads a
handle or a node that was given back. -/
def step (hash : List UInt8 → UInt32) (x : Client ν) (op : Op ν) : Option (Client ν) :=
  let hits := (accessed hash x op).toList ++ x.hits
  match op with
  | .insert key value charge =>
    (x.shard.insert key (hash key) value charge.toNat).map fun r => ⟨r.1, r.2 :: x.held, hits⟩
  | .lookup key =>
    (x.shard.lookup key (hash key)).map fun r => ⟨r.1, r.2.toList ++ x.held, hits⟩
  | .erase key => (x.shard.erase key (hash key)).map fun r => ⟨r.1, x.held, hits⟩
  | .setCapacity capacity => some ⟨x.shard.setCapacity capacity.toNat, x.held, hits⟩
  | .release p =>
    if p ∈ x.held then (x.shard.release p).map fun r => ⟨r, x.held.erase p, hits⟩ else none

/-- Only handles that are held are released, and an entry is hit fewer than
`2 ^ 32 - 1` times. -/
def Allowed (hash : List UInt8 → UInt32) (x : Client ν) (op : Op ν) : Prop :=
  (match op with
    | .release p => p ∈ x.held
    | _ => True) ∧
  ∀ p ∈ accessed hash x op, x.hits.count p + 1 < counts - 1

instance decidableAllowed (hash : List UInt8 → UInt32) (x : Client ν) (op : Op ν) :
    Decidable (Allowed hash x op) :=
  match op with
  | .release _ => inferInstanceAs (Decidable (_ ∧ _))
  | .insert _ _ _ => inferInstanceAs (Decidable (_ ∧ _))
  | .lookup _ => inferInstanceAs (Decidable (_ ∧ _))
  | .erase _ => inferInstanceAs (Decidable (_ ∧ _))
  | .setCapacity _ => inferInstanceAs (Decidable (_ ∧ _))

def Fits (x : Client ν) (h : Handle ν) : Prop :=
  charges x.shard.listed + totalCharge h < sizes

/-- The charges still fit with that of an entry to insert. -/
def Sized (hash : List UInt8 → UInt32) (x : Client ν) : Op ν → Prop
  | .insert key value charge => Fits x (x.shard.alloc key (hash key) value charge.toNat).toHandle
  | .lookup _ => True
  | .erase _ => True
  | .setCapacity _ => True
  | .release _ => True

instance decidableSized (hash : List UInt8 → UInt32) (x : Client ν) (op : Op ν) :
    Decidable (Sized hash x op) :=
  match op with
  | .insert _ _ _ => inferInstanceAs (Decidable (_ < _))
  | .lookup _ => isTrue trivial
  | .erase _ => isTrue trivial
  | .setCapacity _ => isTrue trivial
  | .release _ => isTrue trivial

/-- What is promised of the frequency list. The nodes are those behind the
sentinel. -/
structure Frequencies (x : Client ν) : Prop where
  sentinel : x.shard.ring.head? = some ⟨freqList, 0, []⟩
  increasing : (x.shard.ring.tail.map Node.frequency).Pairwise (· < ·)
  positive : ∀ n ∈ x.shard.ring.tail, 1 ≤ n.frequency
  filed : ∀ e ∈ x.shard.table, ∃ n ∈ x.shard.ring.tail, ∃ h ∈ n.entries, h.slot = e ∧
    h.parent = some n.id ∧ n.id ∉ x.shard.deleted ∧ n.frequency = 1 + x.hits.count e.ptr
  once : ∀ e ∈ x.shard.table, (x.shard.listed.map fun h => h.ptr).count e.ptr = 1
  usage : x.shard.usage = total (fun h => chargeWord h.toHandle) x.shard.listed

def Light (x : Client ν) : Prop := charges x.shard.listed < sizes

structure Kept (x : Client ν) : Prop where
  inv : Inv (plain x.shard) fun p => x.held.count p
  filed : Filed x.hits x.shard
  charged : Charged x.shard
  counted : ∀ p, x.held.count p ≤ x.hits.count p + 1
  bounded : ∀ p, x.hits.count p + 1 < counts
  fresh : ∀ p, x.shard.nextPtr ≤ p → x.hits.count p = 0

variable {hash : List UInt8 → UInt32} {x y : Client ν}

theorem start_kept (capacity : UInt64) : Kept (start capacity : Client ν) where
  inv := ShardQuiet.new_quiet capacity.toNat
  filed := ⟨rfl, List.pairwise_singleton _ _, List.Perm.refl _, by
    intro n hn a ha
    rw [List.mem_singleton.mp hn] at ha
    cases ha⟩
  charged := rfl
  counted := fun _ => Nat.zero_le _
  bounded := fun _ => by
    rw [start, List.count_nil]
    decide
  fresh := fun _ _ => rfl

theorem start_light (capacity : UInt64) : Light (start capacity : Client ν) :=
  show 0 < sizes by decide

theorem find_lt {s : LfuShard ν} {out : Nat → Nat} (hs : Core (plain s) out) {key : List UInt8}
    {hash : UInt32} {p : Nat} (hfind : s.find key hash = some p) : p < s.nextPtr := by
  obtain ⟨a, ha, -, -, -, rfl⟩ :=
    hs.find_iff.mp (show (plain s).find key hash = some p from hfind)
  exact List.mem_range.mp (hs.allocated.mem_iff.mp
    (List.mem_append_right s.freed (List.mem_map_of_mem ha)))

theorem erase_nextPtr (s : Shard ν) (key : List UInt8) (hash : UInt32) :
    (s.erase key hash).1.nextPtr = s.nextPtr := by
  simp only [Shard.erase]
  split
  · split
    · simp only
      split
      · rfl
      · rfl
    · rfl
  · rfl

theorem release_nextPtr (s : Shard ν) (p : Nat) : (s.release p).nextPtr = s.nextPtr := by
  simp only [Shard.release]
  split
  · split
    · rfl
    · rfl
  · rfl

theorem Kept.hit (hk : Kept x) {s : LfuShard ν} {p : Nat}
    (hinv : Inv (plain s) (Function.update (fun q => x.held.count q) p (x.held.count p + 1)))
    (hf : Filed (p :: x.hits) s) (hc : Charged s) (hn : x.shard.nextPtr ≤ s.nextPtr)
    (hp : p < x.shard.nextPtr) (hlt : x.hits.count p + 1 < counts - 1) :
    Kept ⟨s, p :: x.held, p :: x.hits⟩ where
  inv := by
    rw [← count_cons_update] at hinv
    exact hinv
  filed := hf
  charged := hc
  counted := by
    intro q
    have hq := hk.counted q
    simp only [List.count_cons]
    omega
  bounded := by
    intro q
    by_cases hq : p = q
    · subst q
      rw [List.count_cons_self]
      omega
    · rw [List.count_cons_of_ne hq]
      exact hk.bounded q
  fresh := by
    intro q hq
    have hlt : x.shard.nextPtr ≤ q := hn.trans hq
    rw [List.count_cons_of_ne (by omega)]
    exact hk.fresh q hlt

theorem charges_hit {r m : LfuShard ν} {p : Nat}
    (hl : (plain r).list.Perm ((plain m).modify p Handle.ref).list) :
    charges r.listed = charges m.listed := by
  rw [← plain_charges, total_perm totalCharge hl, total,
    modify_map (plain m) p Handle.ref totalCharge fun _ => rfl, ← plain_charges, total]

theorem insert_kept (hk : Kept x) {key : List UInt8} {value : ν} {charge : UInt64}
    (ha : Allowed hash x (.insert key value charge)) :
    ∃ y, step hash x (.insert key value charge) = some y ∧ Kept y ∧
      charges y.shard.listed ≤ charges x.shard.listed +
        totalCharge (x.shard.alloc key (hash key) value charge.toNat).toHandle := by
  have hacc := ha.2
  obtain ⟨-, ev, htakes⟩ := makeRoom_takes hk.filed
    (x.shard.alloc key (hash key) value charge.toNat).toHandle
  have hle := htakes.charges_le
  simp only [step]
  cases hfind : accessed hash x (.insert key value charge) with
  | some p =>
    have hlt := hacc p hfind
    have hc := hk.counted p
    obtain ⟨r, hr, hf, hins, -, hlist⟩ := insert_hit hk.inv hk.filed hk.charged rfl hfind
      (by omega) (show x.held.count p + 1 < counts by omega)
    have hp := find_lt (htakes.inv hk.inv).toCore hfind
    rw [htakes.nextPtr] at hp
    rw [hr]
    refine ⟨_, rfl, hk.hit hins.inv hf hins.charged (hins.nextPtr ▸ Nat.le_succ _) hp hlt, ?_⟩
    rw [charges_hit hlist]
    exact hle.trans (Nat.le_add_right _ _)
  | none =>
    obtain ⟨r, hr, hf, hins, -, hlist⟩ := insert_new hk.inv hk.filed hk.charged rfl hfind
      (hk.fresh _ le_rfl)
    have h0 : x.held.count x.shard.nextPtr = 0 := by
      by_contra hp
      exact nextPtr_fresh hk.inv.toCore (hk.inv.pinned _ (Nat.pos_of_ne_zero hp))
    have hinv := hins.inv
    rw [← count_cons_update] at hinv
    rw [hr]
    refine ⟨_, rfl, ⟨hinv, hf, hins.charged, ?_, hk.bounded, ?_⟩, ?_⟩
    · intro q
      have hq := hk.counted q
      by_cases he : x.shard.nextPtr = q
      · subst q
        simp only [List.count_cons_self, h0]
        omega
      · simp only [List.count_cons_of_ne he]
        exact hq
    · intro q hq
      have hq' : r.nextPtr ≤ q := hq
      rw [hins.nextPtr] at hq'
      exact hk.fresh q (by omega)
    · rw [← plain_charges, total_perm totalCharge hlist, total_append, plain_charges]
      exact Nat.add_le_add_right hle _

theorem lookup_kept (hk : Kept x) {key : List UInt8} (ha : Allowed hash x (.lookup key)) :
    ∃ y, step hash x (.lookup key) = some y ∧ Kept y ∧
      charges y.shard.listed ≤ charges x.shard.listed := by
  have hacc := ha.2
  simp only [step]
  cases hfind : accessed hash x (.lookup key) with
  | some p =>
    have hlt := hacc p hfind
    have hc := hk.counted p
    obtain ⟨r, hr, hf, hcr, hinv, hn, hlist⟩ := lookup_filed hk.inv hk.filed hk.charged hfind
      (by omega) (show x.held.count p + 1 < counts by omega)
    rw [hr]
    exact ⟨_, rfl, hk.hit hinv hf hcr hn.ge (find_lt hk.inv.toCore hfind) hlt,
      (charges_hit hlist).le⟩
  | none =>
    have hr : x.shard.lookup key (hash key) = some (x.shard, none) := by
      rw [LfuShard.lookup, show x.shard.find key (hash key) = none from hfind]
    rw [hr]
    exact ⟨_, rfl, hk, le_rfl⟩

theorem charges_sublist {t : LfuShard ν} {s' : Shard ν} (hal : Alike (plain t) s')
    (hl : (s'.list.map totalCharge).Sublist ((plain x.shard).list.map totalCharge)) :
    charges t.listed ≤ charges x.shard.listed := by
  rw [← plain_charges, ← plain_charges, total_perm totalCharge hal.list]
  exact hl.sum_le_sum fun _ _ => Nat.zero_le _

theorem erase_kept (hk : Kept x) (key : List UInt8) :
    ∃ y, step hash x (.erase key) = some y ∧ Kept y ∧
      charges y.shard.listed ≤ charges x.shard.listed := by
  obtain ⟨t, b, ht, hf, hc, hal⟩ := erase_filed hk.inv hk.filed hk.charged key (hash key)
  simp only [step, ht, Option.map_some]
  refine ⟨_, rfl, ⟨hal.inv (erase_inv hk.inv key (hash key)) rfl, hf, hc, hk.counted, hk.bounded,
    ?_⟩, charges_sublist hal (erase_sublist _ key (hash key) totalCharge fun _ => rfl)⟩
  intro q hq
  have hn : t.nextPtr = x.shard.nextPtr := hal.nextPtr.trans (erase_nextPtr _ _ _)
  exact hk.fresh q (hn ▸ hq)

theorem release_kept (hk : Kept x) {p : Nat} (hp : p ∈ x.held) :
    ∃ y, step hash x (.release p) = some y ∧ Kept y ∧
      charges y.shard.listed ≤ charges x.shard.listed := by
  have hpos : 0 < x.held.count p := List.count_pos_iff.mpr hp
  have hlt := hk.counted p
  have hb := hk.bounded p
  obtain ⟨t, ht, hf, hc, hal⟩ := release_filed hk.inv hk.filed hk.charged hpos
    (show x.held.count p < counts by omega)
  simp only [step, if_pos hp, ht, Option.map_some]
  have hinv := hal.inv (release_inv hk.inv hpos) rfl
  rw [← count_erase_update] at hinv
  refine ⟨_, rfl, ⟨hinv, hf, hc, ?_, hk.bounded, ?_⟩,
    charges_sublist hal (release_sublist _ p totalCharge fun _ => rfl)⟩
  · intro q
    exact (List.erase_sublist.count_le q).trans (hk.counted q)
  · intro q hq
    have hn : t.nextPtr = x.shard.nextPtr := hal.nextPtr.trans (release_nextPtr _ _)
    exact hk.fresh q (hn ▸ hq)

theorem step_kept (hk : Kept x) {op : Op ν} (ha : Allowed hash x op) :
    ∃ y, step hash x op = some y ∧ Kept y ∧ (Light x → Sized hash x op → Light y) := by
  cases op with
  | insert key value charge =>
    obtain ⟨y, hy, hky, hle⟩ := insert_kept hk ha
    exact ⟨y, hy, hky, fun _ hs => hle.trans_lt hs⟩
  | lookup key =>
    obtain ⟨y, hy, hky, hle⟩ := lookup_kept hk ha
    exact ⟨y, hy, hky, fun hl _ => hle.trans_lt hl⟩
  | erase key =>
    obtain ⟨y, hy, hky, hle⟩ := erase_kept hk key
    exact ⟨y, hy, hky, fun hl _ => hle.trans_lt hl⟩
  | setCapacity capacity =>
    refine ⟨_, rfl, ⟨⟨⟨hk.inv.allocated, hk.inv.refs_eq, hk.inv.pinned, hk.inv.table_perm,
      hk.inv.keys, hk.inv.usage_eq⟩, hk.inv.erased⟩, hk.filed, hk.charged, hk.counted, hk.bounded,
      hk.fresh⟩, fun hl _ => hl⟩
  | release p =>
    obtain ⟨y, hy, hky, hle⟩ := release_kept hk ha.1
    exact ⟨y, hy, hky, fun hl _ => hle.trans_lt hl⟩

theorem run_kept {capacity : UInt64} {ops : List (Op ν)}
    (h : AlongM (step hash) (Allowed hash) (start capacity) ops) :
    ∃ x, ops.foldlM (step hash) (start capacity) = some x ∧ Kept x := by
  refine h.refines (t := ()) (fun _ _ => ()) (fun x _ => Kept x) (start_kept capacity) ?_
  intro x _ op hk ha
  obtain ⟨y, hy, hky, -⟩ := step_kept hk ha
  exact ⟨y, hy, hky⟩

theorem Kept.frequencies (hk : Kept x) (hl : Light x) : Frequencies x where
  sentinel := hk.filed.first
  increasing := by
    have h := hk.filed.increasing
    rw [hk.filed.tail, List.map_cons, List.pairwise_cons] at h
    exact h.2
  positive := by
    have h := hk.filed.increasing
    rw [hk.filed.tail, List.map_cons, List.pairwise_cons] at h
    intro n hn
    exact h.1 _ (List.mem_map_of_mem hn)
  filed := by
    intro e he
    obtain ⟨a, ha, -, rfl⟩ := mem_live.mp (hk.inv.table_perm.mem_iff.mp he)
    obtain ⟨h, hh, rfl⟩ := List.mem_map.mp ha
    rw [listed_tail hk.filed] at hh
    obtain ⟨n, hn, hhn⟩ := mem_entries.mp hh
    have hring := List.mem_of_mem_tail hn
    obtain ⟨hp, hfr⟩ := hk.filed.filed n hring h hhn
    exact ⟨n, hn, h, hhn, rfl, hp, hk.filed.not_deleted hring, hfr.trans (Nat.add_comm _ _)⟩
  once := by
    intro e he
    obtain ⟨a, ha, -, rfl⟩ := mem_live.mp (hk.inv.table_perm.mem_iff.mp he)
    have hnd := hk.inv.ptr_nodup
    rw [plain, List.map_map] at hnd
    refine List.count_eq_one_of_mem hnd ?_
    obtain ⟨h, hh, rfl⟩ := List.mem_map.mp ha
    exact List.mem_map_of_mem hh
  usage := by
    rw [hk.charged.usage_eq hl]
    exact (total_mod _ hl).symm

/-- Whatever the calls and their order, as long as the charges fit, no call reads
what was given back, and the frequency list has the promised shape in the state
reached. -/
theorem lfu_frequencies (hash : List UInt8 → UInt32) (capacity : UInt64) (ops : List (Op ν))
    (h : AlongM (step hash) (fun x op => Allowed hash x op ∧ Sized hash x op) (start capacity)
      ops) :
    ∃ x, ops.foldlM (step hash) (start capacity) = some x ∧ Frequencies x := by
  obtain ⟨x, hx, hk, hl⟩ := h.refines (t := ()) (fun _ _ => ()) (fun x _ => Kept x ∧ Light x)
    ⟨start_kept capacity, start_light capacity⟩ (by
      rintro x _ op ⟨hk, hl⟩ ⟨ha, hs⟩
      obtain ⟨y, hy, hky, hly⟩ := step_kept hk ha
      exact ⟨y, hy, hky, hly hl hs⟩)
  exact ⟨x, hx, hk.frequencies hl⟩

/-- A lookup, a repeated insertion, an erased entry that is still held, a new entry
for its key, and an eviction that deletes the node it empties. -/
def mixed : List (Op Nat) :=
  [.insert [1] 10 200, .insert [2] 20 200, .lookup [1], .insert [2] 21 200, .erase [2],
    .release 0, .release 0, .insert [2] 22 200, .lookup [1], .release 3, .insert [3] 30 500]

theorem lfu_frequencies_mixed : ∃ x : Client Nat,
    mixed.foldlM (step hashSlice) (start 1000) = some x ∧
      x.shard.ring.map (fun n => (n.frequency, n.entries.map fun h => h.ptr)) =
        [(0, []), (1, [4]), (2, [1]), (3, [0])] ∧
      x.shard.table.map Slot.ptr = [4, 0] ∧ x.hits = [0, 1, 0] ∧ x.shard.deleted = [1, 3] ∧
      Frequencies x := by
  have hrun : ∃ x ∈ mixed.foldlM (step hashSlice) (start 1000),
      x.shard.ring.map (fun n => (n.frequency, n.entries.map fun h => h.ptr)) =
        [(0, []), (1, [4]), (2, [1]), (3, [0])] ∧
      x.shard.table.map Slot.ptr = [4, 0] ∧ x.hits = [0, 1, 0] ∧ x.shard.deleted = [1, 3] := by
    decide +kernel
  obtain ⟨x, hx, hring, htable, hhits, hdel⟩ := hrun
  obtain ⟨x', hx', hfreq⟩ := lfu_frequencies hashSlice 1000 mixed (by decide +kernel)
  obtain rfl : x = x' := Option.some_inj.mp (hx.symm.trans hx')
  exact ⟨x, hx, hring, htable, hhits, hdel, hfreq⟩

/-- Two charges whose sum does not fit a `size_t`. -/
theorem lfu_usage_wraps : ∃ x : Client Nat,
    [.insert [1] 10 9223372036854775808, .insert [2] 20 9223372036854775808].foldlM
        (step hashSlice) (start 1000) = some x ∧
      x.shard.usage = 160 ∧
      total (fun h => chargeWord h.toHandle) x.shard.listed = 18446744073709551776 ∧
      ¬ Frequencies x := by
  have hrun : ∃ x ∈ [.insert [1] 10 9223372036854775808,
      .insert [2] 20 9223372036854775808].foldlM (step hashSlice) (start 1000 : Client Nat),
      x.shard.usage = 160 ∧
      total (fun h => chargeWord h.toHandle) x.shard.listed = 18446744073709551776 := by
    decide +kernel
  obtain ⟨x, hx, husage, htotal⟩ := hrun
  refine ⟨x, hx, husage, htotal, ?_⟩
  intro h
  have hu := h.usage
  omega

end WiscKey.LfuRuns
