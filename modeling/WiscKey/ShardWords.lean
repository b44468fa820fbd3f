import WiscKey.ShardHandles

namespace WiscKey.ShardWords

open WiscKey.Evict WiscKey.CacheShard WiscKey.ShardInvariant WiscKey.ShardOps
open WiscKey.ShardHandles

variable {ν : Type} {s : Shard ν} {out : Nat → Nat}

/-- The number of values of a `size_t`. -/
def sizes : Nat := 2 ^ 64

/-- The number of values of a reference count, which is a `uint32_t`. -/
def counts : Nat := 2 ^ 32

def subSize (a b : Nat) : Nat := (a + sizes - b) % sizes

def chargeWord (h : Handle ν) : Nat := h.totalCharge % sizes

def ref (h : Handle ν) : Handle ν := { h with refs := (h.refs + 1) % counts }

def unref (h : Handle ν) : Handle ν := { h with refs := (h.refs + counts - 1) % counts }

/-- The loop of `EvictFromLRU`. The last component is `usage_` after it. -/
def evictWords (capacity charge : Nat) :
    Nat → List (Handle ν) → List (Handle ν) × List (Handle ν) × Nat
  | usage, [] => ([], [], usage)
  | usage, h :: l =>
    if (usage + charge) % sizes ≤ capacity then (h :: l, [], usage)
    else if h.hasRefs then
      let r := evictWords capacity charge usage l
      (h :: r.1, r.2)
    else
      let r := evictWords capacity charge (subSize usage (chargeWord h)) l
      (r.1, h :: r.2.1, r.2.2)

def evictFrom (s : Shard ν) (charge : Nat) : Shard ν :=
  let r := evictWords s.capacity charge s.usage s.list
  { s with
    list := r.1
    usage := r.2.2
    table := r.2.1.foldl Shard.unlink s.table
    freed := s.freed ++ r.2.1.map Handle.ptr }

def makeRoom (s : Shard ν) (charge : Nat) : Shard ν :=
  if (s.usage + charge) % sizes > s.capacity then evictFrom s charge else s

def insert (s : Shard ν) (key : List UInt8) (hash : UInt32) (value : ν) (charge : Nat) :
    Shard ν × Nat :=
  let h := s.alloc key hash value charge
  let r := { makeRoom s (chargeWord h) with nextPtr := s.nextPtr + 1 }
  match r.find key hash with
  | some p => ({ r.modify p ref with freed := r.freed ++ [h.ptr] }, p)
  | none =>
    ({ r with
        list := r.list ++ [ref h], table := h.slot :: r.table
        usage := (r.usage + chargeWord h) % sizes },
      h.ptr)

def lookup (policy : Policy) (s : Shard ν) (key : List UInt8) (hash : UInt32) :
    Shard ν × Option Nat :=
  match s.find key hash with
  | some p => ((if policy = .lru then s.toBack p else s).modify p ref, some p)
  | none => (s, none)

def discard (s : Shard ν) (h : Handle ν) : Shard ν :=
  { s with
    list := s.list.filter (fun a => decide (a.ptr ≠ h.ptr))
    usage := subSize s.usage (chargeWord h)
    freed := s.freed ++ [h.ptr] }

def release (s : Shard ν) (p : Nat) : Shard ν :=
  let r := s.modify p unref
  match r.handle p with
  | some h => if h.refs = 0 ∧ h.inCache = false then discard r h else r
  | none => r

def erase (s : Shard ν) (key : List UInt8) (hash : UInt32) : Shard ν × Bool :=
  match s.find key hash with
  | some p =>
    let r := { s with table := s.table.eraseP (Slot.isFor key hash) }.modify p Handle.setErased
    match r.handle p with
    | some h => (if h.hasRefs then r else discard r h, true)
    | none => (r, true)
  | none => (s, false)

theorem subSize_eq {a b : Nat} (hb : b ≤ a) (ha : a < sizes) : subSize a b = a - b := by
  have he : a + sizes - b = a - b + sizes := by omega
  rw [subSize, he, Nat.add_mod_right, Nat.mod_eq_of_lt (by omega)]

theorem chargeWord_eq {h : Handle ν} (hh : h.totalCharge < sizes) :
    chargeWord h = h.totalCharge :=
  Nat.mod_eq_of_lt hh

theorem ref_eq {h : Handle ν} (hh : h.refs + 1 < counts) : ref h = h.ref := by
  rw [ref, Nat.mod_eq_of_lt hh, Handle.ref]

theorem unref_eq {h : Handle ν} (hp : 0 < h.refs) (hh : h.refs < counts) :
    unref h = h.unref := by
  have he : h.refs + counts - 1 = h.refs - 1 + counts := by omega
  rw [unref, he, Nat.add_mod_right, Nat.mod_eq_of_lt (by omega), Handle.unref]

theorem modify_congr (p : Nat) {f g : Handle ν → Handle ν}
    (hfg : ∀ h ∈ s.list, h.ptr = p → f h = g h) : s.modify p f = s.modify p g := by
  simp only [Shard.modify, Shard.mk.injEq, true_and, and_true]
  apply List.map_congr_left
  intro h hm
  by_cases hp : h.ptr = p
  · rw [if_pos hp, if_pos hp, hfg h hm hp]
  · rw [if_neg hp, if_neg hp]

theorem evictWords_eq (capacity charge usage : Nat) (l : List (Handle ν))
    (hl : total Handle.totalCharge l ≤ usage) (hu : usage + charge < sizes) :
    evictWords capacity charge usage l =
      ((evict Handle.totalCharge Handle.hasRefs capacity charge usage l).1,
        (evict Handle.totalCharge Handle.hasRefs capacity charge usage l).2,
        usage - total Handle.totalCharge
          (evict Handle.totalCharge Handle.hasRefs capacity charge usage l).2) := by
  induction l generalizing usage with
  | nil => rfl
  | cons h l ih =>
    rw [total_cons] at hl
    simp only [evictWords, evict, Nat.mod_eq_of_lt hu]
    split
    · rfl
    · split
      · rw [ih usage (by omega) hu]
      · rw [chargeWord_eq (by omega), subSize_eq (by omega) (by omega),
          ih (usage - h.totalCharge) (by omega) (by omega), total_cons, Nat.sub_sub]

theorem evictFrom_eq (hs : Core s out) {charge : Nat} (hu : s.usage + charge < sizes) :
    evictFrom s charge = s.evictFrom charge := by
  rw [evictFrom, evictWords_eq _ _ _ _ hs.usage_eq.ge hu]
  rfl

theorem makeRoom_eq (hs : Core s out) {charge : Nat} (hu : s.usage + charge < sizes) :
    makeRoom s charge = s.makeRoom charge := by
  rw [makeRoom, Nat.mod_eq_of_lt hu, evictFrom_eq hs hu]
  rfl

theorem makeRoom_list_subset (s : Shard ν) (charge : Nat) :
    (s.makeRoom charge).list ⊆ s.list := by
  rw [Shard.makeRoom]
  split
  · exact (evict_sublist ..).subset
  · exact List.Subset.refl _

theorem makeRoom_usage_le (s : Shard ν) (charge : Nat) :
    (s.makeRoom charge).usage ≤ s.usage := by
  rw [Shard.makeRoom]
  split
  · exact Nat.sub_le _ _
  · exact Nat.le_refl _

def Spare (s : Shard ν) (out : Nat → Nat) (key : List UInt8) : Prop :=
  ∀ h ∈ s.list, h.inCache = true → h.key = key → out h.ptr + 1 < counts

instance decidableSpare (s : Shard ν) (out : Nat → Nat) (key : List UInt8) :
    Decidable (Spare s out key) :=
  inferInstanceAs
    (Decidable (∀ h ∈ s.list, h.inCache = true → h.key = key → out h.ptr + 1 < counts))

theorem insert_eq (hs : Inv s out) {key : List UInt8} {hash : UInt32} {value : ν} {charge : Nat}
    (hu : s.usage + (s.alloc key hash value charge).totalCharge < sizes)
    (hk : Spare s out key) :
    insert s key hash value charge = s.insert key hash value charge := by
  have hr := makeRoom_inv hs (s.alloc key hash value charge).totalCharge
  have hsub := makeRoom_list_subset s (s.alloc key hash value charge).totalCharge
  have hle := makeRoom_usage_le s (s.alloc key hash value charge).totalCharge
  have hone : ref (s.alloc key hash value charge) = (s.alloc key hash value charge).ref :=
    ref_eq (by simp [Shard.alloc, counts])
  rw [insert, chargeWord_eq (by omega), makeRoom_eq hs.toCore hu, hone,
    Nat.mod_eq_of_lt (by simp only; omega)]
  obtain ⟨r, hg⟩ : ∃ r, { s.makeRoom (s.alloc key hash value charge).totalCharge with
      nextPtr := s.nextPtr + 1 } = r := ⟨_, rfl⟩
  simp only [Shard.insert, hg]
  cases hf : r.find key hash with
  | none => rfl
  | some p =>
    have hm : r.modify p ref = r.modify p Handle.ref := by
      subst hg
      apply modify_congr
      intro h hm hp
      obtain ⟨a, ha, hc, hkey, -, rfl⟩ := hr.toCore.find_iff.mp hf
      obtain rfl : h = a := hr.toCore.ptr_inj hm ha hp
      apply ref_eq
      rw [hr.refs_eq h ha]
      exact hk h (hsub ha) hc hkey
    simp only [hm]

theorem lookup_eq (hs : Inv s out) (policy : Policy) {key : List UInt8} {hash : UInt32}
    (hk : Spare s out key) : lookup policy s key hash = s.lookup policy key hash := by
  rw [lookup, Shard.lookup]
  cases hf : s.find key hash with
  | none => rfl
  | some p =>
    obtain ⟨a, ha, hc, hkey, -, rfl⟩ := hs.toCore.find_iff.mp hf
    have hperm : (if policy = .lru then s.toBack a.ptr else s).list.Perm s.list := by
      split
      · exact toBack_perm s a.ptr
      · exact List.Perm.refl _
    simp only [Prod.mk.injEq, and_true]
    apply modify_congr
    intro h hm hp
    obtain rfl : h = a := hs.toCore.ptr_inj (hperm.mem_iff.mp hm) ha hp
    apply ref_eq
    rw [hs.refs_eq h ha]
    exact hk h ha hc hkey

theorem discard_eq (hs : Core s out) {h : Handle ν} (hm : h ∈ s.list) (hu : s.usage < sizes) :
    discard s h = s.discard h.ptr := by
  have ht := total_perm Handle.totalCharge (split_perm hs hm)
  rw [total_cons, ← hs.usage_eq] at ht
  rw [discard, Shard.discard, chargeWord_eq (by omega), subSize_eq (by omega) hu,
    filter_ptr hs.ptr_nodup hm]
  simp [total]

theorem erase_eq (hs : Inv s out) (hu : s.usage < sizes) (key : List UInt8) (hash : UInt32) :
    erase s key hash = s.erase key hash := by
  rw [erase, Shard.erase]
  cases hf : s.find key hash with
  | none => rfl
  | some p =>
    obtain ⟨a, ha, hc, rfl, rfl, rfl⟩ := hs.toCore.find_iff.mp hf
    have hcore := erase_core hs.toCore ha hc
    obtain ⟨r, hr⟩ : ∃ r, { s with table := s.table.eraseP (Slot.isFor a.key a.hash) }.modify
        a.ptr Handle.setErased = r := ⟨_, rfl⟩
    have hur : r.usage < sizes := by
      rw [← hr]
      exact hu
    rw [hr] at hcore
    simp only [hr]
    cases hh : r.handle a.ptr with
    | none => rfl
    | some h =>
      obtain ⟨hm, hp⟩ := handle_some hh
      simp only [discard_eq hcore hm hur, hp]

theorem release_eq (hs : Inv s out) {p : Nat} (hp : 0 < out p) (hc : out p < counts)
    (hu : s.usage < sizes) : release s p = s.release p := by
  have hmod : s.modify p unref = s.modify p Handle.unref := by
    apply modify_congr
    rintro h hm rfl
    have hr := hs.refs_eq h hm
    exact unref_eq (hr ▸ hp) (hr ▸ hc)
  have hcore := unref_core hs.toCore hp
  rw [release, Shard.release, hmod]
  cases hh : (s.modify p Handle.unref).handle p with
  | none => simp only
  | some h =>
    obtain ⟨hm, he⟩ := handle_some hh
    simp only [discard_eq hcore hm hu, he]

end WiscKey.ShardWords
