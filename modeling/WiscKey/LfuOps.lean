import WiscKey.LfuRing

namespace WiscKey.LfuOps

open WiscKey.Evict WiscKey.CacheShard WiscKey.FrequencyList WiscKey.LfuCache WiscKey.LfuRing
open WiscKey.ShardInvariant WiscKey.ShardOps WiscKey.ShardHandles
open WiscKey.ShardWords (sizes counts subSize ref unref)

variable {ν : Type} {s t : LfuShard ν} {hits : List Nat} {h : LfuHandle ν} {out : Nat → Nat}
  {key : List UInt8} {hash : UInt32} {value : ν} {charge : Nat}

theorem modify_charged (hc : Charged s) (p : Nat) {f : Handle ν → Handle ν}
    (hf : ∀ a, chargeWord (f a) = chargeWord a) : Charged (s.modify p f) := by
  rw [Charged, plain_modify, total, modify_map (plain s) p f chargeWord hf]
  exact hc

theorem lfu_handle_some {p : Nat} (hp : s.handle p = some h) : h ∈ s.listed ∧ h.ptr = p :=
  ⟨List.mem_of_find?_eq_some hp, by simpa using List.find?_some hp⟩

/-- What is used is a variable here, so that no proof compares it with what was used
before. -/
theorem discard_eq (s : LfuShard ν) (h : LfuHandle ν) :
    ∃ usage, usage = subSize s.usage (chargeWord h.toHandle) ∧
      s.discard h = { s.remove h.ptr with usage := usage, freed := s.freed ++ [h.ptr] } :=
  ⟨_, rfl, rfl⟩

theorem discard_charged (hd : ((plain s).list.map Handle.ptr).Nodup) (hc : Charged s)
    (hh : h ∈ s.listed) : Charged (s.discard h) := by
  obtain ⟨usage, hu, he⟩ := discard_eq s h
  have hmem : h.toHandle ∈ (plain s).list := List.mem_map_of_mem hh
  have ht := total_perm chargeWord (others_perm hd hmem)
  have hw : chargeWord h.toHandle < sizes := Nat.mod_lt _ (by decide)
  rw [Charged] at hc
  rw [total_cons] at ht
  rw [hc, ← ht, subSize_add hw, ← plain_remove] at hu
  rw [he]
  exact hu

theorem discard_filed (hf : Filed hits s) (h : LfuHandle ν) : Filed hits (s.discard h) := by
  obtain ⟨usage, -, he⟩ := discard_eq s h
  rw [he]
  exact Sorted.filter hf _

theorem discard_alike {s' : Shard ν} (hs : Alike (plain s) s') (h : LfuHandle ν) :
    Alike (plain (s.discard h)) (s'.discard h.ptr) := by
  obtain ⟨usage, -, he⟩ := discard_eq s h
  rw [he]
  refine ⟨?_, hs.table, hs.nextPtr, congrArg (· ++ [h.ptr]) hs.freed⟩
  have hl : (others (plain s).list h.ptr).Perm (others s'.list h.ptr) := hs.list.filter _
  rw [← plain_remove] at hl
  exact hl

theorem modify_found {s' : Shard ν} (hd : (s'.list.map Handle.ptr).Nodup) {a : Handle ν}
    (ha : a ∈ s'.list)
    {f : Handle ν → Handle ν} (hf : ∀ a, (f a).ptr = a.ptr)
    (hl : (plain s).list = (s'.modify a.ptr f).list) :
    ∃ h, s.handle a.ptr = some h ∧ h.toHandle = f a := by
  have hp : (plain s).handle a.ptr = some (f a) := by
    rw [← modify_handle hd ha hf, Shard.handle, Shard.handle, hl]
  rw [plain_handle] at hp
  exact Option.map_eq_some_iff.mp hp

theorem release_filed (hs : Inv (plain s) out) (hf : Filed hits s) (hc : Charged s) {p : Nat}
    (hp : 0 < out p) (hlt : out p < counts) :
    ∃ t, s.release p = some t ∧ Filed hits t ∧ Charged t ∧
      Alike (plain t) ((plain s).release p) := by
  obtain ⟨a, ha, rfl⟩ := List.mem_map.mp (hs.pinned p hp)
  have hmod : s.modify a.ptr unref = s.modify a.ptr Handle.unref := by
    apply modify_congr
    intro b hb he
    rw [hs.ptr_inj hb ha he]
    rw [← hs.refs_eq a ha] at hp hlt
    exact ShardWords.unref_eq hp hlt
  have hl := plain_modify s a.ptr Handle.unref
  have hptr : ∀ b : Handle ν, b.unref.ptr = b.ptr := fun _ => rfl
  obtain ⟨h, hh, he⟩ := modify_found hs.ptr_nodup ha hptr hl
  obtain ⟨hm, hp'⟩ := lfu_handle_some hh
  have hfr : Filed hits (s.modify a.ptr Handle.unref) := modify_filed hf _ fun _ => rfl
  have hcr : Charged (s.modify a.ptr Handle.unref) := modify_charged hc _ fun _ => rfl
  have hd : ((plain (s.modify a.ptr Handle.unref)).list.map Handle.ptr).Nodup := by
    rw [hl, modify_map _ _ _ _ hptr]
    exact hs.ptr_nodup
  simp only [LfuShard.release, hmod, hh, Option.map_some, Shard.release,
    modify_handle hs.ptr_nodup ha hptr]
  rw [he]
  have hal : Alike (plain (s.modify a.ptr Handle.unref)) ((plain s).modify a.ptr Handle.unref) :=
    ⟨List.Perm.of_eq hl, rfl, rfl, rfl⟩
  by_cases hz : a.unref.refs = 0 ∧ a.unref.inCache = false
  · rw [if_pos hz, if_pos hz, ← hp']
    rw [← hp'] at hfr hcr hd hm hal
    exact ⟨_, rfl, discard_filed hfr h, discard_charged hd hcr hm, discard_alike hal h⟩
  · rw [if_neg hz, if_neg hz]
    exact ⟨_, rfl, hfr, hcr, hal⟩

theorem erase_filed (hs : Inv (plain s) out) (hf : Filed hits s) (hc : Charged s)
    (key : List UInt8) (hash : UInt32) :
    ∃ t b, s.erase key hash = some (t, b) ∧ Filed hits t ∧ Charged t ∧
      Alike (plain t) ((plain s).erase key hash).1 := by
  rw [LfuShard.erase, Shard.erase, show (plain s).find key hash = s.find key hash from rfl]
  cases hfind : s.find key hash with
  | none => exact ⟨s, false, rfl, hf, hc, List.Perm.refl _, rfl, rfl, rfl⟩
  | some p =>
    obtain ⟨a, ha, hin, rfl, rfl, rfl⟩ :=
      hs.toCore.find_iff.mp (show (plain s).find key hash = some p from hfind)
    let u : LfuShard ν := { s with table := s.table.eraseP (Slot.isFor a.key a.hash) }
    let r := u.modify a.ptr Handle.setErased
    have hl : (plain r).list = ((plain u).modify a.ptr Handle.setErased).list := plain_modify u _ _
    have hptr : ∀ b : Handle ν, b.setErased.ptr = b.ptr := fun _ => rfl
    have hd : ((plain u).list.map Handle.ptr).Nodup := hs.ptr_nodup
    obtain ⟨h, hh, he⟩ := modify_found hd ha hptr hl
    obtain ⟨hm, hp⟩ := lfu_handle_some hh
    have hfr : Filed hits r := modify_filed (show Filed hits u from hf) _ hptr
    have hcr : Charged r := modify_charged (show Charged u from hc) _ fun _ => rfl
    have hdr : ((plain r).list.map Handle.ptr).Nodup := by
      rw [hl, modify_map _ _ _ _ hptr]
      exact hd
    have hal : Alike (plain r) ((plain u).modify a.ptr Handle.setErased) :=
      ⟨List.Perm.of_eq hl, rfl, rfl, rfl⟩
    have hfound : ({ plain s with table := s.table.eraseP (Slot.isFor a.key a.hash) }.modify a.ptr
        Handle.setErased).handle a.ptr = some a.setErased := modify_handle hd ha hptr
    refine ⟨if h.hasRefs then r else r.discard h, true, ?_, ?_⟩
    · simp only [u, r] at hh
      simp only [hh, Option.map_some]
      rfl
    · rw [show (plain s).table = s.table from rfl]
      simp only [hfound]
      rw [show h.hasRefs = a.setErased.hasRefs from congrArg Handle.hasRefs he]
      by_cases hz : a.setErased.hasRefs = true
      · rw [if_pos hz, if_pos hz]
        exact ⟨hfr, hcr, hal⟩
      · rw [if_neg hz, if_neg hz]
        refine ⟨discard_filed hfr h, discard_charged hdr hcr hm, ?_⟩
        have hdal := discard_alike hal h
        rw [hp] at hdal
        exact hdal

theorem hit_charged {m : LfuShard ν} {p : Nat} (hc : Charged m) (hu : t.usage = m.usage)
    (hl : (plain t).list.Perm ((plain m).modify p Handle.ref).list) : Charged t := by
  rw [Charged, hu, total_perm chargeWord hl, total, modify_map (plain m) p Handle.ref chargeWord
    fun _ => rfl]
  exact hc

theorem lookup_filed (hs : Inv (plain s) out) (hf : Filed hits s) (hc : Charged s) {p : Nat}
    (hfind : s.find key hash = some p) (hlt : hits.count p + 2 < counts)
    (hr : out p + 1 < counts) :
    ∃ t, s.lookup key hash = some (t, some p) ∧ Filed (p :: hits) t ∧ Charged t ∧
      Inv (plain t) (Function.update out p (out p + 1)) ∧ t.nextPtr = s.nextPtr ∧
      (plain t).list.Perm ((plain s).modify p Handle.ref).list := by
  obtain ⟨a, ha, -, -, -, rfl⟩ :=
    hs.toCore.find_iff.mp (show (plain s).find key hash = some p from hfind)
  obtain ⟨h, hh, rfl⟩ := List.mem_map.mp ha
  rw [← hs.refs_eq _ ha] at hr
  obtain ⟨t, ht, hft, hst, hpt⟩ := hit_filed hs.ptr_nodup hf hh hlt hr
  refine ⟨t, ?_, hft, hit_charged hc hst.usage hpt, ?_, hst.nextPtr, hpt⟩
  · rw [LfuShard.lookup, hfind]
    simp only [ht, Option.map_some]
  · refine Alike.inv ⟨hpt, hst.table, hst.nextPtr,
      hst.freed⟩ (ref_inv hs (List.mem_map_of_mem ha)) rfl

section Insert

variable {m : LfuShard ν}

theorem insert_some (hm : s.makeRoom (s.alloc key hash value charge).toHandle = m) {p : Nat}
    (hfind : m.find key hash = some p) :
    s.insert key hash value charge =
      (LfuShard.hit { m with nextPtr := s.nextPtr + 1 } p).map fun t =>
        ({ t with freed := t.freed ++ [s.nextPtr] }, p) := by
  simp only [LfuShard.insert, hm]
  split
  · rename_i q hq
    have he : some q = some p := hq.symm.trans hfind
    cases he
    rfl
  · rename_i hq
    cases hq.symm.trans hfind

theorem insert_none (hm : s.makeRoom (s.alloc key hash value charge).toHandle = m)
    (hfind : m.find key hash = none) :
    s.insert key hash value charge =
      (LfuShard.lfuInsert
        { m with
          nextPtr := s.nextPtr + 1, table := (s.alloc key hash value charge).slot :: m.table }
        (s.alloc key hash value charge)).map fun t =>
          ({ t.modify s.nextPtr ref with
              usage := (t.usage + chargeWord (s.alloc key hash value charge).toHandle) % sizes },
            s.nextPtr) := by
  simp only [LfuShard.insert, hm]
  split
  · rename_i q hq
    cases hq.symm.trans hfind
  · rfl

structure Inserted (s r : LfuShard ν) (out : Nat → Nat) (p : Nat) : Prop where
  inv : Inv (plain r) (Function.update out p (out p + 1))
  charged : Charged r
  nextPtr : r.nextPtr = s.nextPtr + 1
  capacity : r.capacity = s.capacity

theorem insert_hit (hs : Inv (plain s) out) (hf : Filed hits s) (hc : Charged s)
    (hm : s.makeRoom (s.alloc key hash value charge).toHandle = m) {p : Nat}
    (hfind : m.find key hash = some p) (hlt : hits.count p + 2 < counts)
    (hr : out p + 1 < counts) :
    ∃ r, s.insert key hash value charge = some (r, p) ∧ Filed (p :: hits) r ∧
      Inserted s r out p ∧ r.usage = m.usage ∧
      (plain r).list.Perm ((plain m).modify p Handle.ref).list := by
  obtain ⟨hfm, ev, htakes⟩ := makeRoom_takes hf (s.alloc key hash value charge).toHandle
  rw [hm] at hfm htakes
  have him := htakes.inv hs
  obtain ⟨a, ha, -, -, -, rfl⟩ :=
    him.toCore.find_iff.mp (show (plain m).find key hash = some p from hfind)
  obtain ⟨h, hh, rfl⟩ := List.mem_map.mp ha
  rw [← him.refs_eq _ ha] at hr
  let u : LfuShard ν := { m with nextPtr := s.nextPtr + 1 }
  have hdu : ((plain u).list.map Handle.ptr).Nodup := him.ptr_nodup
  obtain ⟨t, ht, hft, hst, hpt⟩ := hit_filed hdu (show Filed hits u from hfm) hh hlt hr
  have hpm : (plain t).list.Perm ((plain m).modify h.ptr Handle.ref).list := hpt
  refine ⟨{ t with freed := t.freed ++ [s.nextPtr] }, ?_, hft, ⟨?_, ?_, hst.nextPtr, ?_⟩,
    hst.usage, hpm⟩
  · rw [insert_some hm hfind]
    exact congrArg _ ht
  · refine Alike.inv ?_ (reject_inv (ref_inv him (List.mem_map_of_mem ha))) rfl
    refine ⟨hpm, hst.table, ?_, ?_⟩
    · exact hst.nextPtr.trans (congrArg (· + 1) htakes.nextPtr.symm)
    · change t.freed ++ [s.nextPtr] = m.freed ++ [m.nextPtr]
      rw [hst.freed, htakes.nextPtr]
  · exact hit_charged (htakes.charged hc) hst.usage hpm
  · exact hst.capacity.trans htakes.capacity

theorem insert_new (hs : Inv (plain s) out) (hf : Filed hits s) (hc : Charged s)
    (hm : s.makeRoom (s.alloc key hash value charge).toHandle = m)
    (hfind : m.find key hash = none) (h0 : hits.count s.nextPtr = 0) :
    ∃ r, s.insert key hash value charge = some (r, s.nextPtr) ∧ Filed hits r ∧
      Inserted s r out s.nextPtr ∧
      r.usage = (m.usage + chargeWord (s.alloc key hash value charge).toHandle) % sizes ∧
      (plain r).list.Perm
        ((plain m).list ++ [(s.alloc key hash value charge).toHandle.ref]) := by
  obtain ⟨hfm, ev, htakes⟩ := makeRoom_takes hf (s.alloc key hash value charge).toHandle
  rw [hm] at hfm htakes
  have him := htakes.inv hs
  have hnext : (plain m).nextPtr = s.nextPtr := htakes.nextPtr
  have halloc : (plain m).alloc key hash value charge =
      (s.alloc key hash value charge).toHandle := by
    rw [Shard.alloc, hnext, LfuShard.alloc]
  have hfresh := nextPtr_fresh him.toCore
  have hadd := add_inv him value charge (show (plain m).find key hash = none from hfind)
  rw [hnext] at hfresh hadd
  rw [halloc] at hadd
  let u : LfuShard ν :=
    { m with nextPtr := s.nextPtr + 1, table := (s.alloc key hash value charge).slot :: m.table }
  obtain ⟨t, ht, hft, hst, hpt⟩ := new_filed (show Filed hits u from hfm)
    (s.alloc key hash value charge) h0 hfresh (show 0 + 1 < counts by decide)
  have hpm : (plain (t.modify s.nextPtr ref)).list.Perm
      ((plain m).list ++ [(s.alloc key hash value charge).toHandle.ref]) := hpt
  rw [insert_none hm hfind, show LfuShard.lfuInsert _ _ = some t from ht, Option.map_some]
  rw [hst.usage]
  generalize hu : (u.usage + chargeWord (s.alloc key hash value charge).toHandle) % sizes = usage
  refine ⟨_, rfl, hft, ⟨?_, ?_, hst.nextPtr, hst.capacity.trans htakes.capacity⟩, rfl, hpm⟩
  · refine Alike.inv ?_ hadd rfl
    exact ⟨hpm, hst.table, hst.nextPtr, hst.freed⟩
  · have htot := total_perm chargeWord hpm
    have hcm : m.usage = total chargeWord (plain m).list % sizes := htakes.charged hc
    rw [total_append] at htot
    rw [show u.usage = m.usage from rfl, hcm, Nat.mod_add_mod] at hu
    change usage = total chargeWord (plain (t.modify s.nextPtr ref)).list % sizes
    rw [htot, ← hu]
    rfl

end Insert

end WiscKey.LfuOps
