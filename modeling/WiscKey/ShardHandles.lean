import WiscKey.ShardOps

namespace WiscKey.ShardHandles

open WiscKey.Evict WiscKey.CacheShard WiscKey.ShardInvariant WiscKey.ShardOps

variable {ν : Type} {s : Shard ν} {out : Nat → Nat}

def others (l : List (Handle ν)) (p : Nat) : List (Handle ν) :=
  l.filter (fun h => decide (h.ptr ≠ p))

theorem filter_ptr {l : List (Handle ν)} (hn : (l.map Handle.ptr).Nodup) {h : Handle ν}
    (hm : h ∈ l) : l.filter (fun a => decide (a.ptr = h.ptr)) = [h] := by
  induction l with
  | nil => simp at hm
  | cons a l ih =>
    obtain ⟨hna, hnl⟩ := List.nodup_cons.mp hn
    by_cases ha : a.ptr = h.ptr
    · have hnone : ∀ c ∈ l, ¬decide (c.ptr = h.ptr) = true := by
        intro c hc he
        exact hna (List.mem_map.mpr ⟨c, hc, (of_decide_eq_true he).trans ha.symm⟩)
      obtain rfl | hml := List.mem_cons.mp hm
      · simpa [List.filter_eq_nil_iff] using hnone
      · exact absurd (List.mem_map.mpr ⟨h, hml, ha.symm⟩) hna
    · have hml : h ∈ l := (List.mem_cons.mp hm).resolve_left (fun he => ha (he ▸ rfl))
      simpa [ha] using ih hnl hml

theorem others_perm {l : List (Handle ν)} (hn : (l.map Handle.ptr).Nodup) {h : Handle ν}
    (hm : h ∈ l) : (h :: others l h.ptr).Perm l := by
  have hne : (fun a : Handle ν => decide (a.ptr ≠ h.ptr)) = fun a => !decide (a.ptr = h.ptr) := by
    funext a
    rw [decide_not]
  have hp := List.filter_append_perm (fun a => decide (a.ptr = h.ptr)) l
  rw [filter_ptr hn hm] at hp
  rw [others, hne]
  exact hp

theorem split_perm (hs : Core s out) {h : Handle ν} (hm : h ∈ s.list) :
    (h :: others s.list h.ptr).Perm s.list :=
  others_perm hs.ptr_nodup hm

theorem mem_others {l : List (Handle ν)} {p : Nat} {h : Handle ν} :
    h ∈ others l p ↔ h ∈ l ∧ h.ptr ≠ p := by
  simp [others]

theorem modify_handle (hd : (s.list.map Handle.ptr).Nodup) {h : Handle ν} (hm : h ∈ s.list)
    {f : Handle ν → Handle ν} (hf : ∀ a, (f a).ptr = a.ptr) :
    (s.modify h.ptr f).handle h.ptr = some (f h) := by
  have hn : ((s.modify h.ptr f).list.map Handle.ptr).Nodup := by
    rw [modify_map s h.ptr f Handle.ptr hf]
    exact hd
  have hmem : f h ∈ (s.modify h.ptr f).list := mem_modify.mpr ⟨h, hm, by simp⟩
  have hl := filter_ptr hn hmem
  rw [hf h] at hl
  rw [Shard.handle, ← List.head?_filter, hl]
  rfl

theorem discard_core (hs : Core s out) {h : Handle ν} {p : Nat} (hm : h ∈ s.list)
    (he : h.ptr = p) (hc : h.inCache = false) (ho : out p = 0) : Core (s.discard p) out := by
  subst p
  refine ⟨?_, fun a ha => hs.refs_eq a (mem_others.mp ha).1, ?_, ?_, hs.keys, ?_⟩
  · refine List.Perm.trans ?_ hs.allocated
    simp only [Shard.discard, List.append_assoc]
    exact ((split_perm hs hm).map Handle.ptr).append_left _
  · intro p hp
    obtain ⟨a, ha, rfl⟩ := List.mem_map.mp (hs.pinned p hp)
    refine List.mem_map.mpr ⟨a, mem_others.mpr ⟨ha, ?_⟩, rfl⟩
    intro he
    rw [he, ho] at hp
    exact lt_irrefl 0 hp
  · refine hs.table_perm.trans ((live_perm (split_perm hs hm).symm).trans ?_)
    simp [live, hc, Shard.discard, others]
  · have ht := total_perm Handle.totalCharge (split_perm hs hm)
    rw [total_cons, ← hs.usage_eq] at ht
    simp only [Shard.discard, filter_ptr hs.ptr_nodup hm]
    change s.usage - (h.totalCharge + 0) = total Handle.totalCharge (others s.list h.ptr)
    omega

theorem reject_inv (hs : Inv s out) :
    Inv { s with nextPtr := s.nextPtr + 1, freed := s.freed ++ [s.nextPtr] } out where
  allocated := by
    rw [List.range_succ]
    refine List.Perm.trans ?_ (hs.allocated.append_right [s.nextPtr])
    simp only [List.append_assoc]
    exact (List.perm_append_comm).append_left _
  refs_eq := hs.refs_eq
  pinned := hs.pinned
  table_perm := hs.table_perm
  keys := hs.keys
  usage_eq := hs.usage_eq
  erased := hs.erased

theorem nextPtr_fresh (hs : Core s out) : s.nextPtr ∉ s.list.map Handle.ptr := by
  intro hm
  have hr := hs.allocated.mem_iff.mp (List.mem_append_right s.freed hm)
  exact lt_irrefl _ (List.mem_range.mp hr)

theorem add_inv (hs : Inv s out) {key : List UInt8} {hash : UInt32} (value : ν) (charge : Nat)
    (hf : s.find key hash = none) :
    Inv { s with
        nextPtr := s.nextPtr + 1
        list := s.list ++ [(s.alloc key hash value charge).ref]
        table := (s.alloc key hash value charge).slot :: s.table
        usage := s.usage + (s.alloc key hash value charge).totalCharge }
      (Function.update out s.nextPtr (out s.nextPtr + 1)) where
  allocated := by
    rw [List.range_succ, List.map_append, ← List.append_assoc]
    exact hs.allocated.append_right [s.nextPtr]
  refs_eq := by
    intro a ha
    obtain ha | ha := List.mem_append.mp ha
    · have hne : a.ptr ≠ s.nextPtr := fun he => nextPtr_fresh hs.toCore
        (he ▸ List.mem_map_of_mem ha)
      rw [Function.update_of_ne hne]
      exact hs.refs_eq a ha
    · have h0 : out s.nextPtr = 0 := by
        by_contra hp
        exact nextPtr_fresh hs.toCore (hs.pinned _ (Nat.pos_of_ne_zero hp))
      rw [List.mem_singleton.mp ha]
      simp [Handle.ref, Shard.alloc, h0]
  pinned := by
    intro p hp
    rw [List.map_append]
    by_cases he : p = s.nextPtr
    · subst p
      exact List.mem_append_right _ (by simp [Handle.ref, Shard.alloc])
    · rw [Function.update_of_ne he] at hp
      exact List.mem_append_left _ (hs.pinned p hp)
  table_perm := by
    rw [live_append]
    exact (hs.table_perm.cons _).trans (List.perm_append_singleton _ _).symm
  keys := by
    refine List.nodup_cons.mpr ⟨?_, hs.keys⟩
    intro hm
    obtain ⟨e, he, hid⟩ := List.mem_map.mp hm
    have hnone := List.find?_eq_none.mp (Option.map_eq_none_iff.mp hf) e he
    exact hnone (Slot.isFor_iff.mpr hid)
  usage_eq := by
    rw [total_append, hs.usage_eq]
    rfl
  erased := by
    intro a ha hc
    obtain ha | ha := List.mem_append.mp ha
    · exact hs.erased a ha hc
    · rw [List.mem_singleton.mp ha] at hc
      cases hc

theorem makeRoom_nextPtr (s : Shard ν) (charge : Nat) :
    (s.makeRoom charge).nextPtr = s.nextPtr := by
  unfold Shard.makeRoom
  split <;> rfl

theorem insert_inv (hs : Inv s out) (key : List UInt8) (hash : UInt32) (value : ν)
    (charge : Nat) :
    Inv (s.insert key hash value charge).1
      (Function.update out (s.insert key hash value charge).2
        (out (s.insert key hash value charge).2 + 1)) := by
  have hr := makeRoom_inv hs (s.alloc key hash value charge).totalCharge
  have hn := makeRoom_nextPtr s (s.alloc key hash value charge).totalCharge
  simp only [Shard.insert]
  split
  · rename_i p hf
    obtain ⟨h, hm, -, -, -, rfl⟩ := hr.toCore.find_iff.mp hf
    have hi := reject_inv (ref_inv hr (List.mem_map_of_mem hm))
    simp only [Shard.modify, hn] at hi
    exact hi
  · rename_i hf
    have ha : (s.makeRoom (s.alloc key hash value charge).totalCharge).alloc key hash value
        charge = s.alloc key hash value charge := by rw [Shard.alloc, hn, Shard.alloc]
    have hi := add_inv hr value charge hf
    rw [ha, hn] at hi
    exact hi

theorem lookup_inv (hs : Inv s out) (policy : Policy) {key : List UInt8} {hash : UInt32}
    {p : Nat} (hf : (s.lookup policy key hash).2 = some p) :
    Inv (s.lookup policy key hash).1 (Function.update out p (out p + 1)) := by
  unfold Shard.lookup at hf ⊢
  split at hf
  · rename_i q hq
    cases hf
    obtain ⟨h, hm, -, -, -, rfl⟩ := hs.toCore.find_iff.mp hq
    split
    · exact ref_inv (toBack_inv hs h.ptr)
        (List.mem_map_of_mem ((toBack_perm s h.ptr).mem_iff.mpr hm))
    · exact ref_inv hs (List.mem_map_of_mem hm)
  · cases hf

theorem lookup_miss {policy : Policy} {key : List UInt8} {hash : UInt32}
    (hf : (s.lookup policy key hash).2 = none) : (s.lookup policy key hash).1 = s := by
  unfold Shard.lookup at hf ⊢
  split at hf
  · cases hf
  · simp_all

theorem map_absent {l : List (Handle ν)} {p : Nat} (hp : p ∉ l.map Handle.ptr)
    (f : Handle ν → Handle ν) : l.map (fun a => if a.ptr = p then f a else a) = l := by
  conv_rhs => rw [← List.map_id l]
  apply List.map_congr_left
  intro a ha
  have hne : a.ptr ≠ p := fun he => hp (he ▸ List.mem_map_of_mem ha)
  rw [if_neg hne, id_eq]

theorem modify_split (hs : Core s out) {h : Handle ν} (hm : h ∈ s.list)
    (f : Handle ν → Handle ν) :
    (f h :: others s.list h.ptr).Perm (s.modify h.ptr f).list := by
  have ho : (others s.list h.ptr).map (fun a => if a.ptr = h.ptr then f a else a) =
      others s.list h.ptr := by
    apply map_absent
    intro hmem
    obtain ⟨a, ha, he⟩ := List.mem_map.mp hmem
    exact (mem_others.mp ha).2 he
  have hp := (split_perm hs hm).map (fun a => if a.ptr = h.ptr then f a else a)
  rw [List.map_cons, ho, if_pos rfl] at hp
  exact hp

theorem erase_core (hs : Core s out) {h : Handle ν} (hm : h ∈ s.list) (hc : h.inCache = true) :
    Core ({ s with table := s.table.eraseP (Slot.isFor h.key h.hash) }.modify h.ptr
      Handle.setErased) out := by
  have hlist := modify_split hs hm Handle.setErased
  have hid : ∀ g : Handle ν → Nat, (∀ a, g a.setErased = g a) →
      (s.modify h.ptr Handle.setErased).list.map g = s.list.map g :=
    fun g hg => modify_map s h.ptr Handle.setErased g hg
  refine ⟨?_, ?_, ?_, ?_, ?_, ?_⟩
  · change (s.freed ++ (s.modify h.ptr Handle.setErased).list.map Handle.ptr).Perm _
    rw [hid Handle.ptr (fun _ => rfl)]
    exact hs.allocated
  · intro a ha
    obtain ⟨c, hcm, rfl⟩ := mem_modify.mp ha
    by_cases hcp : c.ptr = h.ptr
    · simpa [hcp] using hcp ▸ hs.refs_eq c hcm
    · simpa [hcp] using hs.refs_eq c hcm
  · intro p hp
    change p ∈ (s.modify h.ptr Handle.setErased).list.map Handle.ptr
    rw [hid Handle.ptr (fun _ => rfl)]
    exact hs.pinned p hp
  · have ht : s.table.Perm (h.slot :: live (others s.list h.ptr)) := by
      refine hs.table_perm.trans ((live_perm (split_perm hs hm).symm).trans ?_)
      simp [live, hc]
    refine (eraseP_perm ht hs.keys).trans (List.Perm.trans ?_ (live_perm hlist))
    simp [live, Handle.setErased]
  · exact hs.keys.sublist (List.eraseP_sublist.map _)
  · change s.usage = total Handle.totalCharge (s.modify h.ptr Handle.setErased).list
    rw [total, hid _ (fun _ => rfl)]
    exact hs.usage_eq

theorem unref_core (hs : Core s out) {p : Nat} (hp : 0 < out p) :
    Core (s.modify p Handle.unref) (Function.update out p (out p - 1)) := by
  refine modify_core hs p Handle.unref (fun _ => rfl) (fun _ => rfl) (fun _ => rfl) ?_ ?_
    (fun _ => hs.pinned p hp)
  · intro a ha he
    rw [Function.update_self, ← he, ← hs.refs_eq a ha]
    rfl
  · exact fun q hq => Function.update_of_ne hq _ _

theorem release_inv (hs : Inv s out) {p : Nat} (hp : 0 < out p) :
    Inv (s.release p) (Function.update out p (out p - 1)) := by
  obtain ⟨h, hm, rfl⟩ := List.mem_map.mp (hs.pinned p hp)
  have hcore := unref_core hs.toCore hp
  have hother : ∀ a ∈ (s.modify h.ptr Handle.unref).list, a.ptr ≠ h.ptr →
      a.inCache = false → 0 < a.refs := by
    intro a ha hne hc
    obtain ⟨c, hcm, rfl⟩ := mem_modify.mp ha
    by_cases hcp : c.ptr = h.ptr
    · simp [hcp, Handle.unref] at hne
    · simp only [hcp, if_false] at hc ⊢
      exact hs.erased c hcm hc
  have hmem : h.unref ∈ (s.modify h.ptr Handle.unref).list := mem_modify.mpr ⟨h, hm, by simp⟩
  simp only [Shard.release, modify_handle hs.ptr_nodup hm (f := Handle.unref) (fun _ => rfl)]
  split
  · rename_i hz
    refine ⟨discard_core hcore hmem rfl hz.2 ?_, ?_⟩
    · exact (hcore.refs_eq h.unref hmem).symm.trans hz.1
    · intro a ha hc
      obtain ⟨ha, hne⟩ := mem_others.mp ha
      exact hother a ha hne hc
  · rename_i hz
    refine ⟨hcore, ?_⟩
    intro a ha hc
    by_cases hap : a.ptr = h.ptr
    · have he : a = h.unref := hcore.ptr_inj ha hmem hap
      subst a
      exact Nat.pos_of_ne_zero (fun h0 => hz ⟨h0, hc⟩)
    · exact hother a ha hap hc

theorem erase_inv (hs : Inv s out) (key : List UInt8) (hash : UInt32) :
    Inv (s.erase key hash).1 out := by
  simp only [Shard.erase]
  split
  · rename_i p hf
    obtain ⟨h, hm, hc, rfl, rfl, rfl⟩ := hs.toCore.find_iff.mp hf
    let t : Shard ν := { s with table := s.table.eraseP (Slot.isFor h.key h.hash) }
    let r := t.modify h.ptr Handle.setErased
    have hlist : (h.setErased :: others s.list h.ptr).Perm r.list :=
      modify_split hs.toCore hm Handle.setErased
    have hcore : Core r out := erase_core hs.toCore hm hc
    have hother : ∀ a ∈ r.list, a.ptr ≠ h.ptr → a.inCache = false → 0 < a.refs := by
      intro a ha hne he
      obtain rfl | ha := List.mem_cons.mp (hlist.mem_iff.mpr ha)
      · exact absurd rfl hne
      · exact hs.erased a (mem_others.mp ha).1 he
    have hmem : h.setErased ∈ r.list := hlist.mem_iff.mp List.mem_cons_self
    have hr : r.handle h.ptr = some h.setErased := hcore.handle_of_mem hmem
    simp only [r, t] at hr
    simp only [hr]
    split
    · rename_i hp
      refine ⟨hcore, ?_⟩
      intro a ha he
      by_cases hap : a.ptr = h.ptr
      · rw [hcore.ptr_inj ha hmem hap]
        exact of_decide_eq_true hp
      · exact hother a ha hap he
    · rename_i hp
      have hz : h.refs = 0 := by
        simpa [Handle.hasRefs, Handle.setErased, Nat.pos_iff_ne_zero] using hp
      refine ⟨discard_core hcore hmem rfl rfl ?_, ?_⟩
      · exact (hs.refs_eq h hm).symm.trans hz
      · intro a ha he
        obtain ⟨ha, hne⟩ := mem_others.mp ha
        exact hother a ha hne he
  · exact hs

end WiscKey.ShardHandles
