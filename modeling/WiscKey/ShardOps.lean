import WiscKey.ShardInvariant

namespace WiscKey.ShardOps

open WiscKey.Evict WiscKey.CacheShard WiscKey.ShardInvariant

variable {ν : Type} {s : Shard ν} {out : Nat → Nat}

theorem live_map (l : List (Handle ν)) (f : Handle ν → Handle ν)
    (hc : ∀ h, (f h).inCache = h.inCache) (hs : ∀ h, (f h).slot = h.slot) :
    live (l.map f) = live l := by
  induction l with
  | nil => rfl
  | cons a l ih =>
    simp only [live] at ih
    cases ha : a.inCache <;> simp [live, hc, hs, ha, ih]

theorem live_append (l r : List (Handle ν)) : live (l ++ r) = live l ++ live r := by
  simp [live]

theorem live_perm {l r : List (Handle ν)} (h : l.Perm r) : (live l).Perm (live r) :=
  (h.filter _).map _

theorem modify_map {γ : Type} (s : Shard ν) (p : Nat) (f : Handle ν → Handle ν)
    (g : Handle ν → γ) (hg : ∀ h, g (f h) = g h) :
    (s.modify p f).list.map g = s.list.map g := by
  simp only [Shard.modify, List.map_map]
  apply List.map_congr_left
  intro h _
  by_cases hp : h.ptr = p <;> simp [hp, hg]

theorem release_sublist {γ : Type} (s : Shard ν) (p : Nat) (g : Handle ν → γ)
    (hg : ∀ h, g h.unref = g h) : ((s.release p).list.map g).Sublist (s.list.map g) := by
  rw [Shard.release, ← modify_map s p Handle.unref g hg]
  split
  · split
    · exact List.filter_sublist.map _
    · exact List.Sublist.refl _
  · exact List.Sublist.refl _

theorem erase_sublist {γ : Type} (s : Shard ν) (key : List UInt8) (hash : UInt32)
    (g : Handle ν → γ) (hg : ∀ h, g h.setErased = g h) :
    ((s.erase key hash).1.list.map g).Sublist (s.list.map g) := by
  simp only [Shard.erase]
  split
  · rename_i p _
    have hm : ({ s with table := s.table.eraseP (Slot.isFor key hash) }.modify p
        Handle.setErased).list.map g = s.list.map g := modify_map _ _ _ _ hg
    rw [← hm]
    split
    · simp only
      split
      · exact List.Sublist.refl _
      · exact List.filter_sublist.map _
    · exact List.Sublist.refl _
  · exact List.Sublist.refl _

theorem mem_modify {p : Nat} {f : Handle ν → Handle ν} {h : Handle ν} :
    h ∈ (s.modify p f).list ↔ ∃ a ∈ s.list, (if a.ptr = p then f a else a) = h := by
  simp [Shard.modify]

theorem modify_core (hs : Core s out) {out' : Nat → Nat} (p : Nat) (f : Handle ν → Handle ν)
    (hc : ∀ h, (f h).inCache = h.inCache) (hsl : ∀ h, (f h).slot = h.slot)
    (ht : ∀ h, (f h).totalCharge = h.totalCharge)
    (hr : ∀ h ∈ s.list, h.ptr = p → (f h).refs = out' p)
    (ho : ∀ q, q ≠ p → out' q = out q) (hp : 0 < out' p → p ∈ s.list.map Handle.ptr) :
    Core (s.modify p f) out' where
  allocated := by
    rw [modify_map s p f Handle.ptr (fun h => congrArg Slot.ptr (hsl h))]
    exact hs.allocated
  refs_eq := by
    intro h hm
    obtain ⟨a, ha, rfl⟩ := mem_modify.mp hm
    by_cases hap : a.ptr = p
    · have hfp : (f a).ptr = a.ptr := congrArg Slot.ptr (hsl a)
      simp only [hap, if_true, hfp]
      exact hr a ha hap
    · simp only [hap, if_false, ho _ hap]
      exact hs.refs_eq a ha
  pinned := by
    intro q hq
    rw [modify_map s p f Handle.ptr (fun h => congrArg Slot.ptr (hsl h))]
    by_cases hqp : q = p
    · subst q
      exact hp hq
    · exact hs.pinned q (ho q hqp ▸ hq)
  table_perm := by
    refine hs.table_perm.trans ?_
    rw [Shard.modify, live_map]
    · intro h
      split <;> simp [hc]
    · intro h
      split <;> simp [hsl]
  keys := hs.keys
  usage_eq := by
    rw [total, modify_map s p f _ ht]
    exact hs.usage_eq

theorem perm_core (hs : Core s out) {l : List (Handle ν)} (hl : l.Perm s.list) :
    Core { s with list := l } out where
  allocated := ((hl.map _).append_left _).trans hs.allocated
  refs_eq := fun h hm => hs.refs_eq h (hl.mem_iff.mp hm)
  pinned := fun p hp => (hl.map _).mem_iff.mpr (hs.pinned p hp)
  table_perm := hs.table_perm.trans (live_perm hl.symm)
  keys := hs.keys
  usage_eq := hs.usage_eq.trans (total_perm _ hl.symm)

/-- Two shards with the same handles in any order. -/
structure Alike (t s : Shard ν) : Prop where
  list : t.list.Perm s.list
  table : t.table = s.table
  nextPtr : t.nextPtr = s.nextPtr
  freed : t.freed = s.freed

theorem Alike.inv {t : Shard ν} (h : Alike t s) (hs : Inv s out)
    (hu : t.usage = total Handle.totalCharge t.list) : Inv t out := by
  obtain ⟨hl, ht, hn, hf⟩ := h
  have hc := perm_core hs.toCore hl
  refine ⟨⟨?_, hc.refs_eq, hc.pinned, ?_, ?_, hu⟩, fun a ha => hs.erased a (hl.mem_iff.mp ha)⟩
  · rw [hf, hn]
    exact hc.allocated
  · rw [ht]
    exact hc.table_perm
  · rw [ht]
    exact hc.keys

theorem toBack_perm (s : Shard ν) (p : Nat) : (s.toBack p).list.Perm s.list := by
  have hn : (fun h : Handle ν => decide (h.ptr ≠ p)) = fun h => !decide (h.ptr = p) := by
    funext h
    simp
  simp only [Shard.toBack, hn]
  exact List.perm_append_comm.trans (List.filter_append_perm _ _)

theorem toBack_inv (hs : Inv s out) (p : Nat) : Inv (s.toBack p) out where
  toCore := perm_core hs.toCore (toBack_perm s p)
  erased := fun h hm => hs.erased h ((toBack_perm s p).mem_iff.mp hm)

theorem ref_inv (hs : Inv s out) {p : Nat} (hp : p ∈ s.list.map Handle.ptr) :
    Inv (s.modify p Handle.ref) (Function.update out p (out p + 1)) where
  toCore := by
    refine modify_core hs.toCore p Handle.ref (fun _ => rfl) (fun _ => rfl) (fun _ => rfl) ?_ ?_
      (fun _ => hp)
    · intro h hm he
      rw [Function.update_self, ← he, ← hs.refs_eq h hm]
      rfl
    · exact fun q hq => Function.update_of_ne hq _ _
  erased := by
    intro h hm hc
    obtain ⟨a, ha, rfl⟩ := mem_modify.mp hm
    by_cases hap : a.ptr = p
    · simp [hap, Handle.ref]
    · simp only [hap, if_false] at hc ⊢
      exact hs.erased a ha hc

theorem unpinned_inCache (hs : Inv s out) {h : Handle ν} (hm : h ∈ s.list)
    (hr : h.hasRefs = false) : h.inCache = true := by
  cases hc : h.inCache with
  | true => rfl
  | false =>
    have hp := hs.erased h hm hc
    simp only [Handle.hasRefs, decide_eq_false_iff_not] at hr
    contradiction

theorem live_of_inCache {l : List (Handle ν)} (hl : ∀ h ∈ l, h.inCache = true) :
    live l = l.map Handle.slot := by
  rw [live, List.filter_eq_self.mpr hl]

/-- Handles that nobody holds may be taken out of the list and the table, whichever
they are. -/
theorem takeOut_inv (hs : Inv s out) {l ev : List (Handle ν)} (hperm : (l ++ ev).Perm s.list)
    (hev : ∀ h ∈ ev, h.hasRefs = false) :
    Inv { s with
        list := l
        usage := s.usage - total Handle.totalCharge ev
        table := ev.foldl Shard.unlink s.table
        freed := s.freed ++ ev.map Handle.ptr } out := by
  have hsub : l ⊆ s.list := fun h hm => hperm.mem_iff.mp (List.mem_append_left ev hm)
  have hmem : ∀ h ∈ ev, h ∈ s.list := fun h hm => hperm.mem_iff.mp (List.mem_append_right l hm)
  have hlive : live ev = ev.map Handle.slot :=
    live_of_inCache (fun h hm => unpinned_inCache hs (hmem h hm) (hev h hm))
  refine ⟨⟨?_, fun h hm => hs.refs_eq h (hsub hm), ?_, ?_, ?_, ?_⟩,
    fun h hm => hs.erased h (hsub hm)⟩
  · refine List.Perm.trans ?_ hs.allocated
    have hp := hperm.map Handle.ptr
    rw [List.map_append] at hp
    simp only [List.append_assoc]
    exact (List.perm_append_comm.trans hp).append_left _
  · intro p hp
    obtain ⟨h, hm, rfl⟩ := List.mem_map.mp (hs.pinned p hp)
    obtain hk | he := List.mem_append.mp (hperm.mem_iff.mpr hm)
    · exact List.mem_map_of_mem hk
    · have hr := hev h he
      simp only [Handle.hasRefs, hs.refs_eq h hm, decide_eq_false_iff_not] at hr
      contradiction
  · refine unlink_perm ?_ hs.keys
    refine hs.table_perm.trans ((live_perm hperm.symm).trans ?_)
    rw [live_append, hlive]
    exact List.perm_append_comm
  · exact hs.keys.sublist ((unlink_sublist _ _).map _)
  · have ht := total_perm Handle.totalCharge hperm
    rw [total_append, ← hs.usage_eq] at ht
    change s.usage - total Handle.totalCharge ev = total Handle.totalCharge l
    omega

theorem evictFrom_inv (hs : Inv s out) (charge : Nat) : Inv (s.evictFrom charge) out :=
  takeOut_inv hs (evict_perm ..) (evict_unpinned _ _ _ _ _ _)

theorem makeRoom_inv (hs : Inv s out) (charge : Nat) : Inv (s.makeRoom charge) out := by
  unfold Shard.makeRoom
  split
  · exact evictFrom_inv hs charge
  · exact hs

end WiscKey.ShardOps
