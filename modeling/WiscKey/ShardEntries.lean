import WiscKey.ShardHandles

namespace WiscKey.ShardEntries

open WiscKey.Evict WiscKey.CacheShard WiscKey.ShardInvariant WiscKey.ShardOps WiscKey.ShardHandles

variable {ν : Type}

/-- What stays the same in a handle from its allocation on. -/
def entry (h : Handle ν) : Nat × List UInt8 × UInt32 × ν := (h.ptr, h.key, h.hash, h.value)

def entries (s : Shard ν) : List (Nat × List UInt8 × UInt32 × ν) := s.list.map entry

variable {s : Shard ν}

theorem modify_entries (s : Shard ν) (p : Nat) {f : Handle ν → Handle ν}
    (hf : ∀ h, entry (f h) = entry h) : entries (s.modify p f) = entries s :=
  modify_map s p f entry hf

theorem entries_sublist {r : Shard ν} (h : r.list.Sublist s.list) : entries r ⊆ entries s :=
  (h.map entry).subset

theorem makeRoom_entries (s : Shard ν) (charge : Nat) :
    entries (s.makeRoom charge) ⊆ entries s := by
  unfold Shard.makeRoom
  split
  · exact entries_sublist (evict_sublist _ _ _ _ _ _)
  · exact List.Subset.refl _

theorem insert_entries {key : List UInt8} {hash : UInt32} {value : ν} {charge : Nat}
    {e : Nat × List UInt8 × UInt32 × ν}
    (he : e ∈ entries (s.insert key hash value charge).1) :
    e ∈ entries s ∨ e = (s.nextPtr, key, hash, value) := by
  have hr := makeRoom_entries s (s.alloc key hash value charge).totalCharge
  simp only [Shard.insert] at he
  split at he
  · rename_i p hf
    have hm := modify_entries (s.makeRoom (s.alloc key hash value charge).totalCharge) p
      (f := Handle.ref) (fun _ => rfl)
    exact Or.inl (hr (hm ▸ he))
  · rw [entries, List.map_append, List.mem_append] at he
    obtain he | he := he
    · exact Or.inl (hr he)
    · exact Or.inr (List.mem_singleton.mp he)

theorem lookup_entries (s : Shard ν) (policy : Policy) (key : List UInt8) (hash : UInt32) :
    entries (s.lookup policy key hash).1 ⊆ entries s := by
  unfold Shard.lookup
  split
  · rename_i p hp
    rw [modify_entries _ p (f := Handle.ref) (fun _ => rfl)]
    split
    · exact ((toBack_perm s p).map entry).subset
    · exact List.Subset.refl _
  · exact List.Subset.refl _

theorem discard_entries (s : Shard ν) (p : Nat) : entries (s.discard p) ⊆ entries s :=
  entries_sublist List.filter_sublist

theorem release_entries (s : Shard ν) (p : Nat) : entries (s.release p) ⊆ entries s := by
  have hm := modify_entries s p (f := Handle.unref) (fun _ => rfl)
  rw [← hm]
  simp only [Shard.release]
  split
  · split
    · exact discard_entries _ p
    · exact List.Subset.refl _
  · exact List.Subset.refl _

theorem erase_entries (s : Shard ν) (key : List UInt8) (hash : UInt32) :
    entries (s.erase key hash).1 ⊆ entries s := by
  simp only [Shard.erase]
  split
  · rename_i p hp
    have hm : entries ({ s with table := s.table.eraseP (Slot.isFor key hash) }.modify p
        Handle.setErased) = entries s := modify_entries _ p (fun _ => rfl)
    rw [← hm]
    split
    · simp only
      split
      · exact List.Subset.refl _
      · exact discard_entries _ p
    · exact List.Subset.refl _
  · exact List.Subset.refl _

theorem entry_unique {out : Nat → Nat} (hs : Core s out) {e e' : Nat × List UInt8 × UInt32 × ν}
    (he : e ∈ entries s) (he' : e' ∈ entries s) (hp : e.1 = e'.1) : e = e' := by
  obtain ⟨a, ha, rfl⟩ := List.mem_map.mp he
  obtain ⟨a', ha', rfl⟩ := List.mem_map.mp he'
  rw [hs.ptr_inj ha ha' hp]

theorem entry_ne_nextPtr {out : Nat → Nat} (hs : Core s out)
    {e : Nat × List UInt8 × UInt32 × ν} (he : e ∈ entries s) : e.1 ≠ s.nextPtr := by
  obtain ⟨a, ha, rfl⟩ := List.mem_map.mp he
  intro hp
  exact nextPtr_fresh hs (hp ▸ List.mem_map_of_mem ha)

theorem lookup_entry {out : Nat → Nat} (hs : Core s out) {policy : Policy} {key : List UInt8}
    {hash : UInt32} {p : Nat} (hl : (s.lookup policy key hash).2 = some p) :
    ∃ e ∈ entries s, e.1 = p ∧ e.2.1 = key := by
  have hf : s.find key hash = some p := by
    unfold Shard.lookup at hl
    split at hl
    · rename_i q hq
      cases hl
      exact hq
    · cases hl
  obtain ⟨a, ha, -, hk, -, hp⟩ := hs.find_iff.mp hf
  exact ⟨entry a, List.mem_map_of_mem ha, hp, hk⟩

theorem value_of_entry {out : Nat → Nat} (hs : Core s out) {e : Nat × List UInt8 × UInt32 × ν}
    (he : e ∈ entries s) : s.value e.1 = some e.2.2.2 := by
  obtain ⟨a, ha, rfl⟩ := List.mem_map.mp he
  rw [Shard.value, entry, hs.handle_of_mem ha]
  rfl

end WiscKey.ShardEntries
