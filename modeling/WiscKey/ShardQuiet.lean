import WiscKey.ShardHandles

namespace WiscKey.ShardQuiet

open WiscKey.Evict WiscKey.CacheShard WiscKey.ShardInvariant WiscKey.ShardOps WiscKey.ShardHandles

variable {ν : Type} {s : Shard ν} {key : List UInt8} {hash : UInt32} {value : ν} {charge : Nat}

/-- No client holds a handle. This is so between the operations of a single
client, which releases every handle it gets. -/
def Quiet (s : Shard ν) : Prop := Inv s (fun _ => 0)

/-- An entry stays when room is made for a charge: it and all the entries
behind it fit beside the charge. -/
def Survives (s : Shard ν) (charge : Nat) (h : Handle ν) : Prop :=
  ∃ r, h :: r <:+ s.list ∧ total Handle.totalCharge (h :: r) + charge ≤ s.capacity

theorem new_quiet (capacity : Nat) : Quiet (Shard.new capacity : Shard ν) where
  allocated := List.Perm.refl _
  refs_eq := by simp [Shard.new]
  pinned := by simp
  table_perm := List.Perm.refl _
  keys := List.nodup_nil
  usage_eq := rfl
  erased := by simp [Shard.new]

theorem Quiet.refs (hs : Quiet s) {h : Handle ν} (hm : h ∈ s.list) : h.refs = 0 :=
  hs.refs_eq h hm

theorem Quiet.inCache (hs : Quiet s) {h : Handle ν} (hm : h ∈ s.list) : h.inCache = true :=
  unpinned_inCache hs hm (by simp [Handle.hasRefs, hs.refs hm])

theorem Quiet.find_iff (hs : Quiet s) {p : Nat} :
    s.find key hash = some p ↔ ∃ h ∈ s.list, h.key = key ∧ h.hash = hash ∧ h.ptr = p := by
  constructor
  · intro hf
    obtain ⟨h, hm, -, hk⟩ := hs.toCore.find_iff.mp hf
    exact ⟨h, hm, hk⟩
  · rintro ⟨h, hm, hk⟩
    exact hs.toCore.find_iff.mpr ⟨h, hm, hs.inCache hm, hk⟩

theorem Quiet.key_inj (hs : Quiet s) {a c : Handle ν} (ha : a ∈ s.list) (hc : c ∈ s.list)
    (hk : a.key = c.key) (hh : a.hash = c.hash) : a = c := by
  have h1 := hs.find_iff.mpr ⟨a, ha, hk, hh, rfl⟩
  have h2 := hs.find_iff.mpr ⟨c, hc, rfl, rfl, rfl⟩
  exact hs.ptr_inj ha hc (Option.some.inj (h1.symm.trans h2))

theorem makeRoom_list (hs : Quiet s) (charge : Nat) :
    (s.makeRoom charge).list = trim Handle.totalCharge s.capacity charge s.list := by
  have hp : ∀ h ∈ s.list, h.hasRefs = false := by
    intro h hm
    simp [Handle.hasRefs, hs.refs hm]
  unfold Shard.makeRoom
  split
  · simp only [Shard.evictFrom, hs.usage_eq]
    exact evict_eq_trim _ _ _ _ _ hp
  · rename_i hle
    cases hl : s.list with
    | nil => rfl
    | cons a l =>
      rw [hs.usage_eq, hl] at hle
      rw [trim, if_pos (by omega)]

theorem ref_release_out (out : Nat → Nat) (p : Nat) :
    Function.update (Function.update out p (out p + 1)) p
      (Function.update out p (out p + 1) p - 1) = out := by
  simp

theorem insertRelease_quiet (hs : Quiet s) : Quiet (s.insertRelease key hash value charge) := by
  have hi := insert_inv hs key hash value charge
  have hr := release_inv hi (p := (s.insert key hash value charge).2) (by simp)
  rw [ref_release_out] at hr
  exact hr

theorem release_list {p : Nat} {h : Handle ν}
    (hh : (s.modify p Handle.unref).handle p = some h) (hc : h.inCache = true) :
    (s.release p).list = (s.modify p Handle.unref).list := by
  simp only [Shard.release, hh]
  rw [if_neg (by simp [hc])]

theorem unref_ref (h : Handle ν) : h.ref.unref = h := by
  simp [Handle.ref, Handle.unref]

theorem unref_ref_list (l : List (Handle ν)) (p : Nat) :
    (l.map (fun a => if a.ptr = p then a.ref else a)).map
      (fun a => if a.ptr = p then a.unref else a) = l := by
  induction l with
  | nil => rfl
  | cons a l ih =>
    have hr : a.ref.ptr = a.ptr := rfl
    by_cases ha : a.ptr = p <;> simp_all [unref_ref]

theorem makeRoom_quiet (hs : Quiet s) (charge : Nat) : Quiet (s.makeRoom charge) :=
  makeRoom_inv hs charge

theorem insertRelease_present (hs : Quiet s) {h : Handle ν}
    (hm : h ∈ (s.makeRoom (s.alloc key hash value charge).totalCharge).list)
    (hk : h.key = key) (hh : h.hash = hash) :
    (s.insertRelease key hash value charge).list =
      (s.makeRoom (s.alloc key hash value charge).totalCharge).list := by
  let r := s.makeRoom (s.alloc key hash value charge).totalCharge
  have hr : Quiet r := makeRoom_quiet hs _
  have hf : r.find key hash = some h.ptr := hr.find_iff.mpr ⟨h, hm, hk, hh, rfl⟩
  have hi : s.insert key hash value charge =
      ({ r.modify h.ptr Handle.ref with
          nextPtr := s.nextPtr + 1, freed := r.freed ++ [s.nextPtr] }, h.ptr) := by
    simp only [Shard.insert, Shard.find] at hf ⊢
    rw [hf]
    rfl
  have hl : ({ r.modify h.ptr Handle.ref with
      nextPtr := s.nextPtr + 1, freed := r.freed ++ [s.nextPtr] }.modify h.ptr
        Handle.unref).list = r.list := unref_ref_list r.list h.ptr
  rw [Shard.insertRelease, hi, release_list ?_ (hr.inCache hm), hl]
  rw [Shard.handle, hl]
  exact hr.handle_of_mem hm

theorem insertRelease_absent (hs : Quiet s)
    (hn : ∀ h ∈ (s.makeRoom (s.alloc key hash value charge).totalCharge).list,
      h.key = key → h.hash ≠ hash) :
    (s.insertRelease key hash value charge).list =
      (s.makeRoom (s.alloc key hash value charge).totalCharge).list ++
        [s.alloc key hash value charge] := by
  let h := s.alloc key hash value charge
  let r := s.makeRoom h.totalCharge
  have hr : Quiet r := makeRoom_quiet hs _
  have hf : r.find key hash = none := by
    cases hf : r.find key hash with
    | none => rfl
    | some p =>
      obtain ⟨a, ha, hk, hh, -⟩ := hr.find_iff.mp hf
      exact absurd hh (hn a ha hk)
  have hi : s.insert key hash value charge =
      ({ r with
          nextPtr := s.nextPtr + 1, list := r.list ++ [h.ref], table := h.slot :: r.table,
          usage := r.usage + h.totalCharge }, s.nextPtr) := by
    simp only [Shard.insert, Shard.find] at hf ⊢
    rw [hf]
    rfl
  have hfresh : ∀ a ∈ r.list, a.ptr ≠ s.nextPtr := by
    intro a ha he
    rw [← makeRoom_nextPtr s h.totalCharge] at he
    exact nextPtr_fresh hr.toCore (he ▸ List.mem_map_of_mem ha)
  have hl : ({ r with
      nextPtr := s.nextPtr + 1, list := r.list ++ [h.ref], table := h.slot :: r.table,
      usage := r.usage + h.totalCharge }.modify s.nextPtr Handle.unref).list = r.list ++ [h] := by
    have hm : r.list.map (fun a => if a.ptr = s.nextPtr then a.unref else a) = r.list := by
      conv_rhs => rw [← List.map_id r.list]
      apply List.map_congr_left
      intro a ha
      simp [hfresh a ha]
    simp only [Shard.modify, List.map_append, hm]
    simp [h, Shard.alloc, Handle.ref, Handle.unref]
  rw [Shard.insertRelease, hi, release_list (h := h) ?_ rfl, hl]
  rw [Shard.handle, hl, List.find?_append, List.find?_eq_none.mpr]
  · simp [h, Shard.alloc]
  · simpa using hfresh

theorem toBackIf_quiet (hs : Quiet s) (policy : Policy) (p : Nat) :
    Quiet (if policy = .lru then s.toBack p else s) := by
  split
  · exact toBack_inv hs p
  · exact hs

theorem toBackIf_perm (s : Shard ν) (policy : Policy) (p : Nat) :
    (if policy = .lru then s.toBack p else s).list.Perm s.list := by
  split
  · exact toBack_perm s p
  · exact List.Perm.refl _

theorem read_hit (hs : Quiet s) (policy : Policy) {h : Handle ν} (hm : h ∈ s.list)
    (hk : h.key = key) (hh : h.hash = hash) :
    Quiet (s.read policy key hash).1 ∧ (s.read policy key hash).2 = some h.value ∧
      (s.read policy key hash).1.list = (if policy = .lru then s.toBack h.ptr else s).list := by
  have hf : s.find key hash = some h.ptr := hs.find_iff.mpr ⟨h, hm, hk, hh, rfl⟩
  let t := if policy = .lru then s.toBack h.ptr else s
  have ht : Quiet t := toBackIf_quiet hs policy h.ptr
  have hmt : h ∈ t.list := (toBackIf_perm s policy h.ptr).mem_iff.mpr hm
  have hr : s.read policy key hash =
      ((t.modify h.ptr Handle.ref).release h.ptr, (t.modify h.ptr Handle.ref).value h.ptr) := by
    simp only [Shard.read, Shard.lookup, hf, t]
  have hl : ((t.modify h.ptr Handle.ref).modify h.ptr Handle.unref).list = t.list :=
    unref_ref_list t.list h.ptr
  rw [hr]
  refine ⟨?_, ?_, ?_⟩
  · have hi := release_inv (ref_inv ht (List.mem_map_of_mem hmt)) (p := h.ptr) (by simp)
    rw [ref_release_out] at hi
    exact hi
  · rw [Shard.value, modify_handle ht.ptr_nodup hmt (f := Handle.ref) (fun _ => rfl)]
    rfl
  · rw [release_list ?_ (ht.inCache hmt), hl]
    rw [Shard.handle, hl]
    exact ht.handle_of_mem hmt

theorem read_miss (hs : Quiet s) (policy : Policy)
    (hn : ∀ h ∈ s.list, h.key = key → h.hash ≠ hash) : s.read policy key hash = (s, none) := by
  have hf : s.find key hash = none := by
    cases hf : s.find key hash with
    | none => rfl
    | some p =>
      obtain ⟨a, ha, hk, hh, -⟩ := hs.find_iff.mp hf
      exact absurd hh (hn a ha hk)
  simp only [Shard.read, Shard.lookup, hf]

theorem mem_erase (hs : Quiet s) {h : Handle ν} :
    h ∈ (s.erase key hash).1.list ↔ h ∈ s.list ∧ ¬(h.key = key ∧ h.hash = hash) := by
  simp only [Shard.erase]
  split
  · rename_i p hf
    obtain ⟨a, ha, rfl, rfl, rfl⟩ := hs.find_iff.mp hf
    have hne : ∀ c ∈ s.list, c.ptr ≠ a.ptr ↔ ¬(c.key = a.key ∧ c.hash = a.hash) := by
      intro c hc
      refine not_congr ⟨?_, fun hk => congrArg Handle.ptr (hs.key_inj hc ha hk.1 hk.2)⟩
      intro he
      rw [hs.ptr_inj hc ha he]
      exact ⟨rfl, rfl⟩
    have hcore := erase_core hs.toCore ha (hs.inCache ha)
    have hh := hcore.handle_of_mem (mem_modify.mpr ⟨a, ha, if_pos rfl⟩)
    rw [show a.setErased.ptr = a.ptr from rfl] at hh
    simp only [hh]
    rw [if_neg (by simp [Handle.hasRefs, Handle.setErased, hs.refs ha])]
    constructor
    · intro hm
      obtain ⟨hm, hp⟩ := mem_others.mp hm
      obtain ⟨c, hc, rfl⟩ := mem_modify.mp hm
      by_cases hca : c.ptr = a.ptr
      · rw [if_pos hca] at hp
        exact absurd hca hp
      · rw [if_neg hca]
        exact ⟨hc, (hne c hc).mp hca⟩
    · rintro ⟨hm, hk⟩
      have hp := (hne h hm).mpr hk
      exact mem_others.mpr ⟨mem_modify.mpr ⟨h, hm, if_neg hp⟩, hp⟩
  · rename_i hf
    refine ⟨fun hm => ⟨hm, ?_⟩, And.left⟩
    rintro ⟨hk, hh⟩
    have hp := hs.find_iff.mpr ⟨h, hm, hk, hh, rfl⟩
    rw [hf] at hp
    cases hp

end WiscKey.ShardQuiet
