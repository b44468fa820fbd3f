import WiscKey.CacheShard

namespace WiscKey.ShardInvariant

open WiscKey.Evict WiscKey.CacheShard

variable {ν : Type}

def live (l : List (Handle ν)) : List Slot := (l.filter Handle.inCache).map Handle.slot

def Slot.id (e : Slot) : List UInt8 × UInt32 := (e.key, e.hash)

/-- `out p` is the number of handles to `p` that clients hold. Every address
ever handed out has been freed once or is in the list once. -/
structure Core (s : Shard ν) (out : Nat → Nat) : Prop where
  allocated : (s.freed ++ s.list.map Handle.ptr).Perm (List.range s.nextPtr)
  refs_eq : ∀ h ∈ s.list, h.refs = out h.ptr
  pinned : ∀ p, 0 < out p → p ∈ s.list.map Handle.ptr
  table_perm : s.table.Perm (live s.list)
  keys : (s.table.map Slot.id).Nodup
  usage_eq : s.usage = total Handle.totalCharge s.list

structure Inv (s : Shard ν) (out : Nat → Nat) : Prop extends Core s out where
  erased : ∀ h ∈ s.list, h.inCache = false → 0 < h.refs

theorem Slot.isFor_iff {key : List UInt8} {hash : UInt32} {e : Slot} :
    e.isFor key hash = true ↔ Slot.id e = (key, hash) := by
  simp [CacheShard.Slot.isFor, Slot.id, and_comm]

theorem mem_live {l : List (Handle ν)} {e : Slot} :
    e ∈ live l ↔ ∃ h ∈ l, h.inCache = true ∧ h.slot = e := by
  simp [live, and_assoc]

theorem Core.ptr_nodup {s : Shard ν} {out : Nat → Nat} (h : Core s out) :
    (s.list.map Handle.ptr).Nodup :=
  (List.nodup_append.mp (h.allocated.nodup_iff.mpr List.nodup_range)).2.1

theorem Core.ptr_inj {s : Shard ν} {out : Nat → Nat} (h : Core s out) {a c : Handle ν}
    (ha : a ∈ s.list) (hc : c ∈ s.list) (he : a.ptr = c.ptr) : a = c :=
  List.inj_on_of_nodup_map h.ptr_nodup ha hc he

theorem Core.slot_inj {s : Shard ν} {out : Nat → Nat} (h : Core s out) {a c : Slot}
    (ha : a ∈ s.table) (hc : c ∈ s.table) (he : Slot.id a = Slot.id c) : a = c :=
  List.inj_on_of_nodup_map h.keys ha hc he

theorem handle_some {s : Shard ν} {p : Nat} {h : Handle ν} (hp : s.handle p = some h) :
    h ∈ s.list ∧ h.ptr = p :=
  ⟨List.mem_of_find?_eq_some hp, by simpa using List.find?_some hp⟩

theorem Core.handle_of_mem {s : Shard ν} {out : Nat → Nat} (hs : Core s out) {h : Handle ν}
    (hm : h ∈ s.list) : s.handle h.ptr = some h := by
  cases hp : s.handle h.ptr with
  | none => simpa using List.find?_eq_none.mp hp h hm
  | some c =>
    obtain ⟨hc, he⟩ := handle_some hp
    rw [hs.ptr_inj hc hm he]

/-- The table finds a key exactly when the list holds it unerased. -/
theorem Core.find_iff {s : Shard ν} {out : Nat → Nat} (hs : Core s out) {key : List UInt8}
    {hash : UInt32} {p : Nat} :
    s.find key hash = some p ↔
      ∃ h ∈ s.list, h.inCache = true ∧ h.key = key ∧ h.hash = hash ∧ h.ptr = p := by
  constructor
  · intro hf
    obtain ⟨e, he, rfl⟩ := Option.map_eq_some_iff.mp hf
    have hid := Slot.isFor_iff.mp (List.find?_some he)
    obtain ⟨h, hm, hc, rfl⟩ := mem_live.mp (hs.table_perm.mem_iff.mp (List.mem_of_find?_eq_some he))
    exact ⟨h, hm, hc, congrArg Prod.fst hid, congrArg Prod.snd hid, rfl⟩
  · rintro ⟨h, hm, hc, rfl, rfl, rfl⟩
    have ht : h.slot ∈ s.table := hs.table_perm.mem_iff.mpr (mem_live.mpr ⟨h, hm, hc, rfl⟩)
    cases hf : s.table.find? (Slot.isFor h.key h.hash) with
    | none => exact absurd (Slot.isFor_iff.mpr rfl) (List.find?_eq_none.mp hf h.slot ht)
    | some e =>
      have he := hs.slot_inj (List.mem_of_find?_eq_some hf) ht
        (Slot.isFor_iff.mp (List.find?_some hf))
      simp [Shard.find, hf, he, Handle.slot]

theorem eraseP_perm {t r : List Slot} {e : Slot} (ht : t.Perm (e :: r))
    (hk : (t.map Slot.id).Nodup) : (t.eraseP (Slot.isFor e.key e.hash)).Perm r := by
  have he : e ∈ t := ht.mem_iff.mpr List.mem_cons_self
  obtain ⟨c, l, m, _, hc, hl, hr⟩ :=
    List.exists_of_eraseP (p := Slot.isFor e.key e.hash) he (Slot.isFor_iff.mpr rfl)
  have hce : c = e :=
    List.inj_on_of_nodup_map hk (hl ▸ by simp) he (Slot.isFor_iff.mp hc)
  subst c
  rw [hr]
  rw [hl] at ht
  exact (List.perm_middle.symm.trans ht).cons_inv

theorem unlink_perm {t r : List Slot} {ev : List (Handle ν)}
    (ht : t.Perm (ev.map Handle.slot ++ r)) (hk : (t.map Slot.id).Nodup) :
    (ev.foldl Shard.unlink t).Perm r := by
  induction ev generalizing t with
  | nil => exact ht
  | cons h ev ih =>
    refine ih (eraseP_perm ht hk) (hk.sublist ?_)
    exact (List.eraseP_sublist).map _

theorem unlink_sublist (t : List Slot) (ev : List (Handle ν)) :
    (ev.foldl Shard.unlink t).Sublist t := by
  induction ev generalizing t with
  | nil => exact List.Sublist.refl t
  | cons h ev ih => exact (ih _).trans List.eraseP_sublist

end WiscKey.ShardInvariant
