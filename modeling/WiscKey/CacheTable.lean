import WiscKey.ShardedCache
import WiscKey.ShardHandles

namespace WiscKey.CacheTable

open WiscKey.CacheShard WiscKey.ShardInvariant WiscKey.Hash WiscKey.ShardedCache

variable {ν : Type}

def listed (s : Shard ν) : List (List UInt8 × UInt32) := s.table.map Slot.id

variable {s : Shard ν} {key : List UInt8} {hash : UInt32}

theorem find_eq_none_iff : s.find key hash = none ↔ (key, hash) ∉ listed s := by
  rw [Shard.find, Option.map_eq_none_iff, List.find?_eq_none, listed, List.mem_map]
  constructor
  · rintro h ⟨e, he, hid⟩
    exact h e he (Slot.isFor_iff.mpr hid)
  · intro h e he hid
    exact h ⟨e, he, Slot.isFor_iff.mp hid⟩

theorem makeRoom_listed (s : Shard ν) (charge : Nat) :
    (listed (s.makeRoom charge)).Sublist (listed s) := by
  rw [Shard.makeRoom]
  split
  · exact (unlink_sublist _ _).map _
  · exact List.Sublist.refl _

theorem insert_listed (s : Shard ν) (key : List UInt8) (hash : UInt32) (value : ν) (charge : Nat) :
    (listed (s.insert key hash value charge).1).Sublist (listed s) ∨
      ∃ l, l.Sublist (listed s) ∧ (key, hash) ∉ l ∧
        listed (s.insert key hash value charge).1 = (key, hash) :: l := by
  have hr := makeRoom_listed s (s.alloc key hash value charge).totalCharge
  simp only [Shard.insert]
  split
  · exact Or.inl hr
  · rename_i hf
    exact Or.inr ⟨_, hr, find_eq_none_iff.mp hf, rfl⟩

theorem lookup_listed (s : Shard ν) (policy : Policy) (key : List UInt8) (hash : UInt32) :
    listed (s.lookup policy key hash).1 = listed s := by
  rw [Shard.lookup]
  split
  · split
    · rfl
    · rfl
  · rfl

theorem release_listed (s : Shard ν) (p : Nat) : listed (s.release p) = listed s := by
  simp only [Shard.release]
  split
  · split
    · rfl
    · rfl
  · rfl

theorem map_eraseP (t : List Slot) :
    (t.eraseP (Slot.isFor key hash)).map Slot.id = (t.map Slot.id).erase (key, hash) := by
  induction t with
  | nil => rfl
  | cons e t ih =>
    by_cases he : e.isFor key hash
    · rw [List.eraseP_cons_of_pos he, List.map_cons, Slot.isFor_iff.mp he, List.erase_cons_head]
    · have hne : Slot.id e ≠ (key, hash) := fun h => he (Slot.isFor_iff.mpr h)
      rw [List.eraseP_cons_of_neg he, List.map_cons, List.map_cons, ih,
        List.erase_cons_tail (by simpa using hne)]

theorem erase_listed (s : Shard ν) (key : List UInt8) (hash : UInt32) :
    listed (s.erase key hash).1 = (listed s).erase (key, hash) := by
  simp only [Shard.erase]
  split
  · have ht : ∀ r : Shard ν, r.table = s.table.eraseP (Slot.isFor key hash) →
        listed r = (listed s).erase (key, hash) := by
      intro r hr
      rw [listed, hr, map_eraseP]
      rfl
    split
    · simp only
      split
      · exact ht _ rfl
      · exact ht _ rfl
    · exact ht _ rfl
  · rename_i hf
    exact (List.erase_of_not_mem (find_eq_none_iff.mp hf)).symm

def Distinct (c : Cache) : Prop := ∀ i, (listed (c.shards i)).Nodup

def Absent (c : Cache) (key : List UInt8) : Prop := (key, hashSlice key) ∉ listed (c.shard key)

/-- All that a client can do to a cache in one step, where it inserts only keys
with some property. -/
inductive Touched (new : List UInt8 → Prop) (c : Cache) : Cache → Prop
  | same : Touched new c c
  | insert {k v} : new k → Touched new c (c.insert k v).1
  | lookup {k} : Touched new c (c.lookup k).1
  | release {h} : Touched new c (c.release h)
  | erase {k} : Touched new c (c.erase k)

/-- What becomes of a table: some keys go, and one of the new keys comes. -/
def Turns (new : List UInt8 → Prop) (l l' : List (List UInt8 × UInt32)) : Prop :=
  l'.Sublist l ∨ ∃ a r, r.Sublist l ∧ a ∉ r ∧ l' = a :: r ∧ new a.1

variable {new : List UInt8 → Prop} {c c' : Cache}

theorem Turns.refl (l : List (List UInt8 × UInt32)) : Turns new l l :=
  Or.inl (List.Sublist.refl l)

theorem Turns.of_eq {l l' : List (List UInt8 × UInt32)} (h : l' = l) : Turns new l l' := by
  rw [h]
  exact Turns.refl l

theorem Turns.nodup {l l' : List (List UInt8 × UInt32)} (h : Turns new l l') (hl : l.Nodup) :
    l'.Nodup := by
  obtain h | ⟨a, r, hr, ha, rfl, -⟩ := h
  · exact hl.sublist h
  · exact List.nodup_cons.mpr ⟨ha, hl.sublist hr⟩

theorem Turns.not_mem {l l' : List (List UInt8 × UInt32)} {a : List UInt8 × UInt32}
    (h : Turns new l l') (hn : ¬ new a.1) (ha : a ∉ l) : a ∉ l' := by
  obtain h | ⟨b, r, hr, -, rfl, hb⟩ := h
  · exact fun hm => ha (h.subset hm)
  · intro hm
    obtain rfl | hm := List.mem_cons.mp hm
    · exact hn hb
    · exact ha (hr.subset hm)

theorem setShard_turns {i : Nat} {s : Shard (List UInt8)}
    (h : Turns new (listed (c.shards i)) (listed s)) (j : Nat) :
    Turns new (listed (c.shards j)) (listed ((c.setShard i s).shards j)) := by
  by_cases hj : j = i
  · subst j
    simpa only [Cache.setShard, Function.update_self] using h
  · simpa only [Cache.setShard, Function.update_of_ne hj] using Turns.refl _

theorem Touched.turns (h : Touched new c c') (j : Nat) :
    Turns new (listed (c.shards j)) (listed (c'.shards j)) := by
  cases h with
  | same => exact Turns.refl _
  | insert hn =>
    refine setShard_turns ?_ j
    obtain h | ⟨r, hr, ha, he⟩ := insert_listed (c.shard _) _ _ _ _
    · exact Or.inl h
    · exact Or.inr ⟨_, r, hr, ha, he, hn⟩
  | lookup => exact setShard_turns (Turns.of_eq (lookup_listed _ _ _ _)) j
  | release => exact setShard_turns (Turns.of_eq (release_listed _ _)) j
  | erase =>
    refine setShard_turns (Or.inl ?_) j
    rw [erase_listed]
    exact List.erase_sublist

theorem Touched.bits (h : Touched new c c') : c'.numShardBits = c.numShardBits := by
  cases h with
  | same | insert hn | lookup | release | erase => rfl

theorem Touched.distinct (h : Touched new c c') (hc : Distinct c) : Distinct c' :=
  fun i => (h.turns i).nodup (hc i)

theorem Touched.absent {key : List UInt8} (h : Touched new c c') (hn : ¬ new key)
    (hc : Absent c key) : Absent c' key := by
  have hs : c'.shard key = c'.shards (c.shardOf (hashSlice key)) := by
    rw [Cache.shard, Cache.shardOf, h.bits, Cache.shardOf]
  rw [Absent, hs]
  exact (h.turns _).not_mem hn hc

theorem erase_absent (hc : Distinct c) (key : List UInt8) : Absent (c.erase key) key := by
  have hs : (c.erase key).shard key = ((c.shard key).erase key (hashSlice key)).1 :=
    Function.update_self _ _ _
  rw [Absent, hs, erase_listed]
  exact (hc _).not_mem_erase

theorem Absent.lookup {key : List UInt8} (h : Absent c key) : (c.lookup key).2 = none := by
  have hf := find_eq_none_iff.mpr h
  rw [Cache.lookup, Shard.lookup, hf]
  rfl

theorem new_distinct (policy : Policy) (capacity bits : Nat) :
    Distinct (newCache policy capacity bits) :=
  fun _ => List.nodup_nil

end WiscKey.CacheTable
