import WiscKey.ShardedCache
import WiscKey.ShardEntries
import WiscKey.ShardQuiet

namespace WiscKey.CachePins

open WiscKey.CacheShard WiscKey.ShardInvariant WiscKey.ShardHandles WiscKey.ShardEntries
  WiscKey.Hash WiscKey.ShardedCache

def pins (c : Cache) (refs : List Ref) (i p : Nat) : Nat :=
  refs.countP (fun r => decide (c.shardOf r.hash = i ∧ r.ptr = p))

def Pinned (c : Cache) (refs : List Ref) : Prop := ∀ i, Inv (c.shards i) (pins c refs i)

def Entries (P : List UInt8 → List UInt8 → Prop) (c : Cache) : Prop :=
  ∀ i, ∀ e ∈ entries (c.shards i), P e.2.1 e.2.2.2

def Names (c : Cache) (h : Ref) (key : List UInt8) : Prop :=
  ∃ e ∈ entries (c.shards (c.shardOf h.hash)), e.1 = h.ptr ∧ e.2.1 = key

/-- What any operation does to the entries: some go, and a new one comes at a
fresh address. -/
structure Evolves (P : List UInt8 → List UInt8 → Prop) (c c' : Cache) : Prop where
  bits : c'.numShardBits = c.numShardBits
  entries : ∀ i, ∀ e ∈ entries (c'.shards i),
    e ∈ entries (c.shards i) ∨ e.1 = (c.shards i).nextPtr ∧ P e.2.1 e.2.2.2

variable {c c' : Cache} {refs refs' : List Ref} {key value : List UInt8} {h : Ref}
  {P : List UInt8 → List UInt8 → Prop}

theorem shardOf_congr (hb : c'.numShardBits = c.numShardBits) : c'.shardOf = c.shardOf := by
  funext hash
  rw [Cache.shardOf, hb, Cache.shardOf]

theorem Pinned.perm (hc : Pinned c refs) (hp : refs.Perm refs') : Pinned c refs' := by
  intro i
  have he : pins c refs' i = pins c refs i := by
    funext p
    exact (hp.countP_eq _).symm
  rw [he]
  exact hc i

theorem pins_cons_self :
    pins c (h :: refs) (c.shardOf h.hash) =
      Function.update (pins c refs (c.shardOf h.hash)) h.ptr
        (pins c refs (c.shardOf h.hash) h.ptr + 1) := by
  funext p
  by_cases hp : p = h.ptr
  · subst p
    rw [Function.update_self]
    simp [pins]
  · rw [Function.update_of_ne hp]
    simp [pins, Ne.symm hp]

theorem pins_cons_other {i : Nat} (hi : i ≠ c.shardOf h.hash) :
    pins c (h :: refs) i = pins c refs i := by
  funext p
  simp [pins, Ne.symm hi]

theorem setShard_pinned (hc : Pinned c refs) {i : Nat} {s : Shard (List UInt8)}
    (hs : Inv s (pins c refs' i)) (ho : ∀ j, j ≠ i → pins c refs' j = pins c refs j) :
    Pinned (c.setShard i s) refs' := by
  intro j
  change Inv ((c.setShard i s).shards j) (pins c refs' j)
  by_cases hj : j = i
  · subst j
    simpa only [Cache.setShard, Function.update_self] using hs
  · rw [ho j hj]
    simpa only [Cache.setShard, Function.update_of_ne hj] using hc j

theorem insert_pinned (hc : Pinned c refs) :
    Pinned (c.insert key value).1 ((c.insert key value).2 :: refs) := by
  refine setShard_pinned hc ?_ (fun j hj => pins_cons_other hj)
  rw [show c.shardOf (hashSlice key) = c.shardOf (c.insert key value).2.hash from rfl,
    pins_cons_self]
  exact insert_inv (hc _) _ _ _ _

theorem lookup_pinned (hc : Pinned c refs) (hl : (c.lookup key).2 = some h) :
    Pinned (c.lookup key).1 (h :: refs) := by
  obtain ⟨p, hp, rfl⟩ := Option.map_eq_some_iff.mp hl
  refine setShard_pinned hc ?_ (fun j hj => pins_cons_other hj)
  rw [show c.shardOf (hashSlice key) = c.shardOf (Ref.mk (hashSlice key) p).hash from rfl,
    pins_cons_self]
  exact lookup_inv (hc _) c.policy hp

theorem lookup_pinned_miss (hc : Pinned c refs) (hl : (c.lookup key).2 = none) :
    Pinned (c.lookup key).1 refs := by
  have hp := lookup_miss (Option.map_eq_none_iff.mp hl)
  refine setShard_pinned hc ?_ (fun _ _ => rfl)
  rw [hp]
  exact hc _

theorem release_pinned (hc : Pinned c (h :: refs)) : Pinned (c.release h) refs := by
  refine setShard_pinned hc ?_ (fun j hj => (pins_cons_other hj).symm)
  have hi := hc (c.shardOf h.hash)
  rw [pins_cons_self] at hi
  have hr := release_inv (p := h.ptr) hi (by rw [Function.update_self]; omega)
  rw [Function.update_self, Nat.add_sub_cancel, Function.update_idem,
    Function.update_eq_self] at hr
  exact hr

theorem erase_pinned (hc : Pinned c refs) : Pinned (c.erase key) refs :=
  setShard_pinned hc (erase_inv (hc _) _ _) (fun _ _ => rfl)

theorem setShard_evolves {i : Nat} {s : Shard (List UInt8)}
    (hs : ∀ e ∈ entries s, e ∈ entries (c.shards i) ∨
      e.1 = (c.shards i).nextPtr ∧ P e.2.1 e.2.2.2) : Evolves P c (c.setShard i s) := by
  refine ⟨rfl, ?_⟩
  intro j e he
  by_cases hj : j = i
  · subst j
    simp only [Cache.setShard, Function.update_self] at he
    exact hs e he
  · simp only [Cache.setShard, Function.update_of_ne hj] at he
    exact Or.inl he

theorem insert_evolves (hP : P key value) : Evolves P c (c.insert key value).1 := by
  refine setShard_evolves ?_
  intro e he
  obtain he | rfl := insert_entries he
  · exact Or.inl he
  · exact Or.inr ⟨rfl, hP⟩

theorem lookup_evolves : Evolves P c (c.lookup key).1 :=
  setShard_evolves (fun _ he => Or.inl (lookup_entries _ _ _ _ he))

theorem release_evolves : Evolves P c (c.release h) :=
  setShard_evolves (fun _ he => Or.inl (release_entries _ _ he))

theorem erase_evolves : Evolves P c (c.erase key) :=
  setShard_evolves (fun _ he => Or.inl (erase_entries _ _ _ he))

theorem Entries.evolve (h : Entries P c) (he : Evolves P c c') : Entries P c' := by
  intro i e hm
  obtain ho | ⟨-, hn⟩ := he.entries i e hm
  · exact h i e ho
  · exact hn

theorem Pinned.exists_entry (hc : Pinned c refs) (hm : h ∈ refs) :
    ∃ e ∈ entries (c.shards (c.shardOf h.hash)), e.1 = h.ptr := by
  have hpos : 0 < pins c refs (c.shardOf h.hash) h.ptr :=
    List.countP_pos_iff.mpr ⟨h, hm, by simp⟩
  obtain ⟨a, ha, hp⟩ := List.mem_map.mp ((hc _).pinned h.ptr hpos)
  exact ⟨entry a, List.mem_map_of_mem ha, hp⟩

theorem Names.evolve (hn : Names c h key) (hc : Pinned c refs) (hc' : Pinned c' refs')
    (he : Evolves P c c') (hm : h ∈ refs') : Names c' h key := by
  obtain ⟨e, hem, hep, hek⟩ := hn
  obtain ⟨a, ha, hap⟩ := hc'.exists_entry hm
  refine ⟨a, ha, hap, ?_⟩
  rw [shardOf_congr he.bits] at ha
  obtain ho | ⟨hnew, -⟩ := he.entries _ a ha
  · rw [entry_unique (hc _).toCore ho hem (hap.trans hep.symm), hek]
  · exact absurd (hep.trans (hap.symm.trans hnew)) (entry_ne_nextPtr (hc _).toCore hem)

theorem lookup_names (hc : Pinned c refs) (hl : (c.lookup key).2 = some h) :
    Names (c.lookup key).1 h key := by
  obtain ⟨p, hp, rfl⟩ := Option.map_eq_some_iff.mp hl
  obtain ⟨e, hem, hep, hek⟩ := lookup_entry (hc _).toCore hp
  exact Names.evolve (P := fun _ _ => True) ⟨e, hem, hep, hek⟩ hc (lookup_pinned hc hl)
    lookup_evolves List.mem_cons_self

theorem Names.exists_value (hn : Names c h key) (hc : Pinned c refs) (he : Entries P c) :
    ∃ v, c.value h = some v ∧ P key v := by
  obtain ⟨e, hem, hep, hek⟩ := hn
  refine ⟨e.2.2.2, ?_, hek ▸ he _ e hem⟩
  rw [Cache.value, ← hep]
  exact value_of_entry (hc _).toCore hem

theorem new_pinned (policy : Policy) (capacity bits : Nat) :
    Pinned (newCache policy capacity bits) [] :=
  fun _ => ShardQuiet.new_quiet _

theorem new_entries (policy : Policy) (capacity bits : Nat) :
    Entries P (newCache policy capacity bits) := by
  intro i e he
  cases he

end WiscKey.CachePins
