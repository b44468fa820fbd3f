import WiscKey.ShardedCache
import WiscKey.ShardQuiet

namespace WiscKey.CacheQuiet

open WiscKey.Evict WiscKey.Hash WiscKey.CacheShard WiscKey.ShardedCache WiscKey.ShardQuiet
  WiscKey.ShardHandles

structure QuietCache (c : Cache) : Prop where
  quiet : ∀ i, Quiet (c.shards i)
  hashed : ∀ i, ∀ h ∈ (c.shards i).list, h.hash = hashSlice h.key

def Holds (c : Cache) (key value : List UInt8) : Prop :=
  ∃ h ∈ (c.shard key).list, h.key = key ∧ h.value = value

def entryCharge (key value : List UInt8) : Nat :=
  sizeofCacheEntry + value.length + sizeofHandle - 1 + key.length

variable {c : Cache} {key value : List UInt8}

theorem new_quietCache (policy : Policy) (capacity bits : Nat) :
    QuietCache (newCache policy capacity bits) :=
  ⟨fun _ => new_quiet _, by simp [newCache, Shard.new]⟩

theorem shard_quiet (hc : QuietCache c) (key : List UInt8) : Quiet (c.shard key) :=
  hc.quiet _

theorem shard_hash (hc : QuietCache c) {key : List UInt8} {h : Handle (List UInt8)}
    (hm : h ∈ (c.shard key).list) : h.hash = hashSlice h.key :=
  hc.hashed _ h hm

theorem setShard_quietCache (hc : QuietCache c) (i : Nat) {s : Shard (List UInt8)}
    (hs : Quiet s) (hh : ∀ h ∈ s.list, h.hash = hashSlice h.key) :
    QuietCache (c.setShard i s) := by
  constructor
  · intro j
    by_cases hj : j = i
    · subst j
      simpa only [Cache.setShard, Function.update_self] using hs
    · simpa only [Cache.setShard, Function.update_of_ne hj] using hc.quiet j
  · intro j
    by_cases hj : j = i
    · subst j
      simpa only [Cache.setShard, Function.update_self] using hh
    · simpa only [Cache.setShard, Function.update_of_ne hj] using hc.hashed j

theorem insertRelease_eq (c : Cache) (key value : List UInt8) :
    c.insertRelease key value = c.setShard (c.shardOf (hashSlice key))
      ((c.shard key).insertRelease key (hashSlice key) value
        (sizeofCacheEntry + value.length)) := by
  simp [Cache.insertRelease, Cache.release, Cache.insert, Cache.setShard, Cache.shardOf,
    Shard.insertRelease]

theorem insertRelease_shardOf (c : Cache) (key value : List UInt8) :
    (c.insertRelease key value).shardOf = c.shardOf := by
  rw [insertRelease_eq]
  rfl

theorem read_eq (c : Cache) (key : List UInt8) :
    c.read key = (c.setShard (c.shardOf (hashSlice key))
      ((c.shard key).read c.policy key (hashSlice key)).1,
      ((c.shard key).read c.policy key (hashSlice key)).2) := by
  cases hl : (c.shard key).lookup c.policy key (hashSlice key) with
  | mk s p =>
    cases p with
    | none => simp [Cache.read, Cache.lookup, Shard.read, hl]
    | some p =>
      simp [Cache.read, Cache.lookup, Shard.read, hl, Cache.release, Cache.value, Cache.setShard,
        Cache.shardOf]

theorem mem_makeRoom (hc : QuietCache c) {h : Handle (List UInt8)} :
    h ∈ ((c.shard key).makeRoom (entryCharge key value)).list ↔
      Survives (c.shard key) (entryCharge key value) h := by
  rw [makeRoom_list (shard_quiet hc key), mem_trim_iff]
  rfl

theorem insertRelease_mem (hc : QuietCache c) {h : Handle (List UInt8)} :
    h ∈ ((c.insertRelease key value).shard key).list ↔
      Survives (c.shard key) (entryCharge key value) h ∨
        h = (c.shard key).alloc key (hashSlice key) value (sizeofCacheEntry + value.length) ∧
          ∀ a, Survives (c.shard key) (entryCharge key value) a → a.key ≠ key := by
  have hs := shard_quiet hc key
  have hl : ((c.insertRelease key value).shard key).list = ((c.shard key).insertRelease key
      (hashSlice key) value (sizeofCacheEntry + value.length)).list := by
    rw [insertRelease_eq]
    simp [Cache.shard, Cache.setShard, Cache.shardOf]
  rw [hl]
  by_cases hp : ∃ a, Survives (c.shard key) (entryCharge key value) a ∧ a.key = key
  · obtain ⟨a, ha, hk⟩ := hp
    have hm := (mem_makeRoom hc).mpr ha
    have hh : a.hash = hashSlice key := by
      obtain ⟨r, hr, -⟩ := ha
      rw [← hk]
      exact shard_hash hc (hr.subset List.mem_cons_self)
    have hi : ((c.shard key).insertRelease key (hashSlice key) value
        (sizeofCacheEntry + value.length)).list =
        ((c.shard key).makeRoom (entryCharge key value)).list :=
      insertRelease_present hs hm hk hh
    rw [hi]
    refine ⟨fun h1 => Or.inl ((mem_makeRoom hc).mp h1), ?_⟩
    rintro (h1 | ⟨-, h2⟩)
    · exact (mem_makeRoom hc).mpr h1
    · exact absurd hk (h2 a ha)
  · have hno : ∀ a, Survives (c.shard key) (entryCharge key value) a → a.key ≠ key :=
      fun a ha hk => hp ⟨a, ha, hk⟩
    have hi : ((c.shard key).insertRelease key (hashSlice key) value
        (sizeofCacheEntry + value.length)).list =
        ((c.shard key).makeRoom (entryCharge key value)).list ++ [(c.shard key).alloc key
          (hashSlice key) value (sizeofCacheEntry + value.length)] :=
      insertRelease_absent hs (fun a ha hk => absurd hk (hno a ((mem_makeRoom hc).mp ha)))
    rw [hi, List.mem_append, List.mem_singleton]
    refine or_congr (mem_makeRoom hc) ?_
    exact (and_iff_left hno).symm

theorem insertRelease_shards {i : Nat} (hi : i ≠ c.shardOf (hashSlice key)) :
    (c.insertRelease key value).shards i = c.shards i := by
  rw [insertRelease_eq]
  exact Function.update_of_ne hi _ _

theorem insertRelease_quietCache (hc : QuietCache c) :
    QuietCache (c.insertRelease key value) := by
  rw [insertRelease_eq]
  refine setShard_quietCache hc _ (insertRelease_quiet (shard_quiet hc key)) ?_
  intro h hh
  have hi : h ∈ ((c.insertRelease key value).shard key).list := by
    rw [insertRelease_eq]
    simpa [Cache.shard, Cache.setShard, Cache.shardOf] using hh
  obtain ⟨r, hr, -⟩ | ⟨rfl, -⟩ := (insertRelease_mem hc).mp hi
  · exact shard_hash hc (hr.subset List.mem_cons_self)
  · rfl

end WiscKey.CacheQuiet
