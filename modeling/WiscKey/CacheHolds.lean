import WiscKey.CacheQuiet

namespace WiscKey.CacheHolds

open WiscKey.Hash WiscKey.CacheShard WiscKey.ShardedCache WiscKey.ShardQuiet WiscKey.CacheQuiet
  WiscKey.ShardHandles

variable {c : Cache} {key value : List UInt8}

theorem holds_unique (hc : QuietCache c) {v w : List UInt8} (hv : Holds c key v)
    (hw : Holds c key w) : v = w := by
  obtain ⟨a, ha, hka, rfl⟩ := hv
  obtain ⟨b, hb, hkb, rfl⟩ := hw
  have hk : a.key = b.key := hka.trans hkb.symm
  have hh : a.hash = b.hash := by rw [shard_hash hc ha, shard_hash hc hb, hk]
  rw [(shard_quiet hc key).key_inj ha hb hk hh]

theorem insertRelease_holds_self (hc : QuietCache c) {w : List UInt8}
    (hw : Holds (c.insertRelease key value) key w) :
    w = value ∨ ∃ h, Survives (c.shard key) (entryCharge key value) h ∧ h.key = key ∧
      h.value = w := by
  obtain ⟨h, hm, hk, rfl⟩ := hw
  obtain hs | ⟨rfl, -⟩ := (insertRelease_mem hc).mp hm
  · exact Or.inr ⟨h, hs, hk, rfl⟩
  · exact Or.inl rfl

theorem insertRelease_holds_other (hc : QuietCache c) {k w : List UInt8} (hne : k ≠ key)
    (hw : Holds (c.insertRelease key value) k w) : Holds c k w := by
  obtain ⟨h, hm, hk, rfl⟩ := hw
  by_cases hi : c.shardOf (hashSlice k) = c.shardOf (hashSlice key)
  · have hsh : (c.insertRelease key value).shard k = (c.insertRelease key value).shard key := by
      rw [Cache.shard, Cache.shard, insertRelease_shardOf, hi]
    rw [hsh] at hm
    obtain ⟨r, hr, -⟩ | ⟨rfl, -⟩ := (insertRelease_mem hc).mp hm
    · refine ⟨h, ?_, hk, rfl⟩
      rw [Cache.shard, hi]
      exact hr.subset List.mem_cons_self
    · exact absurd hk.symm hne
  · rw [Cache.shard, insertRelease_shardOf, insertRelease_shards hi] at hm
    exact ⟨h, hm, hk, rfl⟩

theorem insertRelease_present (hc : QuietCache c) {k : List UInt8} (hne : k ≠ key) :
    (∃ h ∈ ((c.insertRelease key value).shard k).list, h.key = k) ↔
      if c.shardOf (hashSlice k) = c.shardOf (hashSlice key)
      then ∃ h, Survives (c.shard key) (entryCharge key value) h ∧ h.key = k
      else ∃ h ∈ (c.shard k).list, h.key = k := by
  split
  · rename_i hi
    have hsh : (c.insertRelease key value).shard k = (c.insertRelease key value).shard key := by
      rw [Cache.shard, Cache.shard, insertRelease_shardOf, hi]
    rw [hsh]
    simp only [insertRelease_mem hc]
    constructor
    · rintro ⟨h, hs | ⟨rfl, -⟩, hk⟩
      · exact ⟨h, hs, hk⟩
      · exact absurd hk.symm hne
    · rintro ⟨h, hs, hk⟩
      exact ⟨h, Or.inl hs, hk⟩
  · rename_i hi
    rw [Cache.shard, insertRelease_shardOf, insertRelease_shards hi]
    rfl

theorem read_mem (hc : QuietCache c) (i : Nat) (h : Handle (List UInt8)) :
    h ∈ ((c.read key).1.shards i).list ↔ h ∈ (c.shards i).list := by
  rw [read_eq]
  by_cases hi : i = c.shardOf (hashSlice key)
  · subst i
    simp only [Cache.setShard, Function.update_self]
    by_cases hp : ∃ a ∈ (c.shard key).list, a.key = key
    · obtain ⟨a, ha, hk⟩ := hp
      have hh : a.hash = hashSlice key := hk ▸ shard_hash hc ha
      have hr := read_hit (shard_quiet hc key) c.policy ha hk hh
      rw [hr.2.2]
      exact (toBackIf_perm (c.shard key) c.policy a.ptr).mem_iff
    · rw [read_miss (shard_quiet hc key) c.policy (fun a ha hk => absurd ⟨a, ha, hk⟩ hp)]
      rfl
  · simp only [Cache.setShard, Function.update_of_ne hi]

theorem read_quietCache (hc : QuietCache c) : QuietCache (c.read key).1 := by
  have hm : ∀ i h, h ∈ ((c.read key).1.shards i).list ↔ h ∈ (c.shards i).list := read_mem hc
  rw [read_eq] at hm ⊢
  refine setShard_quietCache hc _ ?_ ?_
  · by_cases hp : ∃ a ∈ (c.shard key).list, a.key = key
    · obtain ⟨a, ha, hk⟩ := hp
      exact (read_hit (shard_quiet hc key) c.policy ha hk (hk ▸ shard_hash hc ha)).1
    · rw [read_miss (shard_quiet hc key) c.policy (fun a ha hk => absurd ⟨a, ha, hk⟩ hp)]
      exact shard_quiet hc key
  · intro h hh
    refine hc.hashed (c.shardOf (hashSlice key)) h ((hm _ h).mp ?_)
    simpa only [Cache.setShard, Function.update_self] using hh

theorem read_holds (hc : QuietCache c) {k w : List UInt8} :
    Holds (c.read key).1 k w ↔ Holds c k w := by
  have hsh : (c.read key).1.shardOf = c.shardOf := by
    rw [read_eq]
    rfl
  simp only [Holds, Cache.shard, hsh, read_mem hc]

theorem read_eq_some_iff (hc : QuietCache c) {v : List UInt8} :
    (c.read key).2 = some v ↔ Holds c key v := by
  rw [read_eq]
  by_cases hp : ∃ a ∈ (c.shard key).list, a.key = key
  · obtain ⟨a, ha, hk⟩ := hp
    have hr := read_hit (shard_quiet hc key) c.policy ha hk (hk ▸ shard_hash hc ha)
    have hv : Holds c key a.value := ⟨a, ha, hk, rfl⟩
    simp only [hr.2.1, Option.some.injEq]
    exact ⟨fun he => he ▸ hv, fun h => holds_unique hc hv h⟩
  · rw [read_miss (shard_quiet hc key) c.policy (fun a ha hk => absurd ⟨a, ha, hk⟩ hp)]
    constructor
    · intro h
      cases h
    · rintro ⟨a, ha, hk, -⟩
      exact absurd ⟨a, ha, hk⟩ hp

theorem read_eq_none_iff (hc : QuietCache c) :
    (c.read key).2 = none ↔ ∀ h ∈ (c.shard key).list, h.key ≠ key := by
  constructor
  · intro hn h hm hk
    have hs := (read_eq_some_iff hc).mpr ⟨h, hm, hk, rfl⟩
    rw [hn] at hs
    cases hs
  · intro hn
    cases hr : (c.read key).2 with
    | none => rfl
    | some v =>
      obtain ⟨h, hm, hk, -⟩ := (read_eq_some_iff hc).mp hr
      exact absurd hk (hn h hm)

theorem lookup_isSome (hc : QuietCache c) :
    (c.lookup key).2.isSome ↔ ∃ h ∈ (c.shard key).list, h.key = key := by
  have hl : (c.lookup key).2.isSome = ((c.shard key).find key (hashSlice key)).isSome := by
    simp only [Cache.lookup, Shard.lookup, Option.isSome_map]
    cases (c.shard key).find key (hashSlice key) with
    | none => rfl
    | some p => rfl
  rw [hl, Option.isSome_iff_exists]
  simp only [(shard_quiet hc key).find_iff]
  constructor
  · rintro ⟨p, h, hm, hk, -⟩
    exact ⟨h, hm, hk⟩
  · rintro ⟨h, hm, hk⟩
    exact ⟨h.ptr, h, hm, hk, hk ▸ shard_hash hc hm, rfl⟩

theorem erase_mem (hc : QuietCache c) {i : Nat} {h : Handle (List UInt8)} :
    h ∈ ((c.erase key).shards i).list ↔
      h ∈ (c.shards i).list ∧ ¬(i = c.shardOf (hashSlice key) ∧ h.key = key) := by
  by_cases hi : i = c.shardOf (hashSlice key)
  · subst i
    simp only [Cache.erase, Cache.setShard, Function.update_self, mem_erase (shard_quiet hc key),
      true_and]
    refine and_congr_right ?_
    intro hm
    refine not_congr ⟨And.left, fun hk => ⟨hk, ?_⟩⟩
    rw [← hk]
    exact shard_hash hc hm
  · simp only [Cache.erase, Cache.setShard, Function.update_of_ne hi, hi, false_and,
      not_false_eq_true, and_true]

theorem erase_quietCache (hc : QuietCache c) : QuietCache (c.erase key) := by
  refine setShard_quietCache hc _ (erase_inv (shard_quiet hc key) _ _) ?_
  intro h hh
  exact shard_hash hc ((mem_erase (shard_quiet hc key)).mp hh).1

theorem erase_holds (hc : QuietCache c) {k w : List UInt8} :
    Holds (c.erase key) k w ↔ Holds c k w ∧ k ≠ key := by
  constructor
  · rintro ⟨h, hm, hk, hv⟩
    obtain ⟨hm, hn⟩ := (erase_mem hc).mp hm
    refine ⟨⟨h, hm, hk, hv⟩, ?_⟩
    rintro rfl
    exact hn ⟨rfl, hk⟩
  · rintro ⟨⟨h, hm, hk, hv⟩, hne⟩
    exact ⟨h, (erase_mem hc).mpr ⟨hm, fun he => hne (hk.symm.trans he.2)⟩, hk, hv⟩

end WiscKey.CacheHolds
