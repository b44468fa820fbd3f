import WiscKey.LfuCache

namespace WiscKey.LfuRing

open WiscKey.Evict WiscKey.CacheShard WiscKey.FrequencyList WiscKey.LfuCache
open WiscKey.ShardInvariant WiscKey.ShardOps WiscKey.ShardHandles
open WiscKey.ShardWords (sizes counts subSize ref unref)

variable {ν : Type}

/-- What a shard is without its frequencies. The handles come in any order, and
what they charge is not cut to a word. -/
def plain (s : LfuShard ν) : Shard ν :=
  { capacity := s.capacity
    usage := total Handle.totalCharge (s.listed.map LfuHandle.toHandle)
    list := s.listed.map LfuHandle.toHandle
    table := s.table, nextPtr := s.nextPtr, freed := s.freed }

def ptrs (l : List (LfuHandle ν)) : List Nat := l.map fun a => a.ptr

def charges (l : List (LfuHandle ν)) : Nat := total (fun a => totalCharge a.toHandle) l

def Filed (hits : List Nat) (s : LfuShard ν) : Prop :=
  Sorted LfuHandle.parent (fun h => hits.count h.ptr) s.nextNode s.deleted s.ring

structure SameTable (t s : LfuShard ν) : Prop where
  capacity : t.capacity = s.capacity
  usage : t.usage = s.usage
  table : t.table = s.table
  nextPtr : t.nextPtr = s.nextPtr
  freed : t.freed = s.freed

variable {s t : LfuShard ν} {hits : List Nat} {n : Node (LfuHandle ν)} {h : LfuHandle ν}
  {out : Nat → Nat}

theorem SameTable.refl (s : LfuShard ν) : SameTable s s := ⟨rfl, rfl, rfl, rfl, rfl⟩

theorem SameTable.trans {u : LfuShard ν} (h : SameTable t s) (hu : SameTable u t) :
    SameTable u s :=
  ⟨hu.capacity.trans h.capacity, hu.usage.trans h.usage, hu.table.trans h.table,
    hu.nextPtr.trans h.nextPtr, hu.freed.trans h.freed⟩

theorem node_eq (hf : Filed hits s) (hn : n ∈ s.ring) : s.node n.id = some n := by
  cases hp : s.node n.id with
  | none => simpa using List.find?_eq_none.mp hp n hn
  | some m =>
    rw [hf.id_inj (List.mem_of_find?_eq_some hp) hn (by simpa using List.find?_some hp)]

theorem plain_ptrs (s : LfuShard ν) : (plain s).list.map Handle.ptr = ptrs s.listed := by
  rw [plain, List.map_map]
  rfl

theorem plain_charges (s : LfuShard ν) : total totalCharge (plain s).list = charges s.listed := by
  rw [plain, total, List.map_map]
  rfl

theorem plain_handle (s : LfuShard ν) (p : Nat) :
    (plain s).handle p = (s.handle p).map LfuHandle.toHandle :=
  List.find?_map

theorem mem_plain {a : Handle ν} :
    a ∈ (plain s).list ↔ ∃ n ∈ s.ring, ∃ h ∈ n.entries, h.toHandle = a := by
  simp only [plain, List.mem_map, LfuShard.listed, mem_entries]
  constructor
  · rintro ⟨h, ⟨n, hn, hh⟩, he⟩
    exact ⟨n, hn, h, hh, he⟩
  · rintro ⟨n, hn, h, hh, he⟩
    exact ⟨h, ⟨n, hn, hh⟩, he⟩

theorem handle_eq (hd : ((plain s).list.map Handle.ptr).Nodup) (hh : h ∈ s.listed) :
    s.handle h.ptr = some h := by
  have hn : (s.listed.map fun a => a.ptr).Nodup := by
    rwa [plain, List.map_map] at hd
  cases hp : s.handle h.ptr with
  | none => simpa using List.find?_eq_none.mp hp h hh
  | some a =>
    rw [List.inj_on_of_nodup_map hn (List.mem_of_find?_eq_some hp) hh
      (by simpa using List.find?_some hp)]

theorem nodeBehind_filed (hf : Filed hits s) (hn : n ∈ s.ring) :
    ∃ r, ∃ m ∈ r.ring, s.nodeBehind n.id (n.frequency + 1) = some (r, m.id) ∧ Filed hits r ∧
      SameTable r s ∧ r.listed = s.listed ∧ n ∈ r.ring ∧ m.frequency = n.frequency + 1 := by
  obtain ⟨pre, post, hring⟩ := List.append_of_mem hn
  have hnd := hf.ids_nodup
  have hinc := hf.increasing
  rw [hring, List.map_append, List.map_cons] at hnd hinc
  have hpre : ∀ m ∈ pre, m.id ≠ n.id := fun m hm =>
    (List.nodup_append.mp hnd).2.2 _ (List.mem_map_of_mem hm) _ List.mem_cons_self
  have hpost := (List.pairwise_cons.mp (List.pairwise_append.mp hinc).2.1)
  have hnext : s.next n.id = some (post.headD ⟨0, 0, []⟩) := by
    rw [LfuShard.next, hf.first, Option.bind_some, hring]
    exact next_append _ hpre
  rw [LfuShard.nodeBehind, hnext, Option.map_some]
  by_cases hfr : (post.headD ⟨0, 0, []⟩).frequency = n.frequency + 1
  · rw [if_pos hfr]
    have hm : post.headD ⟨0, 0, []⟩ ∈ s.ring := by
      cases post with
      | nil => exact hf.sentinel_mem
      | cons m post =>
        rw [hring]
        exact List.mem_append_right _ (List.mem_cons_of_mem _ List.mem_cons_self)
    exact ⟨s, _, hm, rfl, hf, .refl s, rfl, hn, hfr⟩
  · rw [if_neg hfr]
    have hlt : ∀ k ∈ post, n.frequency + 1 < k.frequency := by
      cases post with
      | nil =>
        intro k hk
        cases hk
      | cons m post =>
        have hm : n.frequency < m.frequency := hpost.1 _ List.mem_cons_self
        have hm' : m.frequency ≠ n.frequency + 1 := hfr
        have hrest := (List.pairwise_cons.mp hpost.2).1
        intro k hk
        obtain rfl | hk := List.mem_cons.mp hk
        · omega
        · have := hrest _ (List.mem_map_of_mem hk)
          omega
    rw [hring, insertAfter_append hpre]
    rw [Filed, hring] at hf
    refine ⟨_, ⟨s.nextNode, n.frequency + 1, []⟩, ?_, rfl, hf.insertAfter (Nat.lt_succ_self _) hlt,
      ⟨rfl, rfl, rfl, rfl, rfl⟩, ?_, ?_, rfl⟩
    · exact List.mem_append_right _ (List.mem_cons_of_mem _ List.mem_cons_self)
    · rw [LfuShard.listed, LfuShard.listed, hring, entries_append, entries_append, entries_cons,
        entries_cons, entries_cons]
      rfl
    · exact List.mem_append_right _ List.mem_cons_self

theorem remove_listed (s : LfuShard ν) (p : Nat) :
    (s.remove p).listed = s.listed.filter (fun h => decide (h.ptr ≠ p)) :=
  entries_filter _ _

theorem dropEmpty_filed (hf : Filed hits s) (hn : n ∈ s.ring) (h0 : n.id ≠ freqList) :
    ∃ r, s.dropEmpty n.id = some r ∧ Filed hits r ∧ SameTable r s ∧ r.listed = s.listed ∧
      ∀ m ∈ s.ring, m.id ≠ n.id → m ∈ r.ring := by
  rw [LfuShard.dropEmpty, node_eq hf hn, Option.bind_some]
  by_cases he : n.entries.isEmpty
  · rw [if_pos he, if_neg h0]
    refine ⟨_, rfl, hf.drop hn h0, ⟨rfl, rfl, rfl, rfl, rfl⟩, ?_, ?_⟩
    · apply entries_drop
      intro m hm hid
      rw [hf.id_inj hm hn (by simpa using hid)]
      exact List.isEmpty_iff.mp he
    · intro m hm hne
      exact List.mem_filter.mpr ⟨hm, decide_eq_true hne⟩
  · rw [if_neg he]
    exact ⟨s, rfl, hf, .refl s, rfl, fun m hm _ => hm⟩

theorem lfuUpdate_filed (hd : ((plain s).list.map Handle.ptr).Nodup) (hf : Filed hits s)
    (hh : h ∈ s.listed) (hlt : hits.count h.ptr + 2 < counts) :
    ∃ t, s.lfuUpdate h.ptr = some t ∧ Filed (h.ptr :: hits) t ∧ SameTable t s ∧
      (plain t).list.Perm (plain s).list := by
  obtain ⟨n, hn, hhn⟩ := mem_entries.mp hh
  obtain ⟨hp, hfr⟩ := hf.filed n hn h hhn
  have h0 : n.id ≠ freqList := by
    intro he
    rw [hf.sentinel_empty hn he] at hhn
    cases hhn
  have hmod : (n.frequency + 1) % counts = n.frequency + 1 := Nat.mod_eq_of_lt (by omega)
  obtain ⟨r, m, hm, hr, hfr', hsame, hl, hnr, hmf⟩ := nodeBehind_filed hf hn
  have hrem : Filed (h.ptr :: hits) (r.remove h.ptr) := by
    apply (hfr'.filter _).congr
    intro a ha
    rw [entries_filter] at ha
    exact List.count_cons_of_ne (Ne.symm (of_decide_eq_true (List.mem_filter.mp ha).2))
  obtain ⟨u, hu, hfu, hsu, hlu, hmu⟩ :=
    dropEmpty_filed hrem (List.mem_map_of_mem hnr) h0
  have hne : m.id ≠ n.id := by
    intro he
    rw [hfr'.id_inj hm hnr he] at hmf
    omega
  obtain ⟨k, hk, hkid, hkf⟩ : ∃ k ∈ u.ring, k.id = m.id ∧ k.frequency = n.frequency + 1 :=
    ⟨_, hmu _ (List.mem_map_of_mem hm) hne, rfl, hmf⟩
  refine ⟨u.fileUnder m.id h, ?_, ?_, ?_, ?_⟩
  · simp only [LfuShard.lfuUpdate, handle_eq hd hh, hp, Option.bind_eq_bind, Option.bind_some,
      node_eq hf hn, hmod, hr]
    rw [show (r.remove h.ptr).dropEmpty n.id = some u from hu, Option.bind_some]
  · rw [← hkid]
    refine hfu.fileUnder hk (hfu.id_ne_zero hk (by omega)) rfl ?_
    change k.frequency = (h.ptr :: hits).count h.ptr + 1
    rw [List.count_cons_self, ← hfr, hkf]
  · have hrem : SameTable (r.remove h.ptr) r := ⟨rfl, rfl, rfl, rfl, rfl⟩
    exact ((hsame.trans hrem).trans hsu).trans ⟨rfl, rfl, rfl, rfl, rfl⟩
  · have hperm := fileUnder_entries hfu.ids_nodup hk { h with parent := some m.id }
    rw [hkid] at hperm
    have hlist : u.listed = s.listed.filter fun a => decide (a.ptr ≠ h.ptr) := by
      rw [hlu, remove_listed, hl]
    refine (hperm.map LfuHandle.toHandle).trans ?_
    rw [List.map_cons, show entries u.ring = _ from hlist]
    have hmem : h.toHandle ∈ (plain s).list := List.mem_map_of_mem hh
    refine List.Perm.trans ?_ (others_perm hd hmem)
    rw [others, plain, List.filter_map]
    exact List.Perm.refl _

theorem lfuInsert_filed (hf : Filed hits s) (h : LfuHandle ν) (h0 : hits.count h.ptr = 0) :
    ∃ t, s.lfuInsert h = some t ∧ Filed hits t ∧ SameTable t s ∧
      (plain t).list.Perm (h.toHandle :: (plain s).list) := by
  obtain ⟨r, m, hm, hr, hfr, hsame, hl, -, hmf⟩ := nodeBehind_filed hf hf.sentinel_mem
  refine ⟨r.fileUnder m.id h, ?_, ?_, ?_, ?_⟩
  · rw [LfuShard.lfuInsert, hr, Option.map_some]
  · refine hfr.fileUnder hm (hfr.id_ne_zero hm (by omega)) rfl ?_
    change m.frequency = hits.count h.ptr + 1
    rw [h0, hmf]
  · exact hsame.trans ⟨rfl, rfl, rfl, rfl, rfl⟩
  · have hperm := fileUnder_entries hfr.ids_nodup hm { h with parent := some m.id }
    rw [show entries r.ring = s.listed from hl] at hperm
    exact hperm.map LfuHandle.toHandle

theorem modify_filed (hf : Filed hits s) (p : Nat) {f : Handle ν → Handle ν}
    (hp : ∀ a, (f a).ptr = a.ptr) : Filed hits (s.modify p f) := by
  apply Sorted.map hf
  · intro a
    split <;> rfl
  · intro a
    split
    · change hits.count (f a.toHandle).ptr = hits.count a.ptr
      rw [hp]
    · rfl

theorem modify_congr {p : Nat} {f g : Handle ν → Handle ν}
    (hfg : ∀ a ∈ (plain s).list, a.ptr = p → f a = g a) : s.modify p f = s.modify p g := by
  have hr : s.ring.map (Node.withEntries (List.map fun h : LfuHandle ν =>
        if h.ptr = p then { h with toHandle := f h.toHandle } else h)) =
      s.ring.map (Node.withEntries (List.map fun h =>
        if h.ptr = p then { h with toHandle := g h.toHandle } else h)) := by
    apply List.map_congr_left
    intro n hn
    simp only [Node.withEntries, Node.mk.injEq, true_and]
    apply List.map_congr_left
    intro h hh
    by_cases hp : h.ptr = p
    · rw [if_pos hp, if_pos hp, hfg h.toHandle (mem_plain.mpr ⟨n, hn, h, hh, rfl⟩) hp]
    · rw [if_neg hp, if_neg hp]
  rw [LfuShard.modify, hr, LfuShard.modify]

theorem plain_modify (s : LfuShard ν) (p : Nat) (f : Handle ν → Handle ν) :
    (plain (s.modify p f)).list = ((plain s).modify p f).list := by
  simp only [plain, LfuShard.modify, LfuShard.listed, entries_map, List.map_map, Shard.modify]
  apply List.map_congr_left
  intro a _
  simp only [Function.comp_apply]
  split <;> rfl

theorem plain_remove (s : LfuShard ν) (p : Nat) :
    (plain (s.remove p)).list = others (plain s).list p := by
  rw [plain, remove_listed, others, plain, List.filter_map]
  rfl

theorem hit_filed (hd : ((plain s).list.map Handle.ptr).Nodup) (hf : Filed hits s)
    (hh : h ∈ s.listed) (hlt : hits.count h.ptr + 2 < counts) (hr : h.refs + 1 < counts) :
    ∃ t, s.hit h.ptr = some t ∧ Filed (h.ptr :: hits) t ∧ SameTable t s ∧
      (plain t).list.Perm ((plain s).modify h.ptr Handle.ref).list := by
  obtain ⟨t, ht, hft, hst, hpt⟩ := lfuUpdate_filed hd hf hh hlt
  refine ⟨t.modify h.ptr ref, ?_, modify_filed hft _ (fun _ => rfl), ?_, ?_⟩
  · rw [LfuShard.hit, ht, Option.map_some]
  · exact hst.trans ⟨rfl, rfl, rfl, rfl, rfl⟩
  · have hmem : h.toHandle ∈ (plain s).list := List.mem_map_of_mem hh
    have href : (plain s).modify h.ptr ref = (plain s).modify h.ptr Handle.ref := by
      apply ShardWords.modify_congr
      intro a ha hp
      rw [List.inj_on_of_nodup_map hd ha hmem hp]
      exact ShardWords.ref_eq hr
    rw [plain_modify, ← href]
    exact hpt.map _

theorem new_filed (hf : Filed hits s) (h : LfuHandle ν) (h0 : hits.count h.ptr = 0)
    (hp : h.ptr ∉ (plain s).list.map Handle.ptr) (hr : h.refs + 1 < counts) :
    ∃ t, s.lfuInsert h = some t ∧ Filed hits (t.modify h.ptr ref) ∧ SameTable t s ∧
      (plain (t.modify h.ptr ref)).list.Perm ((plain s).list ++ [h.toHandle.ref]) := by
  obtain ⟨t, ht, hft, hst, hpt⟩ := lfuInsert_filed hf h h0
  refine ⟨t, ht, modify_filed hft _ (fun _ => rfl), hst, ?_⟩
  rw [plain_modify]
  refine (hpt.map _).trans ?_
  rw [List.map_cons, if_pos rfl, ShardWords.ref_eq hr]
  refine List.Perm.trans (List.Perm.cons _ ?_) (List.perm_append_singleton _ _).symm
  rw [map_absent hp]

/-- `usage_` is what the handles charge, as a `size_t`. -/
def Charged (s : LfuShard ν) : Prop := s.usage = total chargeWord (plain s).list % sizes

structure Takes (s t : LfuShard ν) (ev : List (Handle ν)) : Prop where
  idle : ∀ a ∈ ev, a.hasRefs = false
  list : ((plain t).list ++ ev).Perm (plain s).list
  table : t.table = ev.foldl Shard.unlink s.table
  freed : t.freed = s.freed ++ ev.map Handle.ptr
  usage : t.usage = ev.foldl (fun usage a => subSize usage (chargeWord a)) s.usage
  nextPtr : t.nextPtr = s.nextPtr
  capacity : t.capacity = s.capacity

theorem Takes.inv {ev : List (Handle ν)} (h : Takes s t ev) (hs : Inv (plain s) out) :
    Inv (plain t) out := by
  refine Alike.inv ?_ (takeOut_inv hs h.list h.idle) rfl
  exact ⟨List.Perm.refl _, h.table, h.nextPtr, h.freed⟩

theorem subSize_add {w k : Nat} (hw : w < sizes) : subSize ((w + k) % sizes) w = k % sizes := by
  rw [subSize, sizes] at *
  omega

theorem foldl_subSize (ev : List (Handle ν)) (k : Nat) :
    ev.foldl (fun usage a => subSize usage (chargeWord a)) ((total chargeWord ev + k) % sizes) =
      k % sizes := by
  induction ev with
  | nil => rw [total, List.map_nil, List.sum_nil, Nat.zero_add, List.foldl_nil]
  | cons a ev ih =>
    have ha : chargeWord a < sizes := Nat.mod_lt _ (by decide)
    rw [List.foldl_cons, total_cons, Nat.add_assoc, subSize_add ha, ih]

theorem Takes.charged {ev : List (Handle ν)} (h : Takes s t ev) (hs : Charged s) :
    Charged t := by
  have ht := total_perm chargeWord h.list
  rw [total_append, Nat.add_comm] at ht
  rw [Charged, h.usage, hs, ← ht]
  exact foldl_subSize ev _

theorem Takes.charges_le {ev : List (Handle ν)} (h : Takes s t ev) :
    charges t.listed ≤ charges s.listed := by
  rw [← plain_charges, ← plain_charges, ← total_perm totalCharge h.list, total_append]
  exact Nat.le_add_right _ _

theorem Charged.usage_eq (hc : Charged s) (h : charges s.listed < sizes) :
    s.usage = charges s.listed := by
  rw [← plain_charges] at h
  have ht : total chargeWord (plain s).list = total totalCharge (plain s).list := total_mod _ h
  rw [hc, ht, Nat.mod_eq_of_lt h, plain_charges]

theorem listed_tail (hf : Filed hits s) : s.listed = entries s.ring.tail := by
  rw [LfuShard.listed, hf.tail, entries_cons, List.nil_append]
  rfl

def evictWalk (s : LfuShard ν) (charge : Nat) : Walk (LfuHandle ν) :=
  walk (fun usage => decide ((usage + charge) % sizes > s.capacity)) (fun h => h.hasRefs)
    (fun usage h => subSize usage (chargeWord h.toHandle)) s.usage s.ring.tail

theorem evictFrom_ring (hf : Filed hits s) (charge : Nat) :
    (s.evictFrom charge).ring = ⟨0, 0, []⟩ :: (evictWalk s charge).nodes := by
  change s.ring.take 1 ++ (evictWalk s charge).nodes = _
  rw [hf.tail]
  rfl

theorem evictFrom_filed (hf : Filed hits s) (charge : Nat) : Filed hits (s.evictFrom charge) := by
  have hr := evictFrom_ring hf charge
  rw [Filed, hf.tail] at hf
  rw [Filed, hr]
  exact hf.walk _ _ _ _

theorem evictFrom_takes (hf : Filed hits s) (charge : Nat) :
    Takes s (s.evictFrom charge) ((evictWalk s charge).out.map LfuHandle.toHandle) where
  idle := by
    intro a ha
    obtain ⟨h, hh, rfl⟩ := List.mem_map.mp ha
    exact walk_unpinned _ (fun h : LfuHandle ν => h.hasRefs) _ _ _ h hh
  list := by
    rw [plain, plain, ← List.map_append, listed_tail hf, listed_tail (evictFrom_filed hf charge),
      evictFrom_ring hf]
    exact (walk_entries _ _ _ _ _).map _
  table := rfl
  freed := by
    rw [List.map_map]
    rfl
  usage := by
    rw [List.foldl_map]
    exact walk_usage _ _ _ _ _
  nextPtr := rfl
  capacity := rfl

theorem makeRoom_takes (hf : Filed hits s) (h : Handle ν) :
    Filed hits (s.makeRoom h) ∧ ∃ ev, Takes s (s.makeRoom h) ev := by
  rw [LfuShard.makeRoom]
  split
  · exact ⟨evictFrom_filed hf _, _, evictFrom_takes hf _⟩
  · refine ⟨hf, [], ⟨?_, ?_, rfl, ?_, rfl, rfl, rfl⟩⟩
    · intro a ha
      cases ha
    · rw [List.append_nil]
    · rw [List.map_nil, List.append_nil]

end WiscKey.LfuRing
