import WiscKey.ShardPointers

namespace WiscKey.PointerRefinement

open WiscKey.Evict WiscKey.CacheShard WiscKey.ShardInvariant WiscKey.ShardOps
open WiscKey.ShardHandles WiscKey.ShardWords WiscKey.HandleTable WiscKey.HandleTableRuns
open WiscKey.Circles WiscKey.ShardPointers

variable {ν : Type}

def node (h : Handle ν) : Option Nat := some h.ptr

/-- What is in memory for a shard. The loose handles are allocated and not in
its list, and the table has been given `n` handles. -/
structure Refines (m : Memory ν) (s : Shard ν) (loose : List (Handle ν)) (n : Nat) : Prop where
  capacity : m.capacity = s.capacity
  usage : m.usage = s.usage
  lru : Around m.lru none (s.list.map node)
  heap : Stores Handle.ptr m.heap (s.list ++ loose)
  distinct : ((s.list ++ loose).map Handle.ptr).Nodup
  table : Represents m.table s.table
  sized : Sized m.table n
  nextPtr : m.nextPtr = s.nextPtr
  freed : m.freed = s.freed

structure Tidy (l : List (Handle ν)) (t : List Slot) : Prop where
  table : t.Perm (live l)
  keys : Distinct t
  cached : ∀ h ∈ l, h.hasRefs = false → h.inCache = true

variable {m m' : Memory ν} {s : Shard ν} {loose pre post l : List (Handle ν)} {a : Handle ν}
  {t : List Slot} {n fuel : Nat} {key : List UInt8} {hash : UInt32} {out : Nat → Nat}

theorem perm_front (pre post loose : List (Handle ν)) (a : Handle ν) :
    (pre ++ a :: post ++ loose).Perm (a :: (pre ++ post ++ loose)) := by
  rw [List.append_assoc, List.append_assoc]
  exact List.perm_middle

theorem perm_loose (pre post loose : List (Handle ν)) (a : Handle ν) :
    (pre ++ a :: post ++ loose).Perm (pre ++ post ++ a :: loose) :=
  (perm_front pre post loose a).trans List.perm_middle.symm

theorem ptr_notMem (hd : ((a :: l).map Handle.ptr).Nodup) : a.ptr ∉ l.map Handle.ptr :=
  (List.nodup_cons.mp hd).1

theorem Refines.ptr_nodup (h : Refines m s loose n) : (s.list.map Handle.ptr).Nodup := by
  have hd := h.distinct
  rw [List.map_append] at hd
  exact (List.nodup_append.mp hd).1

theorem Refines.heap_of_mem (h : Refines m s loose n) (ha : a ∈ s.list ++ loose) :
    m.heap a.ptr = some a := h.heap.present a ha

theorem Refines.alive (h : Refines m s loose n) :
    ∀ x ∈ none :: (s.list ++ loose).map node, m.alive x = true := by
  intro x hx
  obtain rfl | hx := List.mem_cons.mp hx
  · rfl
  obtain ⟨a, ha, rfl⟩ := List.mem_map.mp hx
  simp only [node, Memory.alive, h.heap_of_mem ha, Option.isSome_some]

theorem Refines.perm (h : Refines m s loose n) (hp : loose.Perm l) : Refines m s l n :=
  { h with
    heap := h.heap.perm (hp.append_left s.list)
    distinct := ((hp.append_left s.list).map Handle.ptr).nodup_iff.mp h.distinct }

theorem map_split (hd : ((pre ++ a :: post).map Handle.ptr).Nodup) (f : Handle ν → Handle ν) :
    (pre ++ a :: post).map (fun h => if h.ptr = a.ptr then f h else h) = pre ++ f a :: post := by
  have hp := ptr_notMem ((List.perm_middle.map Handle.ptr).nodup_iff.mp hd)
  rw [List.map_append, List.mem_append, not_or] at hp
  rw [List.map_append, List.map_cons, map_absent hp.1, map_absent hp.2, if_pos rfl]

theorem others_split (hd : ((pre ++ a :: post).map Handle.ptr).Nodup) :
    (pre ++ a :: post).filter (fun h => decide (h.ptr ≠ a.ptr)) = pre ++ post := by
  have hp := ptr_notMem ((List.perm_middle.map Handle.ptr).nodup_iff.mp hd)
  rw [List.map_append, List.mem_append, not_or] at hp
  have hne : ∀ l : List (Handle ν), a.ptr ∉ l.map Handle.ptr →
      l.filter (fun h => decide (h.ptr ≠ a.ptr)) = l := by
    intro l hl
    refine List.filter_eq_self.mpr fun h hm => decide_eq_true fun he => hl ?_
    exact he ▸ List.mem_map_of_mem hm
  rw [List.filter_append, List.filter_cons_of_neg (by simp), hne pre hp.1, hne post hp.2]

theorem Refines.modify (h : Refines m s loose n) (ha : a ∈ s.list) {f : Handle ν → Handle ν}
    (hf : ∀ b, (f b).ptr = b.ptr) :
    ∃ m', m.modify a.ptr f = some m' ∧ Refines m' (s.modify a.ptr f) loose n := by
  obtain ⟨pre, post, hl⟩ := List.append_of_mem ha
  have hlist : (s.modify a.ptr f).list = pre ++ f a :: post := by
    have hd := h.ptr_nodup
    rw [Shard.modify, hl]
    rw [hl] at hd
    exact map_split hd f
  have hd := h.distinct
  have hheap := h.heap
  rw [hl] at hd hheap
  have hfront := perm_front pre post loose a
  have hnot := ptr_notMem ((hfront.map Handle.ptr).nodup_iff.mp hd)
  refine ⟨{ m with heap := Function.update m.heap a.ptr (some (f a)) }, ?_, ?_⟩
  · rw [Memory.modify, h.heap_of_mem (List.mem_append_left loose ha)]
    rfl
  refine { h with lru := ?_, heap := ?_, distinct := ?_ }
  · rw [modify_map s a.ptr f node fun b => congrArg some (hf b)]
    exact h.lru
  · rw [hlist]
    exact ((hheap.perm hfront).write hnot (hf a)).perm (perm_front pre post loose (f a)).symm
  · rw [List.map_append, modify_map s a.ptr f Handle.ptr hf, ← List.map_append]
    exact h.distinct

theorem Refines.lruRemove (h : Refines m s loose n) (hl : s.list = pre ++ a :: post) :
    ∃ m', m.lruRemove a.ptr = some m' ∧
      Refines m' { s with list := pre ++ post } (a :: loose) n := by
  have hlru := h.lru
  rw [hl, List.map_append, List.map_cons] at hlru
  obtain ⟨c, hc, hlru⟩ := hlru.remove m.alive fun x hx => by
    refine h.alive x (List.cons_subset_cons none ?_ hx)
    rw [List.map_append, hl, List.map_append, List.map_cons]
    exact List.subset_append_left _ _
  have hheap := h.heap
  have hd := h.distinct
  rw [hl] at hheap hd
  have hperm := perm_loose pre post loose a
  refine ⟨{ m with lru := c }, ?_, ?_⟩
  · rw [Memory.lruRemove]
    exact congrArg (Option.bind · _) hc
  refine { h with lru := ?_, heap := hheap.perm hperm, distinct := ?_ }
  · rw [List.map_append]
    exact hlru
  · exact (hperm.map Handle.ptr).nodup_iff.mp hd

theorem Refines.lruInsert (h : Refines m s (a :: loose) n) :
    ∃ m', m.lruInsert a.ptr = some m' ∧ Refines m' { s with list := s.list ++ [a] } loose n := by
  have hperm : (s.list ++ a :: loose).Perm (s.list ++ [a] ++ loose) := by
    rw [List.append_assoc]
    exact List.Perm.refl _
  have hnot : node a ∉ none :: s.list.map node := by
    have hd := h.distinct
    have hp := ptr_notMem ((List.perm_middle.map Handle.ptr).nodup_iff.mp hd)
    rw [List.map_append, List.mem_append, not_or] at hp
    intro hm
    obtain hm | hm := List.mem_cons.mp hm
    · cases hm
    obtain ⟨b, hb, he⟩ := List.mem_map.mp hm
    exact hp.1 (Option.some_injective Nat he ▸ List.mem_map_of_mem hb)
  obtain ⟨c, hc, hlru⟩ := h.lru.insertLast m.alive hnot fun x hx => by
    refine h.alive x ?_
    obtain rfl | hx := List.mem_cons.mp hx
    · exact List.mem_cons_of_mem none (List.mem_map_of_mem (by simp))
    · refine List.cons_subset_cons none ?_ hx
      exact List.map_subset node (List.subset_append_left _ _)
  refine ⟨{ m with lru := c }, ?_, ?_⟩
  · rw [Memory.lruInsert]
    exact congrArg (Option.bind · _) hc
  refine { h with lru := ?_, heap := h.heap.perm hperm, distinct := ?_ }
  · rw [List.map_append]
    exact hlru
  · exact (hperm.map Handle.ptr).nodup_iff.mp h.distinct

theorem Refines.charged (h : Refines m s loose n) (u : Nat) :
    Refines { m with usage := u } { s with usage := u } loose n :=
  { h with usage := rfl }

theorem Refines.free (h : Refines m s (a :: loose) n) :
    ∃ m', m.free a.ptr = some m' ∧ Refines m' { s with freed := s.freed ++ [a.ptr] } loose n := by
  have hperm : (s.list ++ a :: loose).Perm (a :: (s.list ++ loose)) := List.perm_middle
  have hd := (hperm.map Handle.ptr).nodup_iff.mp h.distinct
  refine ⟨{ m with heap := Function.update m.heap a.ptr none, freed := m.freed ++ [a.ptr] }, ?_, ?_⟩
  · rw [Memory.free, h.heap_of_mem (hperm.mem_iff.mpr List.mem_cons_self)]
    rfl
  refine { h with heap := ?_, distinct := (List.nodup_cons.mp hd).2, freed := ?_ }
  · exact (h.heap.perm hperm).free (ptr_notMem hd)
  · exact congrArg (· ++ [a.ptr]) h.freed

theorem Refines.freeAll (h : Refines m s (l ++ loose) n) :
    ∃ m', (l.map Handle.ptr).foldlM Memory.free m = some m' ∧
      Refines m' { s with freed := s.freed ++ l.map Handle.ptr } loose n := by
  induction l generalizing m s with
  | nil =>
    refine ⟨m, rfl, ?_⟩
    rw [List.map_nil, List.append_nil]
    exact h
  | cons a l ih =>
    obtain ⟨m₁, hm₁, h₁⟩ := h.free
    obtain ⟨m₂, hm₂, h₂⟩ := ih h₁
    refine ⟨m₂, ?_, ?_⟩
    · rw [List.map_cons, List.foldlM_cons, hm₁]
      exact hm₂
    · rw [List.map_cons]
      simp only [List.append_assoc, List.singleton_append] at h₂
      exact h₂

theorem Tidy.slot_mem (h : Tidy l t) (ha : a ∈ l) (hc : a.inCache = true) : a.slot ∈ t :=
  h.table.mem_iff.mpr (mem_live.mpr ⟨a, ha, hc, rfl⟩)

theorem Tidy.find_slot (h : Tidy l t) (ha : a ∈ l) (hc : a.inCache = true) :
    t.find? (Slot.isFor a.key a.hash) = some a.slot :=
  h.keys.find_eq_some.mpr ⟨h.slot_mem ha hc, Slot.isFor_iff.mpr rfl⟩

theorem Tidy.evict (h : Tidy (pre ++ a :: post) t) (hc : a.inCache = true) :
    Tidy (pre ++ post) (Shard.unlink t a) where
  table := by
    refine eraseP_perm (e := a.slot) (h.table.trans ((live_perm List.perm_middle).trans ?_)) h.keys
    rw [live, live, List.filter_cons_of_pos hc, List.map_cons]
  keys := List.Nodup.sublist (List.eraseP_sublist.map _) h.keys
  cached := fun b hb => h.cached b (List.perm_middle.mem_iff.mpr (List.mem_cons_of_mem a hb))

theorem tidy_of_inv (h : Inv s out) : Tidy s.list s.table :=
  ⟨h.table_perm, h.keys, fun _ ha hr => unpinned_inCache h ha hr⟩

theorem represents_perm {t : Table} {l r : List Slot} (h : Represents t l) (hp : l.Perm r) :
    Represents t r := by
  obtain ⟨q, hq, hf⟩ := h
  exact ⟨q, hq.trans hp, hf⟩

theorem filter_perm_eraseP {l : List Slot} {e : Slot} (hd : Distinct l)
    (hf : l.find? (Slot.isFor key hash) = some e) :
    (l.filter fun b => b ≠ e).Perm (l.eraseP (Slot.isFor key hash)) := by
  obtain ⟨he, hid⟩ := hd.find_eq_some.mp hf
  obtain ⟨rfl, rfl⟩ := Prod.mk.inj (Slot.isFor_iff.mp hid)
  have hperm := List.perm_cons_erase he
  refine List.Perm.trans ?_ (eraseP_perm hperm hd).symm
  rw [hd.nodup.erase_eq_filter]
  simp only [ne_eq, decide_not, List.Perm.refl, bne, beq_eq_decide]

theorem Refines.tableRemove (h : Refines m s loose n) (hd : Distinct s.table)
    (hf : s.table.length ≤ fuel) {e : Slot} (he : s.table.find? (Slot.isFor key hash) = some e) :
    ∃ t', m.table.remove fuel key hash = some (t', some e) ∧ Refines { m with table := t' }
      { s with table := s.table.eraseP (Slot.isFor key hash) } loose n := by
  obtain ⟨t', hrem, hr, hlen, helems⟩ := remove_some h.table hd hf he
  refine ⟨t', hrem, { h with table := ?_, sized := h.sized.congr hlen helems }⟩
  exact represents_perm hr (filter_perm_eraseP hd he)

/-- The walk of an eviction from a handle on, with those in front of it kept. -/
theorem evictLoop_refines (charge : Nat) (rest kept : List (Handle ν)) (deleted : List Nat)
    {rounds : Nat} (h : Refines m { s with list := kept ++ rest } loose n)
    (ht : Tidy (kept ++ rest) s.table) (hf : s.table.length ≤ fuel) (hr : rest.length < rounds) :
    let r := evictWords s.capacity charge s.usage rest
    ∃ m', Memory.evictLoop fuel charge rounds ((rest.map node).headD none) m deleted =
        some (m', deleted ++ r.2.1.map Handle.ptr) ∧
      Refines m' { s with
        list := kept ++ r.1
        usage := r.2.2
        table := r.2.1.foldl Shard.unlink s.table } (r.2.1.reverse ++ loose) n ∧
      Tidy (kept ++ r.1) (r.2.1.foldl Shard.unlink s.table) := by
  -- by induction on what the walk has before it: a handle it passes by joins the kept
  -- ones, a handle it takes out becomes loose and is freed by the caller
  induction rest generalizing m s kept rounds deleted loose with
  | nil =>
    obtain ⟨k, rfl⟩ := Nat.exists_eq_add_of_lt hr
    refine ⟨m, ?_, h, ht⟩
    exact congrArg (fun d => some (m, d)) (List.append_nil deleted).symm
  | cons a rest ih =>
    obtain ⟨k, rfl⟩ : ∃ k, rounds = k + 1 := ⟨rounds - 1, by omega⟩
    have hk : rest.length < k := Nat.lt_of_succ_lt_succ hr
    have hlru := h.lru
    rw [List.map_append, List.map_cons] at hlru
    have hnext : m.lru.next (some a.ptr) = some ((rest.map node).headD none) := hlru.next_of_mem
    have hheap : m.heap a.ptr = some a := h.heap_of_mem (by simp)
    have hroom : (m.usage + charge) % sizes ≤ m.capacity ↔
        (s.usage + charge) % sizes ≤ s.capacity := by
      rw [h.usage, h.capacity]
    rw [List.map_cons, List.headD_cons, node, Memory.evictLoop, evictWords]
    by_cases hfit : (s.usage + charge) % sizes ≤ s.capacity
    · rw [if_pos (hroom.mpr hfit), if_pos hfit]
      refine ⟨m, ?_, h, ht⟩
      rw [List.map_nil, List.append_nil]
    rw [if_neg (fun hm => hfit (hroom.mp hm)), if_neg hfit, hheap, hnext]
    cases hrefs : a.hasRefs with
    | true =>
      rw [if_pos rfl]
      have happ : kept ++ a :: rest = kept ++ [a] ++ rest := by simp
      rw [happ] at h ht
      obtain ⟨m', hm', h', ht'⟩ := ih (kept ++ [a]) deleted h ht hf hk
      simp only [List.append_assoc, List.singleton_append] at h' ht'
      refine ⟨m', ?_, h', ht'⟩
      simp only [Option.bind_eq_bind, Option.bind_some, hrefs, if_true]
      exact hm'
    | false =>
      have hc := ht.cached a (by simp) hrefs
      obtain ⟨t', hrem, h₁⟩ := h.tableRemove ht.keys hf (ht.find_slot (by simp) hc)
      obtain ⟨m₂, hm₂, h₂⟩ := h₁.lruRemove rfl
      have hu : m₂.usage = s.usage := h₂.usage
      obtain ⟨m', hm', h', ht'⟩ := ih kept (deleted ++ [a.ptr])
        (s := { s with
          usage := subSize s.usage (chargeWord a)
          table := Shard.unlink s.table a })
        (h₂.charged (subSize s.usage (chargeWord a))) (ht.evict hc)
        ((List.eraseP_sublist.length_le).trans hf) hk
      rw [if_neg Bool.false_ne_true]
      refine ⟨m', ?_, ?_, ht'⟩
      · simp only [Option.bind_eq_bind, Option.bind_some, hrefs, hrem, hm₂, hu,
          Bool.false_eq_true, if_false, List.map_cons]
        rw [hm', List.append_assoc]
        rfl
      · rw [List.reverse_cons, List.append_assoc]
        exact h'

end WiscKey.PointerRefinement
