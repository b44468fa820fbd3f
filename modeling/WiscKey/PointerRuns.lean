import WiscKey.PointerRefinement

namespace WiscKey.PointerRuns

open WiscKey.Evict WiscKey.CacheShard WiscKey.ShardInvariant WiscKey.ShardOps
open WiscKey.ShardHandles WiscKey.ShardWords WiscKey.HandleTable WiscKey.HandleTableRuns
open WiscKey.Circles WiscKey.ShardPointers WiscKey.PointerRefinement WiscKey.Runs
open WiscKey.ShardRuns (Op Client Fits Kept)

variable {ν : Type} {m m' : Memory ν} {s : Shard ν} {loose : List (Handle ν)} {a : Handle ν}
  {n fuel : Nat} {key : List UInt8} {hash : UInt32} {out : Nat → Nat}

theorem list_length_le (h : Core s out) : s.list.length ≤ s.nextPtr := by
  have hl := h.allocated.length_eq
  rw [List.length_append, List.length_map, List.length_range] at hl
  omega

theorem table_length_le (h : Core s out) : s.table.length ≤ s.list.length := by
  rw [h.table_perm.length_eq, live, List.length_map]
  exact List.length_filter_le _ _

theorem handle_of_slot {l : List (Handle ν)} {t : List Slot} (h : Tidy l t) {e : Slot}
    (he : t.find? (Slot.isFor key hash) = some e) :
    ∃ a ∈ l, a.inCache = true ∧ a.slot = e :=
  mem_live.mp (h.table.mem_iff.mp (List.mem_of_find?_eq_some he))

theorem makeRoom_refines (charge : Nat) (h : Refines m s loose n) (ht : Tidy s.list s.table)
    (hf : s.list.length < fuel) (htf : s.table.length ≤ fuel) :
    ∃ m' ev, m.makeRoom fuel charge = some (m', ev.map Handle.ptr) ∧
      Refines m' { ShardWords.makeRoom s charge with freed := s.freed } (ev ++ loose) n ∧
      Tidy (ShardWords.makeRoom s charge).list (ShardWords.makeRoom s charge).table ∧
      (ShardWords.makeRoom s charge).freed = s.freed ++ ev.map Handle.ptr := by
  rw [Memory.makeRoom, ShardWords.makeRoom, h.usage, h.capacity]
  by_cases hroom : (s.usage + charge) % sizes > s.capacity
  · rw [if_pos hroom, if_pos hroom]
    obtain ⟨m', hm', h', ht'⟩ := evictLoop_refines charge s.list [] [] h ht htf hf
    refine ⟨m', _, ?_, h'.perm ((List.reverse_perm _).append_right loose), ht', rfl⟩
    rw [Memory.evictFrom, h.lru.path.next_start]
    exact hm'
  · rw [if_neg hroom, if_neg hroom]
    exact ⟨m, [], rfl, h, ht, (List.append_nil _).symm⟩

theorem alloc_refines (h : Refines m s loose n) (ha : a.ptr ∉ (s.list ++ loose).map Handle.ptr) :
    Refines (m.alloc a) { s with nextPtr := s.nextPtr + 1 } (a :: loose) n := by
  have hperm : (a :: (s.list ++ loose)).Perm (s.list ++ a :: loose) := List.perm_middle.symm
  refine { h with
    lru := h.lru.detach ?_
    heap := (h.heap.alloc ha).perm hperm
    distinct := (hperm.map Handle.ptr).nodup_iff.mp (List.nodup_cons.mpr ⟨ha, h.distinct⟩)
    nextPtr := congrArg (· + 1) h.nextPtr }
  intro hm
  obtain hm | hm := List.mem_cons.mp hm
  · cases hm
  obtain ⟨b, hb, he⟩ := List.mem_map.mp hm
  refine ha ?_
  rw [← Option.some_injective Nat he]
  exact List.mem_map_of_mem (List.mem_append_left loose hb)

theorem discard_refines (h : Refines m s loose n) (ha : a ∈ s.list) :
    ∃ m', m.discard a = some m' ∧ Refines m' (ShardWords.discard s a) loose n := by
  obtain ⟨pre, post, hl⟩ := List.append_of_mem ha
  have hlist : s.list.filter (fun h => decide (h.ptr ≠ a.ptr)) = pre ++ post := by
    have hd := h.ptr_nodup
    rw [hl] at hd ⊢
    exact others_split hd
  obtain ⟨m₁, hm₁, h₁⟩ := h.lruRemove hl
  obtain ⟨m₂, hm₂, h₂⟩ := (h₁.charged (subSize s.usage (chargeWord a))).free
  have hu : m₁.usage = s.usage := h₁.usage
  refine ⟨m₂, ?_, ?_⟩
  · rw [Memory.discard, hm₁]
    simp only [Option.bind_eq_bind, Option.bind_some, hu]
    exact hm₂
  · rw [ShardWords.discard, hlist]
    exact h₂

theorem heap_modify {f : Handle ν → Handle ν} (h : Refines m (s.modify a.ptr f) loose n)
    (ha : a ∈ s.list) (hf : ∀ b, (f b).ptr = b.ptr) : m.heap a.ptr = some (f a) := by
  have hm : f a ∈ (s.modify a.ptr f).list := mem_modify.mpr ⟨a, ha, if_pos rfl⟩
  have hh := h.heap_of_mem (List.mem_append_left loose hm)
  rwa [hf] at hh

-- The counts are taken modulo their word, so the handle is taken apart first:
-- comparing it with itself counted up would compare the words.
theorem ref_ptr (h : Handle ν) : (ref h).ptr = h.ptr := by
  cases h
  rfl

theorem unref_ptr (h : Handle ν) : (unref h).ptr = h.ptr := by
  cases h
  rfl

theorem settle_refines (h : Refines m s loose n) (ha : a ∈ s.list) :
    ∃ m', (if a.refs = 0 ∧ a.inCache = false then m.discard a else some m) = some m' ∧
      Refines m' (if a.refs = 0 ∧ a.inCache = false then ShardWords.discard s a else s) loose
        n := by
  by_cases hl : a.refs = 0 ∧ a.inCache = false
  · rw [if_pos hl, if_pos hl]
    exact discard_refines h ha
  · rw [if_neg hl, if_neg hl]
    exact ⟨m, rfl, h⟩

theorem memory_release {p : Nat} (hm : m.modify p unref = some m') (ha : m'.heap p = some a) :
    m.release p =
      if a.refs = 0 ∧ a.inCache = false then m'.discard a else some m' := by
  rw [Memory.release, hm]
  rw [Option.bind_eq_bind, Option.bind_some, ha]
  rfl

theorem shard_release {p : Nat} (ha : (s.modify p unref).handle p = some a) :
    ShardWords.release s p = if a.refs = 0 ∧ a.inCache = false then
      ShardWords.discard (s.modify p unref) a else s.modify p unref := by
  rw [ShardWords.release]
  generalize s.modify p unref = r at ha ⊢
  rw [ha]

theorem release_refines (h : Refines m s loose n) (ha : a ∈ s.list) :
    ∃ m', m.release a.ptr = some m' ∧ Refines m' (ShardWords.release s a.ptr) loose n := by
  obtain ⟨m₁, hm₁, h₁⟩ := h.modify ha unref_ptr
  have hheap := heap_modify h₁ ha unref_ptr
  have hhandle := modify_handle h.ptr_nodup ha unref_ptr
  rw [memory_release hm₁ hheap, shard_release hhandle]
  exact settle_refines h₁ (mem_modify.mpr ⟨a, ha, if_pos rfl⟩)

theorem erase_refines (key : List UInt8) (hash : UInt32) (h : Refines m s loose n)
    (hs : Inv s out) (hf : s.table.length ≤ fuel) :
    ∃ m', m.erase fuel key hash = some (m', (ShardWords.erase s key hash).2) ∧
      Refines m' (ShardWords.erase s key hash).1 loose n := by
  cases hfind : s.table.find? (Slot.isFor key hash) with
  | none =>
    refine ⟨m, ?_, ?_⟩
    · simp only [Memory.erase, remove_none h.table hf hfind, ShardWords.erase, Shard.find, hfind]
      rfl
    · simp only [ShardWords.erase, Shard.find, hfind, Option.map_none]
      exact h
  | some e =>
    obtain ⟨a, ha, -, rfl⟩ := handle_of_slot (tidy_of_inv hs) hfind
    obtain ⟨t', hrem, h₁⟩ := h.tableRemove hs.keys hf hfind
    obtain ⟨m₂, hm₂, h₂⟩ := h₁.modify (a := a) ha (f := Handle.setErased) fun _ => rfl
    have hheap := heap_modify h₂ ha fun _ => rfl
    have hhandle := modify_handle h₁.ptr_nodup (h := a) ha (f := Handle.setErased) fun _ => rfl
    have hptr : a.slot.ptr = a.ptr := rfl
    simp only [Memory.erase, hrem, ShardWords.erase, Shard.find, hfind, Option.bind_eq_bind,
      Option.bind_some, Option.map_some, hptr, hm₂, hheap, hhandle]
    cases hrefs : a.setErased.hasRefs with
    | true => exact ⟨m₂, rfl, h₂⟩
    | false =>
      obtain ⟨m₃, hm₃, h₃⟩ := discard_refines h₂ (mem_modify.mpr ⟨a, ha, if_pos rfl⟩)
      refine ⟨m₃, ?_, h₃⟩
      simp only [Bool.false_eq_true, if_false, hm₃, Option.bind_some]
      rfl

theorem toBack_refines (h : Refines m s loose n) (ha : a ∈ s.list) :
    ∃ m', ((m.lruRemove a.ptr).bind fun m => m.lruInsert a.ptr) = some m' ∧
      Refines m' (s.toBack a.ptr) loose n := by
  obtain ⟨pre, post, hl⟩ := List.append_of_mem ha
  have hlist : (s.toBack a.ptr).list = pre ++ post ++ [a] := by
    have hd := h.ptr_nodup
    rw [Shard.toBack, filter_ptr hd ha]
    rw [hl] at hd ⊢
    rw [others_split hd]
  obtain ⟨m₁, hm₁, h₁⟩ := h.lruRemove hl
  obtain ⟨m₂, hm₂, h₂⟩ := h₁.lruInsert
  refine ⟨m₂, ?_, ?_⟩
  · rw [hm₁]
    exact hm₂
  · rw [← hlist] at h₂
    exact h₂

theorem lookup_refines (policy : Policy) (key : List UInt8) (hash : UInt32)
    (h : Refines m s loose n) (hs : Inv s out) (hf : s.table.length ≤ fuel) :
    ∃ m', m.lookup policy fuel key hash = some (m', (ShardWords.lookup policy s key hash).2) ∧
      Refines m' (ShardWords.lookup policy s key hash).1 loose n := by
  have htable : m.table.lookup fuel key hash = some (s.table.find? (Slot.isFor key hash)) :=
    findPointer_eq h.table hs.keys hf
  simp only [Memory.lookup, htable, ShardWords.lookup, Shard.find, Option.bind_eq_bind,
    Option.bind_some]
  cases hfind : s.table.find? (Slot.isFor key hash) with
  | none => exact ⟨m, rfl, h⟩
  | some e =>
    obtain ⟨a, ha, -, rfl⟩ := handle_of_slot (tidy_of_inv hs) hfind
    have hptr : a.slot.ptr = a.ptr := rfl
    simp only [Option.map_some, hptr]
    by_cases hlru : policy = .lru
    · obtain ⟨m₁, hm₁, h₁⟩ := toBack_refines h ha
      have ha₁ : a ∈ (s.toBack a.ptr).list := (toBack_perm s a.ptr).mem_iff.mpr ha
      obtain ⟨m₂, hm₂, h₂⟩ := h₁.modify ha₁ ref_ptr
      rw [if_pos hlru, if_pos hlru, hm₁]
      refine ⟨m₂, ?_, h₂⟩
      simp only [Option.bind_some, hm₂]
      rfl
    · obtain ⟨m₂, hm₂, h₂⟩ := h.modify ha ref_ptr
      rw [if_neg hlru, if_neg hlru]
      refine ⟨m₂, ?_, h₂⟩
      simp only [Option.bind_some, hm₂]
      rfl

theorem insert_present {r : Shard ν} {ev : List (Handle ν)} (h : Refines m r (ev ++ [a]) n)
    {b : Handle ν} (hb : b ∈ r.list) :
    b.ptr ≠ a.ptr ∧ ∃ m₁ m₂, m.modify b.ptr ref = some m₁ ∧
      (ev.map Handle.ptr ++ [a.ptr]).foldlM Memory.free m₁ = some m₂ ∧
      Refines m₂ { r.modify b.ptr ref with
        freed := r.freed ++ ev.map Handle.ptr ++ [a.ptr] } [] n := by
  have hne : b.ptr ≠ a.ptr := by
    have hd := h.distinct
    rw [List.map_append] at hd
    exact (List.nodup_append.mp hd).2.2 _ (List.mem_map_of_mem hb) _ (List.mem_map_of_mem (by simp))
  obtain ⟨m₁, hm₁, h₁⟩ := h.modify hb ref_ptr
  rw [← List.append_nil (ev ++ [a])] at h₁
  obtain ⟨m₂, hm₂, h₂⟩ := h₁.freeAll
  rw [List.map_append, List.map_singleton] at hm₂ h₂
  refine ⟨hne, m₁, m₂, hm₁, hm₂, ?_⟩
  rw [List.append_assoc]
  exact h₂

theorem insert_absent {r : Shard ν} {ev : List (Handle ν)} {u : Nat}
    (h : Refines m r (ev ++ [a]) n) :
    ∃ m₁ m₂ m₃, m.lruInsert a.ptr = some m₁ ∧ m₁.modify a.ptr ref = some m₂ ∧
      m₂.usage = r.usage ∧
      (ev.map Handle.ptr).foldlM Memory.free { m₂ with usage := u } = some m₃ ∧
      Refines m₃ { r with
        list := r.list ++ [ref a]
        usage := u
        freed := r.freed ++ ev.map Handle.ptr } [] n := by
  obtain ⟨m₁, hm₁, h₁⟩ := (h.perm (l := a :: ev) List.perm_append_comm).lruInsert
  obtain ⟨m₂, hm₂, h₂⟩ := h₁.modify (a := a) (by simp) ref_ptr
  have hlist : (r.list ++ [a]).map (fun b => if b.ptr = a.ptr then ref b else b) =
      r.list ++ [ref a] := map_split h₁.ptr_nodup ref
  have h₃ := h₂.charged u
  rw [← List.append_nil ev] at h₃
  obtain ⟨m₃, hm₃, h₄⟩ := h₃.freeAll
  refine ⟨m₁, m₂, m₃, hm₁, hm₂, h₂.usage, hm₃, ?_⟩
  simp only [Shard.modify, hlist] at h₄
  exact h₄

theorem makeRoom_at (s : Shard ν) (charge p : Nat) :
    ShardWords.makeRoom { s with nextPtr := p } charge =
      { ShardWords.makeRoom s charge with nextPtr := p } := by
  rw [ShardWords.makeRoom, ShardWords.makeRoom]
  split
  · rfl
  · rfl

theorem makeRoom_table (s : Shard ν) (charge : Nat) :
    (ShardWords.makeRoom s charge).table.Sublist s.table := by
  rw [ShardWords.makeRoom]
  split
  · exact unlink_sublist s.table _
  · exact List.Sublist.refl _

theorem place_present {r : Shard ν} {ev : List (Handle ν)} {e : Slot}
    (h : Refines m r (ev ++ [a]) n) (ht : Tidy r.list r.table) (hf : r.table.length < fuel)
    (hfind : r.table.find? (Slot.isFor a.key a.hash) = some e) :
    ∃ m', m.place fuel a (ev.map Handle.ptr) = some (m', e.ptr) ∧
      Refines m' { r.modify e.ptr ref with
        freed := r.freed ++ ev.map Handle.ptr ++ [a.ptr] } [] n := by
  obtain ⟨b, hb, -, rfl⟩ := handle_of_slot ht hfind
  obtain ⟨hne, m₁, m₂, hmod, hfree, h₂⟩ := insert_present h hb
  have hins : m.table.insert fuel a.slot = some (m.table, b.slot) :=
    insert_some h.table ht.keys hf.le hfind
  refine ⟨m₂, ?_, h₂⟩
  rw [Memory.place, hins, Option.bind_eq_bind, Option.bind_some]
  dsimp only
  rw [show b.slot.ptr = b.ptr from rfl, if_pos hne]
  change (m.modify b.ptr ref).bind _ = _
  rw [hmod, Option.bind_some, hfree]
  rfl

theorem place_absent {r : Shard ν} {ev : List (Handle ν)} (h : Refines m r (ev ++ [a]) n)
    (ht : Tidy r.list r.table) (hf : r.table.length < fuel) (hn : n < 2 ^ 30)
    (hfind : r.table.find? (Slot.isFor a.key a.hash) = none) :
    ∃ m', m.place fuel a (ev.map Handle.ptr) = some (m', a.ptr) ∧
      Refines m' { r with
        list := r.list ++ [ref a]
        table := a.slot :: r.table
        usage := (r.usage + chargeWord a) % sizes
        freed := r.freed ++ ev.map Handle.ptr } [] (n + 1) := by
  obtain ⟨t, hgrow, hrep, hsized⟩ := grow_sized h.table
    (distinct_cons (c := ⟨r.table, 0, 0⟩) (h := a.slot) ht.keys hfind) hf h.sized hn
  have hins : m.table.insert fuel a.slot = some (t, a.slot) := by
    rw [insert_none h.table ht.keys hf.le hfind, hgrow]
    rfl
  have h₁ : Refines { m with table := t } { r with table := a.slot :: r.table } (ev ++ [a])
      (n + 1) := { h with table := hrep, sized := hsized }
  obtain ⟨m₁, m₂, m₃, hm₁, hm₂, hu, hfree, h₂⟩ :=
    insert_absent (u := (r.usage + chargeWord a) % sizes) h₁
  refine ⟨m₃, ?_, h₂⟩
  rw [Memory.place, hins, Option.bind_eq_bind, Option.bind_some]
  dsimp only
  rw [if_neg (fun hne => hne rfl), hm₁, Option.bind_eq_bind, Option.bind_some, hm₂,
    Option.bind_some, hu, hfree]
  rfl

theorem shard_insert_present {r : Shard ν} {value : ν} {charge p : Nat}
    (hr : { ShardWords.makeRoom s (chargeWord (s.alloc key hash value charge)) with
      nextPtr := s.nextPtr + 1 } = r) (hf : r.find key hash = some p) :
    ShardWords.insert s key hash value charge =
      ({ r.modify p ref with freed := r.freed ++ [s.nextPtr] }, p) := by
  rw [ShardWords.insert, hr]
  dsimp only
  rw [hf]
  rfl

theorem shard_insert_absent {r : Shard ν} {value : ν} {charge : Nat}
    (hr : { ShardWords.makeRoom s (chargeWord (s.alloc key hash value charge)) with
      nextPtr := s.nextPtr + 1 } = r) (hf : r.find key hash = none) :
    ShardWords.insert s key hash value charge =
      ({ r with
          list := r.list ++ [ref (s.alloc key hash value charge)]
          table := (s.alloc key hash value charge).slot :: r.table
          usage := (r.usage + chargeWord (s.alloc key hash value charge)) % sizes },
        s.nextPtr) := by
  rw [ShardWords.insert, hr]
  dsimp only
  rw [hf]
  rfl

theorem insert_refines (key : List UInt8) (hash : UInt32) (value : ν) (charge : Nat)
    (h : Refines m s [] n) (hs : Inv s out) (hf : s.nextPtr < fuel) (hn : n < 2 ^ 30) :
    ∃ m' k, m.insert fuel key hash value charge =
        some (m', (ShardWords.insert s key hash value charge).2) ∧ k ≤ n + 1 ∧
      Refines m' (ShardWords.insert s key hash value charge).1 [] k := by
  have hlist := list_length_le hs.toCore
  have htable := table_length_le hs.toCore
  have hfresh : m.fresh key hash value charge = s.alloc key hash value charge := by
    rw [Memory.fresh, h.nextPtr, Shard.alloc]
  have ht₀ : Tidy s.list s.table := tidy_of_inv hs
  have h₀ := alloc_refines (a := s.alloc key hash value charge) h (by
    rw [List.append_nil]
    exact nextPtr_fresh hs.toCore)
  obtain ⟨m₀, ev, hmake, h₁, ht, hfreed⟩ := makeRoom_refines
    (chargeWord (s.alloc key hash value charge)) h₀ ht₀ (hlist.trans_lt hf)
    (htable.trans (hlist.trans hf.le))
  have hshort := (makeRoom_table s (chargeWord (s.alloc key hash value charge))).length_le
  rw [makeRoom_at] at h₁ ht hfreed
  have hins : m.insert fuel key hash value charge =
      m₀.place fuel (s.alloc key hash value charge) (ev.map Handle.ptr) := by
    rw [Memory.insert, hfresh, hmake]
    rfl
  -- what the eviction leaves has a name, so that nothing below looks into it
  obtain ⟨r, hr⟩ : ∃ r, { ShardWords.makeRoom s (chargeWord (s.alloc key hash value charge)) with
      nextPtr := s.nextPtr + 1 } = r := ⟨_, rfl⟩
  have hrt : r.table.length < fuel := by
    rw [← hr]
    exact lt_of_le_of_lt hshort (htable.trans_lt (hlist.trans_lt hf))
  rw [hr] at h₁ ht hfreed
  rw [hins]
  cases hfind : r.table.find? (Slot.isFor key hash) with
  | some e =>
    obtain ⟨m', hm', h'⟩ := place_present h₁ ht hrt hfind
    rw [shard_insert_present hr (by rw [Shard.find, hfind]; rfl)]
    refine ⟨m', n, hm', Nat.le_succ n, ?_⟩
    rw [hfreed]
    exact h'
  | none =>
    obtain ⟨m', hm', h'⟩ := place_absent h₁ ht hrt hn hfind
    rw [shard_insert_absent hr (by rw [Shard.find, hfind]; rfl)]
    refine ⟨m', n + 1, hm', Nat.le_refl _, ?_⟩
    rw [← hfreed] at h'
    exact h'

theorem modify_nextPtr (s : Shard ν) (p : Nat) (f : Handle ν → Handle ν) :
    (s.modify p f).nextPtr = s.nextPtr := rfl

theorem discard_nextPtr (s : Shard ν) (a : Handle ν) :
    (ShardWords.discard s a).nextPtr = s.nextPtr := by
  cases s
  rfl

theorem insert_nextPtr (s : Shard ν) (key : List UInt8) (hash : UInt32) (value : ν)
    (charge : Nat) : (ShardWords.insert s key hash value charge).1.nextPtr = s.nextPtr + 1 := by
  obtain ⟨r, hr⟩ : ∃ r, { ShardWords.makeRoom s (chargeWord (s.alloc key hash value charge)) with
      nextPtr := s.nextPtr + 1 } = r := ⟨_, rfl⟩
  have hnext : r.nextPtr = s.nextPtr + 1 := by rw [← hr]
  cases hf : r.find key hash with
  | some p =>
    rw [shard_insert_present hr hf]
    exact (modify_nextPtr r p ref).trans hnext
  | none =>
    rw [shard_insert_absent hr hf]
    exact hnext

theorem lookup_nextPtr (policy : Policy) (s : Shard ν) (key : List UInt8) (hash : UInt32) :
    (ShardWords.lookup policy s key hash).1.nextPtr = s.nextPtr := by
  rw [ShardWords.lookup]
  cases s.find key hash with
  | none => rfl
  | some p =>
    refine (modify_nextPtr _ p ref).trans ?_
    split
    · rfl
    · rfl

theorem erase_nextPtr (s : Shard ν) (key : List UInt8) (hash : UInt32) :
    (ShardWords.erase s key hash).1.nextPtr = s.nextPtr := by
  simp only [ShardWords.erase]
  split
  · split
    · dsimp only
      split
      · exact modify_nextPtr _ _ _
      · exact (discard_nextPtr _ _).trans (modify_nextPtr _ _ _)
    · exact modify_nextPtr _ _ _
  · rfl

theorem release_nextPtr {b : Handle ν} (ha : (s.modify a.ptr unref).handle a.ptr = some b) :
    (ShardWords.release s a.ptr).nextPtr = s.nextPtr := by
  rw [shard_release ha, ← modify_nextPtr s a.ptr unref]
  generalize s.modify a.ptr unref = r
  split
  · exact discard_nextPtr r b
  · rfl

/-- The same calls have been made of a shard and of its memory. -/
structure Sim (c : Client ν) (d : Session ν) : Prop where
  held : d.held = c.held
  refines : ∃ k ≤ c.shard.nextPtr, Refines d.memory c.shard [] k

variable {policy : Policy} {hashOf : List UInt8 → UInt32} {c c' : Client ν} {d : Session ν}
  {op : Op ν}

theorem step_sim (hk : Kept hashOf c) (hsim : Sim c d)
    (hstep : ShardRuns.step policy hashOf c op = some c') (hn : c'.shard.nextPtr ≤ 2 ^ 30)
    (hf : c'.shard.nextPtr < fuel) :
    ∃ d', ShardPointers.step fuel policy hashOf d op = some d' ∧ Sim c' d' := by
  obtain ⟨hheld, k, hkn, hr⟩ := hsim
  have hlist := list_length_le hk.inv.toCore
  have htable := table_length_le hk.inv.toCore
  cases op with
  | insert key value charge =>
    cases hstep
    have hnext := insert_nextPtr c.shard key (hashOf key) value charge.toNat
    simp only [hnext] at hn hf
    obtain ⟨m', j, hm', hj, h'⟩ := insert_refines key (hashOf key) value charge.toNat hr hk.inv
      (Nat.lt_of_succ_lt hf) (Nat.lt_of_le_of_lt hkn hn)
    refine ⟨⟨m', _ :: d.held⟩, ?_, ⟨congrArg (_ :: ·) hheld, j, ?_, h'⟩⟩
    · rw [ShardPointers.step, hm']
      rfl
    · simp only [hnext]
      omega
  | lookup key =>
    cases hstep
    have hnext := lookup_nextPtr policy c.shard key (hashOf key)
    simp only [hnext] at hn hf
    obtain ⟨m', hm', h'⟩ := lookup_refines policy key (hashOf key) hr hk.inv
      (htable.trans (hlist.trans hf.le))
    refine ⟨⟨m', _ ++ d.held⟩, ?_, ⟨congrArg (_ ++ ·) hheld, k, hnext ▸ hkn, h'⟩⟩
    rw [ShardPointers.step, hm']
    rfl
  | erase key =>
    cases hstep
    have hnext := erase_nextPtr c.shard key (hashOf key)
    simp only [hnext] at hn hf
    obtain ⟨m', hm', h'⟩ := erase_refines key (hashOf key) hr hk.inv
      (htable.trans (hlist.trans hf.le))
    refine ⟨⟨m', d.held⟩, ?_, ⟨hheld, k, hnext ▸ hkn, h'⟩⟩
    rw [ShardPointers.step, hm']
    rfl
  | setCapacity capacity =>
    cases hstep
    exact ⟨_, rfl, hheld, k, hkn, { hr with capacity := rfl }⟩
  | release p =>
    obtain ⟨hp, hstep⟩ := Option.ite_none_right_eq_some.mp hstep
    cases hstep
    have hpin := hk.inv.pinned p (List.count_pos_iff.mpr hp)
    obtain ⟨a, ha, rfl⟩ := List.mem_map.mp hpin
    obtain ⟨m', hm', h'⟩ := release_refines hr ha
    refine ⟨⟨m', d.held.erase a.ptr⟩, ?_, ⟨congrArg (List.erase · a.ptr) hheld, k, ?_, h'⟩⟩
    · rw [ShardPointers.step, if_pos (hheld ▸ hp), hm']
      rfl
    · rw [release_nextPtr (modify_handle hr.ptr_nodup ha unref_ptr)]
      exact hkn

theorem step_nextPtr (hk : Kept hashOf c) (hstep : ShardRuns.step policy hashOf c op = some c') :
    c.shard.nextPtr ≤ c'.shard.nextPtr := by
  cases op with
  | insert key value charge =>
    cases hstep
    simp only [insert_nextPtr, Nat.le_succ]
  | lookup key =>
    cases hstep
    exact (lookup_nextPtr policy c.shard key (hashOf key)).ge
  | erase key =>
    cases hstep
    exact (erase_nextPtr c.shard key (hashOf key)).ge
  | setCapacity capacity =>
    cases hstep
    exact Nat.le_refl _
  | release p =>
    obtain ⟨hp, hstep⟩ := Option.ite_none_right_eq_some.mp hstep
    cases hstep
    obtain ⟨a, ha, rfl⟩ := List.mem_map.mp (hk.inv.pinned p (List.count_pos_iff.mpr hp))
    exact (release_nextPtr (modify_handle hk.inv.ptr_nodup ha unref_ptr)).ge

theorem run_nextPtr {ops : List (Op ν)} (hk : Kept hashOf c)
    (hfit : AlongM (ShardRuns.step policy hashOf) Fits c ops)
    (hrun : ops.foldlM (ShardRuns.step policy hashOf) c = some c') :
    c.shard.nextPtr ≤ c'.shard.nextPtr := by
  induction ops generalizing c with
  | nil =>
    cases hrun
    exact Nat.le_refl _
  | cons op ops ih =>
    rw [List.foldlM_cons] at hrun
    obtain ⟨c₁, hstep, hrun⟩ := Option.bind_eq_some_iff.mp hrun
    have hk₁ := ShardRuns.step_kept hk hfit.1 hstep
    exact (step_nextPtr hk hstep).trans (ih hk₁ (hfit.2 c₁ hstep) hrun)

theorem run_sim {ops : List (Op ν)} (hk : Kept hashOf c) (hsim : Sim c d)
    (hfit : AlongM (ShardRuns.step policy hashOf) Fits c ops)
    (hrun : ops.foldlM (ShardRuns.step policy hashOf) c = some c')
    (hn : c'.shard.nextPtr ≤ 2 ^ 30) (hf : c'.shard.nextPtr < fuel) :
    ∃ d', ops.foldlM (ShardPointers.step fuel policy hashOf) d = some d' ∧ Sim c' d' := by
  induction ops generalizing c d with
  | nil =>
    cases hrun
    exact ⟨d, rfl, hsim⟩
  | cons op ops ih =>
    rw [List.foldlM_cons] at hrun
    obtain ⟨c₁, hstep, hrun⟩ := Option.bind_eq_some_iff.mp hrun
    have hk₁ := ShardRuns.step_kept hk hfit.1 hstep
    have hle := run_nextPtr hk₁ (hfit.2 c₁ hstep) hrun
    obtain ⟨d₁, hd₁, hsim₁⟩ := step_sim hk hsim hstep (hle.trans hn) (hle.trans_lt hf)
    obtain ⟨d', hd', hsim'⟩ := ih hk₁ hsim₁ (hfit.2 c₁ hstep) hrun
    refine ⟨d', ?_, hsim'⟩
    rw [List.foldlM_cons, hd₁]
    exact hd'

theorem start_sim (fuel : Nat) (capacity : UInt64) :
    ∃ d : Session ν, ShardPointers.start fuel capacity = some d ∧
      Sim (ShardRuns.start capacity) d := by
  obtain ⟨t, ht, hrep, hsized⟩ := new_sized fuel
  refine ⟨⟨⟨capacity.toNat, 0, Circle.single none, t, fun _ => none, 0, []⟩, []⟩, ?_, rfl, 0,
    Nat.le_refl 0, ?_⟩
  · rw [ShardPointers.start, Memory.new, ht]
    rfl
  · exact ⟨rfl, rfl, around_single none, ⟨by simp [ShardRuns.start, Shard.new], fun _ _ => rfl⟩,
      List.nodup_nil, hrep, hsized, rfl, rfl⟩

theorem run_from_start (policy : Policy) (hashOf : List UInt8 → UInt32) (capacity : UInt64)
    (ops : List (Op ν)) (hfit : AlongM (ShardRuns.step policy hashOf) Fits
      (ShardRuns.start capacity) ops)
    (hrun : ops.foldlM (ShardRuns.step policy hashOf) (ShardRuns.start capacity) = some c)
    (hn : c.shard.nextPtr ≤ 2 ^ 30) (hf : c.shard.nextPtr < fuel) :
    ∃ d, ShardPointers.run fuel policy hashOf capacity ops = some d ∧ Sim c d := by
  obtain ⟨d₀, hd₀, hsim₀⟩ : ∃ d₀ : Session ν, ShardPointers.start fuel capacity = some d₀ ∧
      Sim (ShardRuns.start capacity) d₀ := start_sim fuel capacity
  obtain ⟨d, hd, hsim⟩ := run_sim (ShardRuns.start_kept capacity) hsim₀ hfit hrun hn hf
  refine ⟨d, ?_, hsim⟩
  rw [ShardPointers.run, hd₀]
  exact hd

/-- The pointers do what the lists say, whatever the calls and their order. No
null pointer and no freed handle is read or written, every walk ends, and each
handle is freed when the lists say so. -/
theorem memory_refines (policy : Policy) (hashOf : List UInt8 → UInt32) (capacity : UInt64)
    (ops : List (Op ν)) (fuel : Nat)
    (hfit : AlongM (ShardRuns.step policy hashOf) Fits (ShardRuns.start capacity) ops)
    (hrun : ops.foldlM (ShardRuns.step policy hashOf) (ShardRuns.start capacity) = some c)
    (hn : c.shard.nextPtr ≤ 2 ^ 30) (hf : c.shard.nextPtr < fuel) :
    ∃ d k, ShardPointers.run fuel policy hashOf capacity ops = some d ∧ d.held = c.held ∧
      Refines d.memory c.shard [] k := by
  obtain ⟨d, hd, hsim⟩ := run_from_start policy hashOf capacity ops hfit hrun hn hf
  obtain ⟨k, -, hr⟩ := hsim.refines
  exact ⟨d, k, hd, hsim.held, hr⟩

/-- An erased entry that is still held, a new entry for its key, a refused
duplicate and an eviction. -/
def crowded : List (Op Nat) :=
  [.insert [1] 10 50, .insert [2] 20 50, .release 1, .lookup [1], .erase [1], .insert [1] 11 50,
    .insert [1] 12 50, .release 0]

theorem memory_refines_crowded : ∃ (c : Client Nat) (d : Session Nat) (k : Nat),
    crowded.foldlM (ShardRuns.step .lru Hash.hashSlice) (ShardRuns.start 300) = some c ∧
      c.held = [2, 2, 0] ∧ c.shard.freed = [1, 3] ∧
      ShardPointers.run 8 .lru Hash.hashSlice 300 crowded = some d ∧ d.held = c.held ∧
      Refines d.memory c.shard [] k := by
  have hrun : ∃ c ∈ crowded.foldlM (ShardRuns.step .lru Hash.hashSlice) (ShardRuns.start 300),
      c.held = [2, 2, 0] ∧ c.shard.freed = [1, 3] ∧ c.shard.nextPtr = 4 := by
    decide +kernel
  obtain ⟨c, hc, hheld, hfreed, hnext⟩ := hrun
  obtain ⟨d, k, hd, hh, hr⟩ := memory_refines .lru Hash.hashSlice 300 crowded 8
    (by decide +kernel) hc (by rw [hnext]; decide) (by rw [hnext]; decide)
  exact ⟨c, d, k, hc, hheld, hfreed, hd, hh, hr⟩

end WiscKey.PointerRuns
