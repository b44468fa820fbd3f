import WiscKey.LfuRuns

namespace WiscKey.LfuEviction

open WiscKey.Evict WiscKey.CacheShard WiscKey.FrequencyList WiscKey.LfuCache WiscKey.LfuRing
open WiscKey.LfuOps WiscKey.LfuRuns WiscKey.ShardOps WiscKey.ShardInvariant
open WiscKey.ShardHandles WiscKey.Runs WiscKey.Hash
open WiscKey.ShardWords (sizes counts subSize)
open WiscKey.ShardRuns (Op)

variable {ν : Type}

def idle (x : Client ν) (a : LfuHandle ν) : Bool := decide (a.ptr ∉ x.held)

/-- The entries of a node that an insertion of `h` can evict. There are none if the
test of `Insert` fails, and otherwise those that stand before the first one that is
held. -/
def evictable (x : Client ν) (h : Handle ν) (n : Node (LfuHandle ν)) : List (LfuHandle ν) :=
  if (chargeWord h + h.charge) % sizes > x.shard.capacity then n.entries.takeWhile (idle x) else []

/-- The idle entries of a node that it cannot evict, apart from that of its own
key. -/
def stuck (x : Client ν) (h : Handle ν) (n : Node (LfuHandle ν)) : List (LfuHandle ν) :=
  (n.entries.drop (evictable x h n).length).filter fun a =>
    idle x a && decide (x.shard.find h.key h.hash ≠ some a.ptr)

def added (x : Client ν) (h : Handle ν) : Nat :=
  match x.shard.find h.key h.hash with
  | some p =>
    if p ∈ ptrs (x.shard.ring.tail.flatMap (evictable x h)) then totalCharge h else 0
  | none => totalCharge h

def Room (x : Client ν) (h : Handle ν) (l : List (LfuHandle ν)) : Prop :=
  x.shard.usage - charges l + totalCharge h ≤ x.shard.capacity

/-- Without the evictable entries the new one fits, or nothing is stuck. And where a
node has stuck entries, there is room without the evictable ones up to it, or there
are none behind it. -/
structure Clears (x : Client ν) (h : Handle ν) : Prop where
  room : x.shard.usage - charges (x.shard.ring.tail.flatMap (evictable x h)) + added x h ≤
      x.shard.capacity ∨
    ∀ n ∈ x.shard.ring.tail, stuck x h n = []
  order : ∀ pre n post, x.shard.ring.tail = pre ++ n :: post → stuck x h n = [] ∨
    Room x h ((pre ++ [n]).flatMap (evictable x h)) ∨ ∀ m ∈ post, evictable x h m = []

/-- What is promised of a shard `r` in which the entry `p` was inserted. -/
structure Frees (x : Client ν) (r : LfuShard ν) (p : Nat) : Prop where
  room : r.usage ≤ r.capacity ∨ ∀ a ∈ r.listed, a.ptr ≠ p → a.ptr ∈ x.held
  order : ∀ n ∈ r.ring, ∀ a ∈ n.entries, a.ptr ∉ p :: x.held →
    ∀ m ∈ x.shard.ring, ∀ b ∈ m.entries, b.ptr ∉ ptrs r.listed → m.frequency ≤ n.frequency

variable {hash : List UInt8 → UInt32} {x : Client ν} {s r : LfuShard ν} {h : Handle ν}

theorem walk_words {capacity charge usage : Nat} (l : List (Node (LfuHandle ν)))
    (hl : charges (entries l) ≤ usage) (hu : usage + charge < sizes) :
    walk (fun usage => decide ((usage + charge) % sizes > capacity)) (fun a => a.hasRefs)
        (fun usage a => subSize usage (chargeWord a.toHandle)) usage l =
      roomWalk (fun a => totalCharge a.toHandle) (fun a => a.hasRefs) capacity charge usage l := by
  let I : Nat → List (LfuHandle ν) → Prop := fun usage l =>
    charges l ≤ usage ∧ usage + charge < sizes
  have hcons : ∀ usage (a : LfuHandle ν) l, I usage (a :: l) →
      totalCharge a.toHandle + charges l ≤ usage ∧ usage + charge < sizes := fun _ _ _ h => h
  have hneeds : ∀ usage l, I usage l →
      decide ((usage + charge) % sizes > capacity) = lacks capacity charge usage := by
    intro usage l h
    rw [Nat.mod_eq_of_lt h.2, lacks]
  have hspend : ∀ usage (a : LfuHandle ν) l, I usage (a :: l) →
      subSize usage (chargeWord a.toHandle) = usage - totalCharge a.toHandle := by
    intro usage a l h
    obtain ⟨hle, hlt⟩ := hcons usage a l h
    rw [chargeWord, Nat.mod_eq_of_lt (by omega), ShardWords.subSize_eq (by omega) (by omega)]
  refine walk_congr _ hneeds hspend ?_ (show I usage (entries l) from ⟨hl, hu⟩)
  intro usage a l h
  obtain ⟨hle, hlt⟩ := hcons usage a l h
  exact ⟨⟨by omega, hlt⟩, ⟨by omega, by omega⟩⟩

theorem usage_eq (hk : Kept x) (hfit : Fits x h) : x.shard.usage = charges x.shard.listed := by
  rw [Fits] at hfit
  exact hk.charged.usage_eq (by omega)

theorem idle_eq (hk : Kept x) {a : LfuHandle ν} (ha : a ∈ x.shard.listed) :
    idle x a = !a.hasRefs := by
  have hr := hk.inv.refs_eq a.toHandle (List.mem_map_of_mem ha)
  rw [idle, Handle.hasRefs, hr, ← decide_not, decide_eq_decide, List.count_pos_iff]

theorem takeWhile_congr {α : Type} {p q : α → Bool} {l : List α} (h : ∀ a ∈ l, p a = q a) :
    l.takeWhile p = l.takeWhile q := by
  induction l with
  | nil => rfl
  | cons a l ih =>
    obtain ⟨ha, hl⟩ := List.forall_mem_cons.mp h
    rw [List.takeWhile_cons, List.takeWhile_cons, ha, ih hl]

theorem makeRoom_out (hk : Kept x) (hfit : Fits x h) :
    ∃ out, Shortest (Room x h) (x.shard.ring.tail.flatMap (evictable x h)) out ∧
      ((x.shard.makeRoom h).listed ++ out).Perm x.shard.listed ∧
      (x.shard.makeRoom h).usage = x.shard.usage - charges out := by
  have hu := usage_eq hk hfit
  have hlist := listed_tail hk.filed
  rw [Fits, ← hu] at hfit
  have hw : chargeWord h = totalCharge h := Nat.mod_eq_of_lt (by omega)
  rw [LfuShard.makeRoom]
  by_cases hc : (chargeWord h + h.charge) % sizes > x.shard.capacity
  · rw [if_pos hc, hw]
    have hle : charges (entries x.shard.ring.tail) ≤ x.shard.usage := by rw [hu, hlist]
    have hwalk : evictWalk x.shard (totalCharge h) = roomWalk (fun a => totalCharge a.toHandle)
        (fun a => a.hasRefs) x.shard.capacity (totalCharge h) x.shard.usage x.shard.ring.tail :=
      walk_words _ hle hfit
    have hflat : x.shard.ring.tail.flatMap (evictable x h) =
        x.shard.ring.tail.flatMap (exposed fun a => a.hasRefs) := by
      apply List.flatMap_congr
      intro n hn
      rw [evictable, if_pos hc]
      apply takeWhile_congr
      intro a ha
      exact idle_eq hk (mem_entries.mpr ⟨n, List.mem_of_mem_tail hn, ha⟩)
    refine ⟨(evictWalk x.shard (totalCharge h)).out, ?_, ?_, ?_⟩
    · rw [hflat, hwalk]
      exact roomWalk_shortest _ _ _ _ _ _ hle
    · rw [hlist, listed_tail (evictFrom_filed hk.filed _), evictFrom_ring hk.filed]
      exact walk_entries _ _ _ _ _
    · change (evictWalk x.shard (totalCharge h)).usage = _
      rw [hwalk, roomWalk, walk_usage, foldl_sub]
      rfl
  · rw [if_neg hc]
    have hflat : x.shard.ring.tail.flatMap (evictable x h) = [] := by
      rw [List.flatMap_eq_nil_iff]
      intro n _
      rw [evictable, if_neg hc]
    refine ⟨[], ?_, ?_, rfl⟩
    · rw [hflat]
      exact ⟨List.prefix_refl _, Or.inr rfl, fun r _ hlt => absurd hlt (Nat.not_lt_zero _)⟩
    · rw [List.append_nil]

/-- What an insertion does, told by the addresses of the entries. -/
structure Outcome (x : Client ν) (h : Handle ν) (r : LfuShard ν) (p : Nat)
    (out : List (LfuHandle ν)) : Prop where
  shortest : Shortest (Room x h) (x.shard.ring.tail.flatMap (evictable x h)) out
  present : ∀ q, q ∈ ptrs r.listed ↔ q = p ∨ q ∈ ptrs x.shard.listed ∧ q ∉ ptrs out
  capacity : r.capacity = x.shard.capacity
  usage : r.usage = x.shard.usage - charges out +
    if p = x.shard.nextPtr then totalCharge h else 0
  entry : (p = x.shard.nextPtr ∧ ∀ q, x.shard.find h.key h.hash = some q → q ∈ ptrs out) ∨
    (x.shard.find h.key h.hash = some p ∧ p < x.shard.nextPtr ∧ p ∉ ptrs out)
  frequency : ∀ n ∈ r.ring, ∀ a ∈ n.entries, a.ptr ≠ p →
    n.frequency = x.hits.count a.ptr + 1

section Taken

variable {m : LfuShard ν} {ev : List (LfuHandle ν)} (hperm : (m.listed ++ ev).Perm s.listed)

include hperm

theorem mem_taken (hd : (ptrs s.listed).Nodup) {q : Nat} :
    q ∈ ptrs m.listed ↔ q ∈ ptrs s.listed ∧ q ∉ ptrs ev := by
  have hp : (ptrs m.listed ++ ptrs ev).Perm (ptrs s.listed) := by
    rw [ptrs, ptrs, ← List.map_append]
    exact hperm.map _
  have hdis := List.disjoint_of_nodup_append (hp.nodup_iff.mpr hd)
  rw [← hp.mem_iff, List.mem_append]
  constructor
  · intro hq
    exact ⟨Or.inl hq, fun he => hdis hq he⟩
  · rintro ⟨hq | hq, he⟩
    · exact hq
    · exact absurd hq he

theorem find_taken {out : Nat → Nat} (hs : Inv (plain s) out) (hm : Inv (plain m) out)
    {key : List UInt8} {hash : UInt32} {q : Nat} :
    m.find key hash = some q ↔ s.find key hash = some q ∧ q ∉ ptrs ev := by
  have hd : (ptrs s.listed).Nodup := plain_ptrs s ▸ hs.ptr_nodup
  change (plain m).find key hash = some q ↔ (plain s).find key hash = some q ∧ _
  rw [hs.toCore.find_iff, hm.toCore.find_iff]
  constructor
  · rintro ⟨a, ha, hin, hkey, hhash, rfl⟩
    obtain ⟨b, hb, rfl⟩ := List.mem_map.mp ha
    refine ⟨⟨b.toHandle, ?_, hin, hkey, hhash, rfl⟩, ?_⟩
    · exact List.mem_map_of_mem (hperm.mem_iff.mp (List.mem_append_left ev hb))
    · exact ((mem_taken hperm hd).mp (List.mem_map_of_mem hb)).2
  · rintro ⟨⟨a, ha, hin, hkey, hhash, rfl⟩, hout⟩
    obtain ⟨b, hb, rfl⟩ := List.mem_map.mp ha
    obtain hb | hb := List.mem_append.mp (hperm.mem_iff.mpr hb)
    · exact ⟨b.toHandle, List.mem_map_of_mem hb, hin, hkey, hhash, rfl⟩
    · exact absurd (List.mem_map_of_mem hb) hout

end Taken

theorem insert_outcome (hk : Kept x) {key : List UInt8} {value : ν} {charge : UInt64}
    (ha : Allowed hash x (.insert key value charge))
    (hfit : Fits x (x.shard.alloc key (hash key) value charge.toNat).toHandle) :
    ∃ r p out, x.shard.insert key (hash key) value charge.toNat = some (r, p) ∧
      Outcome x (x.shard.alloc key (hash key) value charge.toNat).toHandle r p out := by
  obtain ⟨out, hshort, hperm, husage⟩ := makeRoom_out hk hfit
  obtain ⟨hfm, ev, htakes⟩ :=
    makeRoom_takes hk.filed (x.shard.alloc key (hash key) value charge.toNat).toHandle
  have hd : (ptrs x.shard.listed).Nodup := plain_ptrs x.shard ▸ hk.inv.ptr_nodup
  have hmem := fun q => mem_taken hperm hd (q := q)
  have hfound : ∀ q, (x.shard.makeRoom
      (x.shard.alloc key (hash key) value charge.toNat).toHandle).find key (hash key) = some q ↔
        x.shard.find key (hash key) = some q ∧ q ∉ ptrs out :=
    fun _ => find_taken hperm hk.inv (htakes.inv hk.inv)
  have hacc := ha.2
  cases hfind : accessed hash x (.insert key value charge) with
  | some p =>
    have hlt := hacc p hfind
    have hc := hk.counted p
    obtain ⟨r, hr, hf, hins, hur, hlist⟩ := insert_hit hk.inv hk.filed hk.charged rfl hfind
      (by omega) (show x.held.count p + 1 < counts by omega)
    have hp := (hfound p).mp hfind
    have hplt := find_lt hk.inv.toCore hp.1
    have hps : p ∈ ptrs x.shard.listed := by
      obtain ⟨a, ha, -, -, -, he⟩ := hk.inv.toCore.find_iff.mp hp.1
      rw [← plain_ptrs, ← he]
      exact List.mem_map_of_mem ha
    have hptrs := hlist.map Handle.ptr
    rw [modify_map _ p Handle.ref Handle.ptr fun _ => rfl, plain_ptrs, plain_ptrs] at hptrs
    refine ⟨r, p, out, hr, hshort, ?_, hins.capacity, ?_, Or.inr ⟨hp.1, hplt, hp.2⟩, ?_⟩
    · intro q
      rw [hptrs.mem_iff, hmem]
      refine (or_iff_right_of_imp ?_).symm
      rintro rfl
      exact ⟨hps, hp.2⟩
    · rw [hur, husage, if_neg hplt.ne, Nat.add_zero]
    · intro n hn a ha hne
      rw [(hf.filed n hn a ha).2, List.count_cons_of_ne hne.symm]
  | none =>
    obtain ⟨r, hr, hf, hins, hur, hlist⟩ := insert_new hk.inv hk.filed hk.charged rfl hfind
      (hk.fresh _ le_rfl)
    have hptrs : (ptrs r.listed).Perm (x.shard.nextPtr :: ptrs (x.shard.makeRoom
        (x.shard.alloc key (hash key) value charge.toNat).toHandle).listed) := by
      rw [← plain_ptrs, ← plain_ptrs]
      exact (hlist.trans (List.perm_append_singleton _ _)).map Handle.ptr
    refine ⟨r, _, out, hr, hshort, ?_, hins.capacity, ?_, Or.inl ⟨rfl, ?_⟩, ?_⟩
    · intro q
      rw [hptrs.mem_iff, List.mem_cons, hmem]
    · have hu := usage_eq hk hfit
      rw [Fits, ← hu] at hfit
      rw [hur, husage, if_pos rfl, chargeWord, Nat.add_mod_mod, Nat.mod_eq_of_lt (by omega)]
    · intro q hq
      by_contra hn
      have := (hfound q).mpr ⟨hq, hn⟩
      rw [show LfuShard.find _ key (hash key) = none from hfind] at this
      cases this
    · intro n hn a ha _
      exact (hf.filed n hn a ha).2

section Iff

variable {p : Nat} {out : List (LfuHandle ν)}

theorem room_mono {l l' : List (LfuHandle ν)} (hl : l <+: l') (hr : Room x h l) :
    Room x h l' := by
  have hle : charges l ≤ charges l' := total_sublist _ hl.sublist
  rw [Room] at hr ⊢
  omega

theorem listed_inj (hk : Kept x) {a b : LfuHandle ν} (ha : a ∈ x.shard.listed)
    (hb : b ∈ x.shard.listed) (he : a.ptr = b.ptr) : a = b := by
  have hd : (ptrs x.shard.listed).Nodup := plain_ptrs x.shard ▸ hk.inv.ptr_nodup
  exact List.inj_on_of_nodup_map hd ha hb he

theorem nextPtr_unlisted (hk : Kept x) : x.shard.nextPtr ∉ ptrs x.shard.listed :=
  plain_ptrs x.shard ▸ nextPtr_fresh hk.inv.toCore

theorem mem_listed (hk : Kept x) {a : LfuHandle ν} :
    a ∈ x.shard.listed ↔ ∃ n ∈ x.shard.ring.tail, a ∈ n.entries := by
  rw [listed_tail hk.filed]
  exact mem_entries

theorem evictable_initial (x : Client ν) (h : Handle ν) (n : Node (LfuHandle ν)) :
    evictable x h n <+: n.entries := by
  rw [evictable]
  split
  · exact List.takeWhile_prefix _
  · exact List.nil_prefix

theorem mem_stuck (hk : Kept x) {n : Node (LfuHandle ν)} (hn : n ∈ x.shard.ring.tail)
    {a : LfuHandle ν} : a ∈ stuck x h n ↔ a ∈ n.entries ∧ a ∉ evictable x h n ∧
      a.ptr ∉ x.held ∧ x.shard.find h.key h.hash ≠ some a.ptr := by
  have hd : n.entries.Nodup := by
    have hl : (ptrs x.shard.listed).Nodup := plain_ptrs x.shard ▸ hk.inv.ptr_nodup
    rw [listed_tail hk.filed] at hl
    exact (List.nodup_flatMap.mp (List.Nodup.of_map _ hl)).1 n hn
  obtain ⟨rest, he⟩ := evictable_initial x h n
  rw [stuck, List.mem_filter, ← he, List.drop_left, Bool.and_eq_true, idle, decide_eq_true_eq,
    decide_eq_true_eq, List.mem_append]
  rw [← he] at hd
  have hdis := List.disjoint_of_nodup_append hd
  constructor
  · rintro ⟨ha, hrest⟩
    exact ⟨Or.inr ha, fun hb => hdis hb ha, hrest⟩
  · rintro ⟨ha | ha, hb, hrest⟩
    · exact absurd ha hb
    · exact ⟨ha, hrest⟩

theorem Outcome.entry_iff (ho : Outcome x h r p out) (hk : Kept x) {a : LfuHandle ν}
    (ha : a ∈ x.shard.listed) (hout : a.ptr ∉ ptrs out) :
    a.ptr = p ↔ x.shard.find h.key h.hash = some a.ptr := by
  obtain ⟨hp, hfind⟩ | ⟨hfind, -, -⟩ := ho.entry
  · refine iff_of_false ?_ fun hf => hout (hfind _ hf)
    intro he
    have hfresh := nextPtr_unlisted hk
    rw [← hp, ← he] at hfresh
    exact hfresh (List.mem_map_of_mem ha)
  · rw [hfind, Option.some_inj, eq_comm]

theorem Outcome.left_iff (ho : Outcome x h r p out) (hk : Kept x) (P : Nat → Prop) :
    (∃ a ∈ r.listed, a.ptr ≠ p ∧ a.ptr ∉ x.held ∧ P a.ptr) ↔
      ∃ a ∈ x.shard.listed, a.ptr ∉ ptrs out ∧ a.ptr ∉ x.held ∧
        x.shard.find h.key h.hash ≠ some a.ptr ∧ P a.ptr := by
  constructor
  · rintro ⟨a, ha, hne, hidle, hP⟩
    obtain he | ⟨hs, hout⟩ := (ho.present a.ptr).mp (List.mem_map_of_mem ha)
    · exact absurd he hne
    · obtain ⟨b, hb, he⟩ := List.mem_map.mp hs
      rw [← he] at hne hidle hP hout
      exact ⟨b, hb, hout, hidle, fun hf => hne ((ho.entry_iff hk hb hout).mpr hf), hP⟩
  · rintro ⟨b, hb, hout, hidle, hf, hP⟩
    have hr := (ho.present b.ptr).mpr (Or.inr ⟨List.mem_map_of_mem hb, hout⟩)
    obtain ⟨a, ha, he⟩ := List.mem_map.mp hr
    refine ⟨a, ha, ?_⟩
    rw [he]
    exact ⟨fun hp => hf ((ho.entry_iff hk hb hout).mp hp), hidle, hP⟩

theorem mem_evictables (hk : Kept x) {l : List (Node (LfuHandle ν))}
    (hl : l ⊆ x.shard.ring.tail) {n : Node (LfuHandle ν)} (hn : n ∈ x.shard.ring.tail)
    {a : LfuHandle ν} (ha : a ∈ n.entries) (he : a ∈ l.flatMap (evictable x h)) :
    n ∈ l ∧ a ∈ evictable x h n := by
  obtain ⟨m, hm, ham⟩ := List.mem_flatMap.mp he
  have hmn : m = n := hk.filed.node_unique (List.mem_of_mem_tail (hl hm))
    (List.mem_of_mem_tail hn) ((evictable_initial x h m).subset ham) ha
  rw [← hmn]
  exact ⟨hm, ham⟩

theorem Outcome.out_listed (ho : Outcome x h r p out) (hk : Kept x) {a : LfuHandle ν}
    (ha : a ∈ out) : a ∈ x.shard.listed := by
  obtain ⟨n, hn, han⟩ := List.mem_flatMap.mp (ho.shortest.initial.subset ha)
  exact (mem_listed hk).mpr ⟨n, hn, (evictable_initial x h n).subset han⟩

theorem Outcome.mem_out (ho : Outcome x h r p out) (hk : Kept x) {a : LfuHandle ν}
    (ha : a ∈ x.shard.listed) : a.ptr ∈ ptrs out ↔ a ∈ out := by
  constructor
  · intro hp
    obtain ⟨b, hb, he⟩ := List.mem_map.mp hp
    rwa [← listed_inj hk (ho.out_listed hk hb) ha he]
  · exact fun ho => List.mem_map_of_mem ho

theorem Outcome.gone (ho : Outcome x h r p out) (hk : Kept x) {b : LfuHandle ν} :
    b ∈ out ↔ b ∈ x.shard.listed ∧ b.ptr ∉ ptrs r.listed := by
  constructor
  · intro hb
    have hl := ho.out_listed hk hb
    refine ⟨hl, fun hp => ?_⟩
    obtain he | ⟨-, hn⟩ := (ho.present _).mp hp
    · obtain ⟨hnew, -⟩ | ⟨-, -, hout⟩ := ho.entry
      · have hfresh := nextPtr_unlisted hk
        rw [← hnew, ← he] at hfresh
        exact hfresh (List.mem_map_of_mem hl)
      · rw [← he] at hout
        exact hout (List.mem_map_of_mem hb)
    · exact hn (List.mem_map_of_mem hb)
  · rintro ⟨hl, hn⟩
    by_contra hb
    rw [← ho.mem_out hk hl] at hb
    exact hn ((ho.present _).mpr (Or.inr ⟨List.mem_map_of_mem hl, hb⟩))

theorem added_eq (ho : Outcome x h r p out)
    (he : out = x.shard.ring.tail.flatMap (evictable x h)) :
    added x h = if p = x.shard.nextPtr then totalCharge h else 0 := by
  rw [added, ← he]
  obtain ⟨hp, hfind⟩ | ⟨hfind, hlt, hout⟩ := ho.entry
  · rw [if_pos hp]
    cases hf : x.shard.find h.key h.hash with
    | none => rfl
    | some q => exact if_pos (hfind q hf)
  · rw [if_neg hlt.ne, hfind]
    exact if_neg hout

theorem Outcome.room_iff (ho : Outcome x h r p out) (hk : Kept x) :
    (r.usage ≤ r.capacity ∨ ∀ a ∈ r.listed, a.ptr ≠ p → a.ptr ∈ x.held) ↔
      (x.shard.usage - charges (x.shard.ring.tail.flatMap (evictable x h)) + added x h ≤
          x.shard.capacity ∨
        ∀ n ∈ x.shard.ring.tail, stuck x h n = []) := by
  by_cases hroom : Room x h (x.shard.ring.tail.flatMap (evictable x h))
  · have hout := ho.shortest.enough_of hroom
    have hle : added x h ≤ totalCharge h := by
      rw [added]
      split
      · split
        · exact le_rfl
        · exact Nat.zero_le _
      · exact le_rfl
    rw [Room] at hroom hout
    refine iff_of_true (Or.inl ?_) (Or.inl (by omega))
    rw [ho.usage, ho.capacity]
    split
    · exact hout
    · omega
  · have he := ho.shortest.eq_of_not (fun _ _ => room_mono) hroom
    rw [ho.usage, ho.capacity, added_eq ho he, ← he]
    refine or_congr_right ?_
    have hleft := ho.left_iff hk fun _ => True
    constructor
    · intro hheld n hn
      rw [List.eq_nil_iff_forall_not_mem]
      intro a ha
      obtain ⟨hae, hev, hidle, hf⟩ := (mem_stuck hk hn).mp ha
      have hl := (mem_listed hk).mpr ⟨n, hn, hae⟩
      have hout : a.ptr ∉ ptrs out := by
        rw [ho.mem_out hk hl, he]
        exact fun hb => hev (mem_evictables hk (List.Subset.refl _) hn hae hb).2
      obtain ⟨b, hb, hne, hidle, -⟩ := hleft.mpr ⟨a, hl, hout, hidle, hf, trivial⟩
      exact hidle (hheld b hb hne)
    · intro hstuck b hb hne
      by_contra hidle
      obtain ⟨a, hl, hout, hidle, hf, -⟩ := hleft.mp ⟨b, hb, hne, hidle, trivial⟩
      obtain ⟨n, hn, hae⟩ := (mem_listed hk).mp hl
      have ha : a ∈ stuck x h n := by
        refine (mem_stuck hk hn).mpr ⟨hae, fun hev => ?_, hidle, hf⟩
        rw [ho.mem_out hk hl, he] at hout
        exact hout (List.mem_flatMap.mpr ⟨n, hn, hev⟩)
      rw [hstuck n hn] at ha
      cases ha

theorem Outcome.order_of_clears (ho : Outcome x h r p out) (hk : Kept x)
    (hc : ∀ pre n post, x.shard.ring.tail = pre ++ n :: post → stuck x h n = [] ∨
      Room x h ((pre ++ [n]).flatMap (evictable x h)) ∨ ∀ m ∈ post, evictable x h m = []) :
    ∀ n ∈ r.ring, ∀ a ∈ n.entries, a.ptr ∉ p :: x.held →
      ∀ m ∈ x.shard.ring, ∀ b ∈ m.entries, b.ptr ∉ ptrs r.listed →
        m.frequency ≤ n.frequency := by
  intro n' hn' a' ha' hidle' m hm b hb hgone
  by_contra hlt
  obtain ⟨hne, hidle'⟩ := not_or.mp (fun hor => hidle' (List.mem_cons.mpr hor))
  obtain ⟨a, hl, hout, hidle, hf, hfr⟩ := (ho.left_iff hk fun q =>
    n'.frequency = x.hits.count q + 1).mp
      ⟨a', mem_entries.mpr ⟨n', hn', ha'⟩, hne, hidle', ho.frequency n' hn' a' ha' hne⟩
  obtain ⟨n, hn, hae⟩ := (mem_listed hk).mp hl
  have hnf : n.frequency = n'.frequency :=
    (hk.filed.filed n (List.mem_of_mem_tail hn) a hae).2.trans hfr.symm
  have hbl : b ∈ x.shard.listed := mem_entries.mpr ⟨m, hm, hb⟩
  have hbo : b ∈ out := (ho.gone hk).mpr ⟨hbl, hgone⟩
  have hmt : m ∈ x.shard.ring.tail := by
    obtain ⟨k, hkt, hbk⟩ := (mem_listed hk).mp hbl
    rwa [hk.filed.node_unique hm (List.mem_of_mem_tail hkt) hb hbk]
  obtain ⟨pre, post, hsplit⟩ := List.append_of_mem hn
  have hpost : m ∈ post := (hk.filed.mem_post hsplit hmt).mpr (by omega)
  have hsplit' : x.shard.ring.tail = (pre ++ [n]) ++ post := by
    rw [hsplit, List.append_assoc]
    rfl
  have hshort := ho.shortest
  rw [hsplit', List.flatMap_append] at hshort
  have hbpre : b ∉ (pre ++ [n]).flatMap (evictable x h) := by
    intro hbe
    have hsub : pre ++ [n] ⊆ x.shard.ring.tail := hsplit' ▸ List.subset_append_left _ _
    have := hk.filed.le_of_mem_pre hsplit (mem_evictables hk hsub hmt hb hbe).1
    omega
  obtain hst | hroom | hev := hc pre n post hsplit
  · have hae : a ∈ evictable x h n := by
      by_contra hev
      have ha := (mem_stuck hk hn).mpr ⟨hae, hev, hidle, hf⟩
      rw [hst] at ha
      cases ha
    have hapre : a ∈ (pre ++ [n]).flatMap (evictable x h) :=
      List.mem_flatMap.mpr ⟨n, List.mem_append_right _ List.mem_cons_self, hae⟩
    rw [ho.mem_out hk hl] at hout
    obtain hin | hin :=
      List.prefix_or_prefix_of_prefix hshort.initial (List.prefix_append _ _)
    · exact hbpre (hin.subset hbo)
    · exact hout (hin.subset hapre)
  · exact hbpre ((hshort.within hroom).subset hbo)
  · have hbe := (mem_evictables hk (List.Subset.refl _) hmt hb
      (ho.shortest.initial.subset hbo)).2
    rw [hev m hpost] at hbe
    cases hbe

theorem Outcome.order_iff (ho : Outcome x h r p out) (hk : Kept x) :
    (∀ n ∈ r.ring, ∀ a ∈ n.entries, a.ptr ∉ p :: x.held →
      ∀ m ∈ x.shard.ring, ∀ b ∈ m.entries, b.ptr ∉ ptrs r.listed → m.frequency ≤ n.frequency) ↔
      ∀ pre n post, x.shard.ring.tail = pre ++ n :: post → stuck x h n = [] ∨
        Room x h ((pre ++ [n]).flatMap (evictable x h)) ∨ ∀ m ∈ post, evictable x h m = [] := by
  refine ⟨fun hf pre n post hsplit => ?_, ho.order_of_clears hk⟩
  by_contra hno
  simp only [not_or, not_forall] at hno
  obtain ⟨hst, hroom, m, hm, hev⟩ := hno
  have hsplit' : x.shard.ring.tail = (pre ++ [n]) ++ post := by
    rw [hsplit, List.append_assoc]
    rfl
  have hn : n ∈ x.shard.ring.tail := by
    rw [hsplit]
    exact List.mem_append_right _ List.mem_cons_self
  have hpost : post ⊆ x.shard.ring.tail := hsplit' ▸ List.subset_append_right _ _
  have hshort := ho.shortest
  rw [hsplit', List.flatMap_append] at hshort
  have hne : post.flatMap (evictable x h) ≠ [] := fun he =>
    hev (List.flatMap_eq_nil_iff.mp he m hm)
  obtain ⟨b, hb, hbo⟩ := hshort.beyond (fun _ _ => room_mono) hroom hne
  obtain ⟨k, hkp, hbk⟩ := List.mem_flatMap.mp hb
  obtain ⟨a, ha⟩ := List.exists_mem_of_ne_nil _ hst
  obtain ⟨hae, haev, hidle, hfind⟩ := (mem_stuck hk hn).mp ha
  have hl := (mem_listed hk).mpr ⟨n, hn, hae⟩
  have hout : a.ptr ∉ ptrs out := by
    rw [ho.mem_out hk hl]
    exact fun hao => haev (mem_evictables hk (List.Subset.refl _) hn hae
      (ho.shortest.initial.subset hao)).2
  have hfr := (hk.filed.filed n (List.mem_of_mem_tail hn) a hae).2
  obtain ⟨a', ha', hnp, hidle', hfr'⟩ := (ho.left_iff hk fun q =>
    n.frequency = x.hits.count q + 1).mpr ⟨a, hl, hout, hidle, hfind, hfr⟩
  obtain ⟨n', hn', hae'⟩ := mem_entries.mp ha'
  have hle := hf n' hn' a' hae' (fun hmem => (List.mem_cons.mp hmem).elim hnp hidle') k
    (List.mem_of_mem_tail (hpost hkp)) b ((evictable_initial x h k).subset hbk)
    ((ho.gone hk).mp hbo).2
  have hlt := (hk.filed.mem_post hsplit (hpost hkp)).mp hkp
  have hn'f := ho.frequency n' hn' a' hae' hnp
  omega

/-- In every state that a run reaches, an insertion frees what is promised just when
the entries it can evict are enough. -/
theorem insert_frees_iff (hash : List UInt8 → UInt32) (capacity : UInt64) (ops : List (Op ν))
    (x : Client ν) (key : List UInt8) (value : ν) (charge : UInt64)
    (hall : AlongM (step hash) (Allowed hash) (start capacity) ops)
    (hrun : ops.foldlM (step hash) (start capacity) = some x)
    (hins : Allowed hash x (.insert key value charge))
    (hfit : Fits x (x.shard.alloc key (hash key) value charge.toNat).toHandle) :
    ∃ r p, x.shard.insert key (hash key) value charge.toNat = some (r, p) ∧
      (Frees x r p ↔ Clears x (x.shard.alloc key (hash key) value charge.toNat).toHandle) := by
  obtain ⟨y, hy, hk⟩ := run_kept hall
  obtain rfl : x = y := Option.some.inj (hrun.symm.trans hy)
  obtain ⟨r, p, out, hr, ho⟩ := insert_outcome hk hins hfit
  refine ⟨r, p, hr, fun hf => ⟨?_, ?_⟩, fun hc => ⟨?_, ?_⟩⟩
  · exact (ho.room_iff hk).mp hf.room
  · exact (ho.order_iff hk).mp hf.order
  · exact (ho.room_iff hk).mpr hc.room
  · exact (ho.order_iff hk).mpr hc.order

end Iff

theorem insert_frees_first : ∃ (x : Client Nat) (r : LfuShard Nat) (p : Nat),
    [.insert [1] 10 200, .insert [2] 20 200, .release 0].foldlM (step hashSlice) (start 1000) =
        some x ∧
      x.shard.insert [3] (hashSlice [3]) 30 500 = some (r, p) ∧ ptrs r.listed = [1, 2] ∧
      r.usage = 860 ∧ Frees x r p := by
  have hrun : ∃ x ∈ [.insert [1] 10 200, .insert [2] 20 200, .release 0].foldlM (step hashSlice)
      (start 1000 : Client Nat), Allowed hashSlice x (.insert [3] 30 500) ∧
      (charges x.shard.listed + totalCharge
        (x.shard.alloc [3] (hashSlice [3]) 30 500).toHandle < sizes) ∧
      (∃ r ∈ x.shard.insert [3] (hashSlice [3]) 30 500, ptrs r.1.listed = [1, 2] ∧
        r.1.usage = 860) ∧
      ∀ n ∈ x.shard.ring.tail, stuck x (x.shard.alloc [3] (hashSlice [3]) 30 500).toHandle n =
        [] := by
    decide +kernel
  obtain ⟨x, hx, hall, hfit, ⟨⟨r, p⟩, hr, hptrs, husage⟩, hstuck⟩ := hrun
  obtain ⟨r', p', hr', hiff⟩ := insert_frees_iff hashSlice 1000 _ x [3] 30 500 (by decide +kernel)
    hx hall hfit
  obtain ⟨rfl, rfl⟩ : r = r' ∧ p = p' := Prod.mk.inj (Option.some_inj.mp (hr.symm.trans hr'))
  refine ⟨x, r, p, hx, hr, hptrs, husage, hiff.mpr ⟨Or.inr hstuck, ?_⟩⟩
  intro pre n post hsplit
  refine Or.inl (hstuck n ?_)
  rw [hsplit]
  exact List.mem_append_right _ List.mem_cons_self

/-- The test of `Insert` does not look at `usage_`, so nothing is evicted. And an entry
of frequency two is evicted while an idle one of frequency one stands behind a held
one. -/
theorem insert_frees_nothing :
    (∃ (x : Client Nat) (r : LfuShard Nat) (p : Nat),
      [.insert [1] 10 300, .release 0, .insert [2] 20 300, .release 1].foldlM (step hashSlice)
          (start 1000) = some x ∧
        x.shard.insert [3] (hashSlice [3]) 30 300 = some (r, p) ∧ r.capacity < r.usage ∧
        ∃ a ∈ r.listed, a.ptr ≠ p ∧ a.ptr ∉ x.held) ∧
    ∃ (x : Client Nat) (r : LfuShard Nat) (p : Nat),
      [.insert [1] 10 200, .insert [2] 20 200, .release 1, .insert [3] 30 200, .release 2,
          .lookup [3], .release 2].foldlM (step hashSlice) (start 1000) = some x ∧
        x.shard.insert [4] (hashSlice [4]) 40 500 = some (r, p) ∧
        ∃ n ∈ r.ring, ∃ a ∈ n.entries, a.ptr ∉ p :: x.held ∧
          ∃ m ∈ x.shard.ring, ∃ b ∈ m.entries, b.ptr ∉ ptrs r.listed ∧
            n.frequency < m.frequency := by
  have hfirst : ∃ x ∈ [.insert [1] 10 300, .release 0, .insert [2] 20 300, .release 1].foldlM
      (step hashSlice) (start 1000 : Client Nat),
      ∃ r ∈ x.shard.insert [3] (hashSlice [3]) 30 300, r.1.capacity < r.1.usage ∧
        ∃ a ∈ r.1.listed, a.ptr ≠ r.2 ∧ a.ptr ∉ x.held := by
    decide +kernel
  have hsecond : ∃ x ∈ [.insert [1] 10 200, .insert [2] 20 200, .release 1, .insert [3] 30 200,
      .release 2, .lookup [3], .release 2].foldlM (step hashSlice) (start 1000 : Client Nat),
      ∃ r ∈ x.shard.insert [4] (hashSlice [4]) 40 500,
        ∃ n ∈ r.1.ring, ∃ a ∈ n.entries, a.ptr ∉ r.2 :: x.held ∧
          ∃ m ∈ x.shard.ring, ∃ b ∈ m.entries, b.ptr ∉ ptrs r.1.listed ∧
            n.frequency < m.frequency := by
    decide +kernel
  obtain ⟨x, hx, ⟨r, p⟩, hr, h⟩ := hfirst
  obtain ⟨y, hy, ⟨t, q⟩, ht, h'⟩ := hsecond
  exact ⟨⟨x, r, p, hx, hr, h⟩, y, t, q, hy, ht, h'⟩

end WiscKey.LfuEviction
