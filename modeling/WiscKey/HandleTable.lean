import WiscKey.Chains
import WiscKey.ShardInvariant

namespace WiscKey.HandleTable

open WiscKey.Chains WiscKey.ShardInvariant
open WiscKey.CacheShard (Slot)

/-- The hash tables of the three caches, which are the same code. `links` has the
`next_hash` of the handles and the heads of the buckets, the array `list_`. -/
structure Table where
  links : Links Slot UInt32
  length : UInt32
  elems : UInt32

abbrev LRUHandleTable := Table

abbrev FIFOHandleTable := Table

abbrev LFUHandleTable := Table

def bucket (length hash : UInt32) : UInt32 := hash &&& (length - 1)

def Table.bucketOf (t : Table) (h : Slot) : UInt32 := bucket t.length h.hash

/-- The loop of `Resize` that doubles a length, with the rounds it may take. -/
def doubled (target : UInt32) : Nat → UInt32 → Option UInt32
  | 0, _ => none
  | n + 1, length => if length < target then doubled target n (length <<< 1) else some length

def Table.lengthAfter (t : Table) (rounds : Nat) : Option UInt32 :=
  doubled (t.elems <<< 1) rounds (if t.length = 0 then 16 else t.length <<< 1)

/-- The length that `Resize` comes to. A loop that has not ended when every bit
was shifted out never ends. -/
def Table.newLength (t : Table) : Option UInt32 := t.lengthAfter 33

def Table.buckets (t : Table) : List UInt32 := (List.range t.length.toNat).map UInt32.ofNat

/-- `Resize`. The number of handles that a walk may come through is given, here
and below. -/
def Table.resize (fuel : Nat) (t : Table) : Option Table := do
  let length ← t.newLength
  let links ← t.buckets.foldlM
    (fun s b => Links.refile (fun h => bucket length h.hash) fuel (t.links.heads b) s)
    ⟨t.links.next, fun _ => none⟩
  return { t with links := links, length := length }

def Table.new (fuel : Nat) : Option Table :=
  Table.resize fuel ⟨⟨fun _ => none, fun _ => none⟩, 0, 0⟩

def Table.findPointer (fuel : Nat) (t : Table) (key : List UInt8) (hash : UInt32) :
    Option (Option Slot) :=
  walk t.links.next (Slot.isFor key hash) fuel (t.links.heads (bucket t.length hash))

def Table.lookup (fuel : Nat) (t : Table) (key : List UInt8) (hash : UInt32) :
    Option (Option Slot) :=
  t.findPointer fuel key hash

def Table.link (t : Table) (h : Slot) : Table :=
  { t with links := t.links.push t.bucketOf h, elems := t.elems + 1 }

def Table.grow (fuel : Nat) (t : Table) : Option Table :=
  if t.length < t.elems then t.resize fuel else some t

def Table.insert (fuel : Nat) (t : Table) (h : Slot) : Option (Table × Slot) := do
  match ← t.findPointer fuel h.key h.hash with
  | some old => return (t, old)
  | none =>
    let t ← (t.link h).grow fuel
    return (t, h)

def Table.remove (fuel : Nat) (t : Table) (key : List UInt8) (hash : UInt32) :
    Option (Table × Option Slot) := do
  let b := bucket t.length hash
  let (parent, h) ← walkParent t.links.next (Slot.isFor key hash) fuel none (t.links.heads b)
  match h with
  | none => return (t, none)
  | some h => return ({ t with links := t.links.unlink b parent h }, some h)

def Table.chain (fuel : Nat) (t : Table) (b : UInt32) : Option (List Slot) :=
  collect t.links.next fuel (t.links.heads b)

def Table.handles (fuel : Nat) (t : Table) : Option (List Slot) :=
  (t.buckets.mapM (t.chain fuel)).map List.flatten

inductive Op where
  | insert (h : Slot)
  | lookup (key : List UInt8) (hash : UInt32)
  | remove (key : List UInt8) (hash : UInt32)
deriving DecidableEq

def step (fuel : Nat) (t : Table) : Op → Option Table
  | .insert h => (t.insert fuel h).map Prod.fst
  | .lookup key hash => (t.lookup fuel key hash).map fun _ => t
  | .remove key hash => (t.remove fuel key hash).map Prod.fst

def run (fuel : Nat) (ops : List Op) : Option Table := do
  let t ← Table.new fuel
  ops.foldlM (step fuel) t

/-- What a table is for: the handles it has, without order. -/
def Represents (t : Table) (l : List Slot) : Prop := ∃ r, r.Perm l ∧ Filed t.bucketOf t.links r

def Distinct (l : List Slot) : Prop := (l.map Slot.id).Nodup

variable {t t' : Table} {l r : List Slot} {h : Slot} {key : List UInt8} {hash : UInt32} {fuel : Nat}

theorem Distinct.nodup (hd : Distinct l) : l.Nodup := List.Nodup.of_map _ hd

theorem Distinct.eq (hd : Distinct l) {a b : Slot} (ha : a ∈ l) (hb : b ∈ l)
    (hf : a.isFor key hash = true) (hg : b.isFor key hash = true) : a = b :=
  List.inj_on_of_nodup_map hd ha hb ((Slot.isFor_iff.mp hf).trans (Slot.isFor_iff.mp hg).symm)

theorem Distinct.find_eq_some (hd : Distinct l) :
    l.find? (Slot.isFor key hash) = some h ↔ h ∈ l ∧ h.isFor key hash = true := by
  constructor
  · exact fun hf => ⟨List.mem_of_find?_eq_some hf, List.find?_some hf⟩
  · rintro ⟨hm, hf⟩
    obtain ⟨a, ha⟩ := Option.isSome_iff_exists.mp (List.find?_isSome.mpr ⟨h, hm, hf⟩)
    rw [ha, hd.eq (List.mem_of_find?_eq_some ha) hm (List.find?_some ha) hf]

theorem Distinct.perm (hd : Distinct l) (hp : r.Perm l) : Distinct r :=
  (hp.map Slot.id).nodup_iff.mpr hd

theorem Distinct.filter (hd : Distinct l) (p : Slot → Bool) : Distinct (l.filter p) :=
  List.Nodup.sublist (List.filter_sublist.map _) hd

theorem find_perm (hd : Distinct l) (hp : r.Perm l) :
    r.find? (Slot.isFor key hash) = l.find? (Slot.isFor key hash) := by
  apply Option.ext
  intro a
  rw [hd.find_eq_some, (hd.perm hp).find_eq_some, hp.mem_iff]

theorem find_filter (t : Table) (r : List Slot) :
    (r.filter fun h => t.bucketOf h = bucket t.length hash).find? (Slot.isFor key hash) =
      r.find? (Slot.isFor key hash) := by
  rw [List.find?_filter]
  congr 1
  funext a
  by_cases ha : a.isFor key hash = true
  · have hb : t.bucketOf a = bucket t.length hash := by
      rw [Table.bucketOf, (Prod.mk.inj (Slot.isFor_iff.mp ha)).2]
    simp [ha, hb]
  · simp [ha]

theorem findPointer_eq (hr : Represents t l) (hd : Distinct l) (hf : l.length ≤ fuel) :
    t.findPointer fuel key hash = some (l.find? (Slot.isFor key hash)) := by
  obtain ⟨r, hp, hr⟩ := hr
  rw [Table.findPointer, (hr _).walk, find_filter, find_perm hd hp]
  exact (List.length_filter_le _ _).trans (hp.length_eq.trans_le hf)

theorem link_represents (hr : Represents t l) (hh : h ∉ l) : Represents (t.link h) (h :: l) := by
  obtain ⟨r, hp, hr⟩ := hr
  exact ⟨h :: r, hp.cons h, hr.push fun hm => hh (hp.mem_iff.mp hm)⟩

theorem bucket_mem (hl : t.length ≠ 0) (hash : UInt32) : bucket t.length hash ∈ t.buckets := by
  have hlt : (bucket t.length hash).toNat < t.length.toNat := by
    have hpos : t.length.toNat ≠ 0 := fun h0 => hl (UInt32.toNat_inj.mp h0)
    have hle : 1 ≤ t.length := UInt32.le_iff_toNat_le.mpr (Nat.one_le_iff_ne_zero.mpr hpos)
    rw [bucket, UInt32.toNat_and, UInt32.toNat_sub_of_le _ _ hle]
    exact Nat.lt_of_le_of_lt Nat.and_le_right (Nat.sub_lt (Nat.pos_of_ne_zero hpos) Nat.one_pos)
  refine List.mem_map.mpr ⟨_, List.mem_range.mpr hlt, ?_⟩
  exact UInt32.ofNat_toNat

theorem buckets_nodup (t : Table) : t.buckets.Nodup := by
  refine List.Nodup.map_on ?_ List.nodup_range
  intro a ha b hb hab
  have hlt := t.length.toNat_lt
  rw [List.mem_range] at ha hb
  have hnat := congrArg UInt32.toNat hab
  rwa [UInt32.toNat_ofNat_of_lt' (ha.trans hlt), UInt32.toNat_ofNat_of_lt' (hb.trans hlt)] at hnat

theorem flatMap_perm (hl : t.length ≠ 0) (hr : r.Nodup) :
    (t.buckets.flatMap fun b => r.filter fun h => t.bucketOf h = b).Perm r := by
  rw [List.perm_ext_iff_of_nodup _ hr]
  · intro a
    simp only [List.mem_flatMap, List.mem_filter, decide_eq_true_eq]
    constructor
    · rintro ⟨b, -, ha, -⟩
      exact ha
    · exact fun ha => ⟨t.bucketOf a, bucket_mem hl _, ha, rfl⟩
  · refine List.nodup_flatMap.mpr ⟨fun b _ => hr.filter _, ?_⟩
    refine (buckets_nodup t).imp ?_
    intro b b' hne a ha ha'
    simp only [List.mem_filter, decide_eq_true_eq] at ha ha'
    exact hne (ha.2.symm.trans ha'.2)

/-- `Resize` keeps the handles, each in the bucket that it has now. -/
theorem resize_represents {length : UInt32} (hr : Represents t l) (hd : Distinct l)
    (hl : t.length ≠ 0) (hf : l.length ≤ fuel) (hn : t.newLength = some length) :
    ∃ t', t.resize fuel = some t' ∧ Represents t' l ∧ t'.length = length ∧ t'.elems = t.elems := by
  obtain ⟨r, hp, hr⟩ := hr
  have hnd := (hd.perm hp).nodup
  have hperm := flatMap_perm hl hnd
  obtain ⟨s, hs, hfiled⟩ := Filed.refileAll (n := fuel) (f := fun h => bucket length h.hash)
    (s := ⟨t.links.next, fun _ => none⟩) t.buckets (fun b _ => hr b) (filed_nil _)
    (by rw [List.append_nil]; exact hperm.nodup_iff.mpr hnd)
    (fun b _ => (List.length_filter_le _ _).trans (hp.length_eq.trans_le hf))
  rw [List.append_nil] at hfiled
  refine ⟨{ t with links := s, length := length }, ?_, ⟨_, ?_, hfiled⟩, rfl, rfl⟩
  · rw [Table.resize, hn]
    simp only [Option.bind_eq_bind, Option.bind_some, hs]
    rfl
  · exact (List.reverse_perm _).trans (hperm.trans hp)

theorem remove_none (hr : Represents t l) (hf : l.length ≤ fuel)
    (hn : l.find? (Slot.isFor key hash) = none) : t.remove fuel key hash = some (t, none) := by
  obtain ⟨r, hp, hr⟩ := hr
  have hall : ∀ a ∈ r.filter (fun h => t.bucketOf h = bucket t.length hash),
      a.isFor key hash = false := by
    intro a ha
    have hnone := List.find?_eq_none.mp hn a (hp.mem_iff.mp (List.mem_of_mem_filter ha))
    simpa using hnone
  obtain ⟨q, hq⟩ := (hr _).walkParent_none (n := fuel) none
    ((List.length_filter_le _ _).trans (hp.length_eq.trans_le hf)) hall
  rw [Table.remove]
  simp only [hq, Option.bind_eq_bind, Option.bind_some]
  rfl

theorem remove_some (hr : Represents t l) (hd : Distinct l) (hf : l.length ≤ fuel)
    (hn : l.find? (Slot.isFor key hash) = some h) :
    ∃ t', t.remove fuel key hash = some (t', some h) ∧
      Represents t' (l.filter fun a => a ≠ h) ∧ t'.length = t.length ∧ t'.elems = t.elems := by
  obtain ⟨r, hp, hr⟩ := hr
  rw [← find_perm hd hp, ← find_filter t] at hn
  obtain ⟨hh, pre, post, he, hpre⟩ := List.find?_eq_some_iff_append.mp hn
  have hchain := hr (bucket t.length hash)
  rw [he] at hchain
  have hlen : (pre ++ h :: post).length ≤ fuel := by
    rw [← he]
    exact (List.length_filter_le _ _).trans (hp.length_eq.trans_le hf)
  have hw := hchain.walkParent none hlen
    (fun b hb => by simpa using hpre b hb) hh
  rw [Option.or_none] at hw
  refine ⟨{ t with links := t.links.unlink (bucket t.length hash) pre.getLast? h }, ?_,
    ⟨_, hp.filter _, hr.unlink (hd.perm hp).nodup he⟩, rfl, rfl⟩
  rw [Table.remove]
  simp only [hw, Option.bind_eq_bind, Option.bind_some]
  rfl

theorem insert_some {old : Slot} (hr : Represents t l) (hd : Distinct l) (hf : l.length ≤ fuel)
    (hn : l.find? (Slot.isFor h.key h.hash) = some old) : t.insert fuel h = some (t, old) := by
  rw [Table.insert, findPointer_eq hr hd hf, hn]
  rfl

theorem insert_none (hr : Represents t l) (hd : Distinct l) (hf : l.length ≤ fuel)
    (hn : l.find? (Slot.isFor h.key h.hash) = none) :
    t.insert fuel h = ((t.link h).grow fuel).map fun t' => (t', h) := by
  rw [Table.insert, findPointer_eq hr hd hf, hn, Option.map_eq_bind]
  rfl

end WiscKey.HandleTable
