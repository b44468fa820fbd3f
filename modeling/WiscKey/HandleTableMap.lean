import WiscKey.HandleTableRuns

namespace WiscKey.HandleTableMap

open WiscKey.Chains WiscKey.HandleTable WiscKey.HandleTableRuns WiscKey.ShardInvariant
open WiscKey.CacheShard (Slot)

def isInsert : Op → Bool
  | .insert _ => true
  | _ => false

def Hashes (hashOf : List UInt8 → UInt32) : Op → Prop
  | .insert h => h.hash = hashOf h.key
  | .lookup key hash => hash = hashOf key
  | .remove key hash => hash = hashOf key

instance (hashOf : List UInt8 → UInt32) : DecidablePred (Hashes hashOf)
  | .insert h => inferInstanceAs (Decidable (h.hash = hashOf h.key))
  | .lookup key hash => inferInstanceAs (Decidable (hash = hashOf key))
  | .remove key hash => inferInstanceAs (Decidable (hash = hashOf key))

def hold (key : List UInt8) (o : Option Slot) : Op → Option Slot
  | .insert h => if h.key = key then o.or (some h) else o
  | .lookup _ _ => o
  | .remove k _ => if k = key then none else o

/-- The first handle inserted for a key since the key was removed. -/
def holder (key : List UInt8) (ops : List Op) : Option Slot := ops.foldl (hold key) none

/-- A table with a length that is a power of two has just the handles with a
property, each once and in the bucket of its hash. -/
def Has (fuel : Nat) (t : Table) (p : Slot → Prop) : Prop :=
  (∃ k, t.length.toNat = 2 ^ k) ∧
    ∀ b, b < t.length → ∃ l, t.chain fuel b = some l ∧ l.Nodup ∧
      ∀ h, h ∈ l ↔ bucket t.length h.hash = b ∧ p h

variable {t t' : Table} {l : List Slot} {h : Slot} {fuel n : Nat} {key : List UInt8}
  {hashOf : List UInt8 → UInt32} {ops : List Op}

theorem has_of_represents {p : Slot → Prop} (hr : Represents t l) (hd : Distinct l)
    (hf : l.length ≤ fuel) (hs : Sized t n) (hp : ∀ h, h ∈ l ↔ p h) : Has fuel t p := by
  obtain ⟨k, -, hk⟩ := hs.length_eq
  obtain ⟨r, hperm, hr⟩ := hr
  refine ⟨⟨_, hk⟩, fun b _ => ⟨_, (hr b).collect ?_, (hd.perm hperm).nodup.filter _, fun h => ?_⟩⟩
  · exact (List.length_filter_le _ _).trans (hperm.length_eq.trans_le hf)
  · rw [List.mem_filter, decide_eq_true_eq, hperm.mem_iff, hp, and_comm]
    rfl

structure Agrees (hashOf : List UInt8 → UInt32) (l : List Slot) (m : List UInt8 → Option Slot) :
    Prop where
  hash : ∀ h ∈ l, h.hash = hashOf h.key
  key_eq : ∀ k h, m k = some h → h.key = k
  mem : ∀ h, h ∈ l ↔ m h.key = some h

variable {m : List UInt8 → Option Slot} {c : Contents}

theorem Agrees.find_eq (ha : Agrees hashOf l m) (hd : Distinct l) (key : List UInt8) :
    l.find? (Slot.isFor key (hashOf key)) = m key := by
  apply Option.ext
  intro h
  rw [hd.find_eq_some, Slot.isFor_iff, Slot.id, Prod.mk.injEq]
  constructor
  · rintro ⟨hm, rfl, -⟩
    exact (ha.mem h).mp hm
  · intro hk
    obtain rfl := ha.key_eq key h hk
    have hm := (ha.mem h).mpr hk
    exact ⟨hm, rfl, ha.hash h hm⟩

theorem Agrees.insert_present {old : Slot} (ha : Agrees hashOf l m) (hk : m h.key = some old) :
    Agrees hashOf l fun key => hold key (m key) (.insert h) := by
  have hm : (fun key => hold key (m key) (.insert h)) = m := by
    funext key
    rw [hold]
    by_cases h1 : h.key = key
    · subst key
      rw [if_pos rfl, hk]
      rfl
    · exact if_neg h1
  rw [hm]
  exact ha

theorem Agrees.insert_absent (ha : Agrees hashOf l m) (hh : h.hash = hashOf h.key)
    (hk : m h.key = none) : Agrees hashOf (h :: l) fun key => hold key (m key) (.insert h) := by
  refine ⟨List.forall_mem_cons.mpr ⟨hh, ha.hash⟩, fun k a => ?_, fun a => ?_⟩
  · rw [hold]
    by_cases h1 : h.key = k
    · subst k
      rw [if_pos rfl, hk]
      rintro ⟨⟩
      rfl
    · rw [if_neg h1]
      exact ha.key_eq k a
  · rw [hold, List.mem_cons, ha.mem]
    by_cases h1 : h.key = a.key
    · rw [if_pos h1, ← h1, hk]
      simp [eq_comm]
    · have hne : a ≠ h := fun e => h1 (congrArg Slot.key e).symm
      rw [if_neg h1, or_iff_right hne]

theorem Agrees.remove_present {k : List UInt8} {hash : UInt32} (ha : Agrees hashOf l m)
    (hk : m k = some h) :
    Agrees hashOf (l.filter fun a => a ≠ h) fun key => hold key (m key) (.remove k hash) := by
  have hkey := ha.key_eq k h hk
  refine ⟨fun a hm => ha.hash a (List.mem_of_mem_filter hm), fun k' a => ?_, fun a => ?_⟩
  · rw [hold]
    by_cases h1 : k = k'
    · rw [if_pos h1]
      rintro ⟨⟩
    · rw [if_neg h1]
      exact ha.key_eq k' a
  · rw [hold, List.mem_filter, ha.mem, decide_eq_true_eq]
    by_cases h1 : k = a.key
    · rw [if_pos h1, ← h1, hk]
      simp [eq_comm]
    · have hne : a ≠ h := fun e => h1 (e ▸ hkey.symm)
      rw [if_neg h1, and_iff_left hne]

theorem Agrees.remove_absent {k : List UInt8} {hash : UInt32} (ha : Agrees hashOf l m)
    (hk : m k = none) : Agrees hashOf l fun key => hold key (m key) (.remove k hash) := by
  have hm : (fun key => hold key (m key) (.remove k hash)) = m := by
    funext key
    rw [hold]
    by_cases h1 : k = key
    · subst key
      rw [if_pos rfl, hk]
    · exact if_neg h1
  rw [hm]
  exact ha

theorem Agrees.step (ha : Agrees hashOf c.handles m) (hd : Distinct c.handles) (op : Op)
    (hop : Hashes hashOf op) :
    Agrees hashOf (c.step op).handles fun key => hold key (m key) op := by
  cases op with
  | lookup key hash => exact ha
  | insert h =>
    have hf := ha.find_eq hd h.key
    rw [← hop] at hf
    rw [Contents.step]
    cases hk : m h.key with
    | some old =>
      rw [hf, hk]
      exact ha.insert_present hk
    | none =>
      rw [hf, hk]
      exact ha.insert_absent hop hk
  | remove k hash =>
    have hf := ha.find_eq hd k
    rw [← show hash = hashOf k from hop] at hf
    rw [Contents.step]
    cases hk : m k with
    | some h =>
      rw [hf, hk]
      exact ha.remove_present hk
    | none =>
      rw [hf, hk]
      exact ha.remove_absent hk

theorem contents_agrees (ops : List Op) (hh : ∀ op ∈ ops, Hashes hashOf op) :
    Agrees hashOf (contents ops).handles fun key => holder key ops := by
  induction ops using List.reverseRecOn with
  | nil =>
    refine ⟨fun h hm => ?_, fun k h hk => ?_, fun h => ?_⟩
    · cases hm
    · cases hk
    · simp [contents, holder]
  | append_singleton ops op ih =>
    have hsteps := (ih fun op hop => hh op (List.mem_append_left _ hop)).step
      (contents_bounds ops).1 op (hh op (by simp))
    have hconcat : (fun key => holder key (ops ++ [op])) =
        fun key => hold key (holder key ops) op := by
      funext key
      rw [holder, List.foldl_append]
      rfl
    rw [contents_concat, hconcat]
    exact hsteps

theorem fresh_le_inserts (ops : List Op) : (contents ops).fresh ≤ ops.countP isInsert := by
  induction ops using List.reverseRecOn with
  | nil => exact Nat.le_refl 0
  | append_singleton ops op ih =>
    rw [contents_concat, List.countP_append]
    cases op with
    | insert h => exact (Contents.fresh_le_step _ _).2.trans (Nat.succ_le_succ ih)
    | lookup key hash => exact ih
    | remove key hash =>
      rw [Contents.step]
      split
      · exact ih
      · exact ih

/-- After any operations a table is a map from keys to handles: `Lookup` finds the
first handle inserted since a key was removed, `Insert` returns it or links the
new one, through a `Resize` or not, and `Remove` unlinks just it. -/
theorem table_is_map (hashOf : List UInt8 → UInt32) (ops : List Op) (fuel : Nat)
    (hf : ops.length < fuel) (hn : ops.countP isInsert < 2 ^ 30)
    (hh : ∀ op ∈ ops, Hashes hashOf op) :
    ∃ t, run fuel ops = some t ∧ Has fuel t (fun a => holder a.key ops = some a) ∧
      (∀ key, t.lookup fuel key (hashOf key) = some (holder key ops)) ∧
      (∀ h old, h.hash = hashOf h.key → holder h.key ops = some old →
        t.insert fuel h = some (t, old)) ∧
      (∀ h, h.hash = hashOf h.key → holder h.key ops = none →
        (∃ t', t.insert fuel h = some (t', h) ∧
          Has fuel t' (fun a => holder a.key ops = some a ∨ a = h)) ∧
        ((t.link h).length < (t.link h).elems → ∃ t', (t.link h).resize fuel = some t' ∧
          Has fuel t' (fun a => holder a.key ops = some a ∨ a = h))) ∧
      ∀ key, ∃ t', t.remove fuel key (hashOf key) = some (t', holder key ops) ∧
        Has fuel t' (fun a => holder a.key ops = some a ∧ a.key ≠ key) := by
  have hfresh := fresh_le_inserts ops
  obtain ⟨hd, hl, hle⟩ := contents_bounds ops
  obtain ⟨t, ht, hr, hs⟩ := run_sized ops hf.le (hfresh.trans hn.le)
  have ha := contents_agrees ops hh
  have hlen : (contents ops).handles.length < fuel := by omega
  refine ⟨t, ht, has_of_represents hr hd hlen.le hs ha.mem, fun key => ?_, fun h old hk ho => ?_,
    fun h hk ho => ?_, fun key => ?_⟩
  · rw [Table.lookup, findPointer_eq hr hd hlen.le, ha.find_eq hd]
  · have hfind := ha.find_eq hd h.key
    rw [← hk, ho] at hfind
    exact insert_some hr hd hlen.le hfind
  · have hfind := ha.find_eq hd h.key
    rw [← hk, ho] at hfind
    have hd' := distinct_cons hd hfind
    obtain ⟨t', hg, hr', hs'⟩ := grow_sized hr hd' hlen hs (hfresh.trans_lt hn)
    have hhas : Has fuel t' (fun a => holder a.key ops = some a ∨ a = h) := by
      refine has_of_represents hr' hd' hlen hs' (fun a => ?_)
      rw [List.mem_cons, ha.mem, or_comm]
    refine ⟨⟨t', ?_, hhas⟩, fun hlt => ⟨t', ?_, hhas⟩⟩
    · rw [insert_none hr hd hlen.le hfind, hg]
      rfl
    · rw [Table.grow, if_pos hlt] at hg
      exact hg
  · have hfind := ha.find_eq hd key
    cases ho : holder key ops with
    | none =>
      rw [ho] at hfind
      refine ⟨t, remove_none hr hlen.le hfind, has_of_represents hr hd hlen.le hs fun a => ?_⟩
      rw [ha.mem, iff_self_and]
      rintro h1 rfl
      rw [ho] at h1
      cases h1
    | some h =>
      rw [ho] at hfind
      obtain ⟨t', hrem, hr', hl', he'⟩ := remove_some hr hd hlen.le hfind
      refine ⟨t', hrem, has_of_represents hr' (hd.filter _)
        ((List.length_filter_le _ _).trans hlen.le) (hs.congr hl' he') fun a => ?_⟩
      rw [List.mem_filter, decide_eq_true_eq, ha.mem]
      refine and_congr_right fun h1 => not_congr ⟨?_, ?_⟩
      · rintro rfl
        exact ha.key_eq key a ho
      · rintro rfl
        rw [ho] at h1
        exact (Option.some.inj h1).symm

theorem table_is_map_colliding : ∃ t,
    run 5 [.insert ⟨[1], 7, 0⟩, .insert ⟨[2], 7, 1⟩, .insert ⟨[1], 7, 2⟩, .remove [2] 7] = some t ∧
      t.lookup 5 [1] 7 = some (some ⟨[1], 7, 0⟩) ∧ t.lookup 5 [2] 7 = some none := by
  obtain ⟨t, ht, -, hl, -⟩ := table_is_map (fun _ => 7)
    [.insert ⟨[1], 7, 0⟩, .insert ⟨[2], 7, 1⟩, .insert ⟨[1], 7, 2⟩, .remove [2] 7] 5 (by decide)
    (by decide) (by decide)
  exact ⟨t, ht, hl [1], hl [2]⟩

end WiscKey.HandleTableMap
