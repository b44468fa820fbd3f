import WiscKey.HandleTable

namespace WiscKey.HandleTableRuns

open WiscKey.HandleTable WiscKey.ShardInvariant
open WiscKey.CacheShard (Slot)

/-- What the operations so far have left in a table: its handles, the number of
those ever linked, and the greatest number of handles at a time. -/
structure Contents where
  handles : List Slot
  fresh : Nat
  peak : Nat

def Contents.link (c : Contents) (h : Slot) : Contents where
  handles := h :: c.handles
  fresh := c.fresh + 1
  peak := max c.peak (c.handles.length + 1)

def Contents.step (c : Contents) : Op → Contents
  | .insert h =>
    match c.handles.find? (Slot.isFor h.key h.hash) with
    | some _ => c
    | none => c.link h
  | .lookup _ _ => c
  | .remove key hash =>
    match c.handles.find? (Slot.isFor key hash) with
    | some h => { c with handles := c.handles.filter fun a => a ≠ h }
    | none => c

def contents (ops : List Op) : Contents := ops.foldl Contents.step ⟨[], 0, 0⟩

/-- How the two numbers of a table go together: the length is four times as large
after each time that it was too small. -/
structure Sized (t : Table) (fresh : Nat) : Prop where
  elems_eq : t.elems.toNat = fresh
  length_eq : ∃ k ≤ 13, t.length.toNat = 2 ^ (4 + 2 * k)
  fits : fresh ≤ t.length.toNat
  small : t.length.toNat ≤ max 16 (4 * fresh)

variable {t t' : Table} {c : Contents} {h : Slot} {fuel n : Nat} {op : Op} {ops : List Op}

theorem shl_one (a : UInt32) : (a <<< 1).toNat = 2 * a.toNat % 2 ^ 32 := by
  rw [UInt32.toNat_shiftLeft, Nat.shiftLeft_eq, Nat.mul_comm]
  rfl

theorem Sized.length_ne (hs : Sized t n) : t.length ≠ 0 := by
  obtain ⟨k, -, hk⟩ := hs.length_eq
  intro h0
  rw [h0] at hk
  exact absurd hk.symm (Nat.two_pow_pos _).ne'

theorem Sized.congr (hs : Sized t n) (hl : t'.length = t.length) (he : t'.elems = t.elems) :
    Sized t' n :=
  ⟨he ▸ hs.elems_eq, hl ▸ hs.length_eq, hl ▸ hs.fits, hl ▸ hs.small⟩

theorem length_lt_elems (hs : Sized t n) (hn : n ≤ 2 ^ 30) (h : Slot) :
    (t.link h).elems.toNat = n + 1 ∧
      ((t.link h).length < (t.link h).elems ↔ t.length.toNat < n + 1) := by
  have he : (t.link h).elems.toNat = n + 1 := by
    rw [Table.link, UInt32.toNat_add, hs.elems_eq, UInt32.toNat_one]
    omega
  exact ⟨he, by rw [UInt32.lt_iff_toNat_lt, he]; rfl⟩

theorem doubled_twice {target length : UInt32} {e : Nat} (rounds : Nat) (he : 1 ≤ e ∧ e ≤ 29)
    (hl : length.toNat = 2 ^ e) (ht : target.toNat = 2 ^ e + 2) :
    ∃ l, doubled target (rounds + 2) length = some l ∧ l.toNat = 2 ^ (e + 1) := by
  have hlt : 2 ^ e ≤ 2 ^ 29 := Nat.pow_le_pow_right Nat.two_pos he.2
  have hge : 2 ^ 1 ≤ 2 ^ e := Nat.pow_le_pow_right Nat.two_pos he.1
  have hshl : (length <<< 1).toNat = 2 ^ (e + 1) := by
    rw [shl_one, hl, pow_succ]
    omega
  refine ⟨length <<< 1, ?_, hshl⟩
  have hstep : length < target := by
    rw [UInt32.lt_iff_toNat_lt, hl, ht]
    omega
  have hstop : ¬ length <<< 1 < target := by
    rw [UInt32.lt_iff_toNat_lt, hshl, ht, pow_succ]
    omega
  rw [doubled, if_pos hstep, doubled, if_neg hstop]

theorem newLength_link (hs : Sized t n) (hn : n < 2 ^ 30) (hlt : t.length.toNat < n + 1)
    (h : Slot) : ∃ k l, k ≤ 12 ∧ t.length.toNat = 2 ^ (4 + 2 * k) ∧
      (t.link h).newLength = some l ∧ l.toNat = 2 ^ (4 + 2 * (k + 1)) := by
  obtain ⟨k, hk, hl⟩ := hs.length_eq
  have hfits := hs.fits
  have hk12 : k ≤ 12 := by
    by_contra hk13
    have h13 : k = 13 := by omega
    rw [h13] at hl
    omega
  have hpow : 2 ^ (4 + 2 * k) ≤ 2 ^ 28 := Nat.pow_le_pow_right Nat.two_pos (by omega)
  obtain ⟨he, -⟩ := length_lt_elems hs hn.le h
  have hstart : ((t.link h).length <<< 1).toNat = 2 ^ (5 + 2 * k) := by
    rw [shl_one, show (t.link h).length = t.length from rfl, hl,
      show 5 + 2 * k = 4 + 2 * k + 1 by omega, pow_succ]
    omega
  have htarget : ((t.link h).elems <<< 1).toNat = 2 ^ (5 + 2 * k) + 2 := by
    rw [shl_one, he, show 5 + 2 * k = 4 + 2 * k + 1 by omega, pow_succ]
    omega
  obtain ⟨l, hd, hlen⟩ := doubled_twice 31 ⟨by omega, by omega⟩ hstart htarget
  refine ⟨k, l, hk12, hl, ?_, by rw [hlen]; congr 1; omega⟩
  rw [Table.newLength, Table.lengthAfter, if_neg (show (t.link h).length ≠ 0 from hs.length_ne)]
  exact hd

theorem grow_sized {l : List Slot} (hr : Represents t l) (hd : Distinct (h :: l))
    (hf : l.length < fuel) (hs : Sized t n) (hn : n < 2 ^ 30) :
    ∃ t', (t.link h).grow fuel = some t' ∧ Represents t' (h :: l) ∧ Sized t' (n + 1) := by
  have hh : h ∉ l := (List.nodup_cons.mp hd.nodup).1
  obtain ⟨he, hiff⟩ := length_lt_elems hs hn.le h
  have hsmall := hs.small
  rw [Table.grow]
  by_cases hlt : (t.link h).length < (t.link h).elems
  · have hlen := hiff.mp hlt
    have hfits := hs.fits
    obtain ⟨k, l', hk, hl, hnew, hl'⟩ := newLength_link hs hn hlen h
    obtain ⟨t', hres, hr', hlen', helems'⟩ := resize_represents (link_represents hr hh) hd
      (show (t.link h).length ≠ 0 from hs.length_ne) hf hnew
    have hpos : 0 < t.length.toNat := hl ▸ Nat.two_pow_pos _
    have hquad : 2 ^ (4 + 2 * (k + 1)) = 4 * 2 ^ (4 + 2 * k) := by
      ring
    refine ⟨t', ?_, hr', ?_, ⟨k + 1, by omega, ?_⟩, ?_, ?_⟩
    · rw [if_pos hlt]
      exact hres
    · rw [helems', he]
    · rw [hlen', hl']
    · rw [hlen', hl', hquad, ← hl]
      omega
    · rw [hlen', hl', hquad, ← hl]
      omega
  · have hlen := fun hlen => hlt (hiff.mpr hlen)
    refine ⟨t.link h, if_neg hlt, link_represents hr hh, he, hs.length_eq, ?_, ?_⟩
    · exact Nat.le_of_not_lt hlen
    · exact hsmall.trans (by omega)

theorem contents_concat (ops : List Op) (op : Op) :
    contents (ops ++ [op]) = (contents ops).step op := by
  rw [contents, List.foldl_append]
  rfl

theorem Contents.fresh_le_step (c : Contents) (op : Op) :
    c.fresh ≤ (c.step op).fresh ∧ (c.step op).fresh ≤ c.fresh + 1 := by
  cases op with
  | insert h =>
    rw [Contents.step]
    split
    · exact ⟨Nat.le_refl _, Nat.le_succ _⟩
    · exact ⟨Nat.le_succ _, Nat.le_refl _⟩
  | lookup key hash => exact ⟨Nat.le_refl _, Nat.le_succ _⟩
  | remove key hash =>
    rw [Contents.step]
    split
    · exact ⟨Nat.le_refl _, Nat.le_succ _⟩
    · exact ⟨Nat.le_refl _, Nat.le_succ _⟩

theorem distinct_cons (hd : Distinct c.handles)
    (hn : c.handles.find? (Slot.isFor h.key h.hash) = none) : Distinct (h :: c.handles) := by
  refine List.nodup_cons.mpr ⟨?_, hd⟩
  intro hm
  obtain ⟨a, ha, hid⟩ := List.mem_map.mp hm
  exact List.find?_eq_none.mp hn a ha (Slot.isFor_iff.mpr hid)

theorem Contents.step_distinct (hd : Distinct c.handles) (op : Op) :
    Distinct (c.step op).handles := by
  cases op with
  | insert h =>
    rw [Contents.step]
    split
    · exact hd
    · exact distinct_cons hd ‹_›
  | lookup key hash => exact hd
  | remove key hash =>
    rw [Contents.step]
    split
    · exact hd.filter _
    · exact hd

theorem Contents.step_length (hl : c.handles.length ≤ c.fresh) (op : Op) :
    (c.step op).handles.length ≤ (c.step op).fresh := by
  cases op with
  | insert h =>
    rw [Contents.step]
    split
    · exact hl
    · exact Nat.succ_le_succ hl
  | lookup key hash => exact hl
  | remove key hash =>
    rw [Contents.step]
    split
    · exact (List.length_filter_le _ _).trans hl
    · exact hl

theorem contents_bounds (ops : List Op) : Distinct (contents ops).handles ∧
    (contents ops).handles.length ≤ (contents ops).fresh ∧
      (contents ops).fresh ≤ ops.length := by
  induction ops using List.reverseRecOn with
  | nil => exact ⟨List.nodup_nil, Nat.le_refl 0, Nat.le_refl 0⟩
  | append_singleton ops op ih =>
    obtain ⟨hd, hl, hf⟩ := ih
    rw [contents_concat, List.length_append]
    refine ⟨Contents.step_distinct hd op, Contents.step_length hl op, ?_⟩
    exact (Contents.fresh_le_step _ op).2.trans (Nat.succ_le_succ hf)

theorem step_sized (hr : Represents t c.handles) (hd : Distinct c.handles)
    (hf : c.handles.length < fuel) (hs : Sized t c.fresh) (hn : (c.step op).fresh ≤ 2 ^ 30) :
    ∃ t', step fuel t op = some t' ∧ Represents t' (c.step op).handles ∧
      Sized t' (c.step op).fresh := by
  cases op with
  | insert h =>
    rw [Contents.step] at hn ⊢
    cases hfind : c.handles.find? (Slot.isFor h.key h.hash) with
    | some old =>
      refine ⟨t, ?_, hr, hs⟩
      rw [step, insert_some hr hd hf.le hfind]
      rfl
    | none =>
      rw [hfind] at hn
      obtain ⟨t', hg, hr', hs'⟩ := grow_sized hr (distinct_cons hd hfind) hf hs hn
      refine ⟨t', ?_, hr', hs'⟩
      rw [step, insert_none hr hd hf.le hfind, hg]
      rfl
  | lookup key hash =>
    refine ⟨t, ?_, hr, hs⟩
    rw [step, Table.lookup, findPointer_eq hr hd hf.le]
    rfl
  | remove key hash =>
    rw [Contents.step]
    cases hfind : c.handles.find? (Slot.isFor key hash) with
    | some h =>
      obtain ⟨t', hrem, hr', hl, he⟩ := remove_some hr hd hf.le hfind
      exact ⟨t', by rw [step, hrem]; rfl, hr', hs.congr hl he⟩
    | none =>
      refine ⟨t, ?_, hr, hs⟩
      rw [step, remove_none hr hf.le hfind]
      rfl

theorem new_sized (fuel : Nat) : ∃ t, Table.new fuel = some t ∧ Represents t [] ∧ Sized t 0 := by
  refine ⟨⟨⟨fun _ => none, fun _ => none⟩, 16, 0⟩, rfl, ?_, rfl, ⟨0, by omega, rfl⟩,
    Nat.zero_le _, le_max_left _ _⟩
  exact ⟨[], List.Perm.refl _, fun _ => rfl⟩

theorem run_concat (fuel : Nat) (ops : List Op) (op : Op) :
    run fuel (ops ++ [op]) = (run fuel ops).bind fun t => step fuel t op := by
  rw [run, run]
  cases Table.new fuel with
  | none => rfl
  | some t => simp [List.foldlM_append]

/-- As long as no more handles were linked than the limit, every run goes through,
and its table has what the operations have left. -/
theorem run_sized (ops : List Op) (hf : ops.length ≤ fuel) (hn : (contents ops).fresh ≤ 2 ^ 30) :
    ∃ t, run fuel ops = some t ∧ Represents t (contents ops).handles ∧
      Sized t (contents ops).fresh := by
  induction ops using List.reverseRecOn with
  | nil =>
    obtain ⟨t, ht, hr, hs⟩ := new_sized fuel
    exact ⟨t, by rw [run, ht]; rfl, hr, hs⟩
  | append_singleton ops op ih =>
    rw [contents_concat] at hn ⊢
    rw [List.length_append, List.length_singleton] at hf
    obtain ⟨hd, hl, hle⟩ := contents_bounds ops
    obtain ⟨t, ht, hr, hs⟩ := ih (by omega) ((Contents.fresh_le_step _ op).1.trans hn)
    obtain ⟨t', hst, hr', hs'⟩ := step_sized hr hd (by omega : _ < fuel) hs hn
    refine ⟨t', ?_, hr', hs'⟩
    rw [run_concat, ht]
    exact hst

end WiscKey.HandleTableRuns
