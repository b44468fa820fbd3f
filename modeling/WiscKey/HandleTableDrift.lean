import WiscKey.HandleTableRuns
import WiscKey.Runs

namespace WiscKey.HandleTableDrift

open WiscKey.Runs WiscKey.Chains WiscKey.HandleTable WiscKey.HandleTableRuns WiscKey.ShardInvariant
open WiscKey.CacheShard (Slot)

def Misses (c : Contents) : Op → Prop
  | .remove key hash => c.handles.find? (Slot.isFor key hash) = none
  | _ => True

instance (c : Contents) : DecidablePred (Misses c)
  | .remove key hash => inferInstanceAs (Decidable (c.handles.find? (Slot.isFor key hash) = none))
  | .insert _ | .lookup _ _ => inferInstanceAs (Decidable True)

/-- The counter of a table is right, and its length follows the greatest number of
handles so far. -/
def Follows (fuel : Nat) (ops : List Op) : Prop :=
  ∃ t l, run fuel ops = some t ∧ t.handles fuel = some l ∧ t.elems.toNat = l.length ∧
    t.length.toNat ≤ max 16 (4 * (contents ops).peak)

variable {t : Table} {c : Contents} {h : Slot} {fuel n : Nat} {ops pre : List Op} {op : Op}

theorem mapM_eq_map {α β : Type*} {f : α → Option β} {g : α → β} {l : List α}
    (hf : ∀ a ∈ l, f a = some (g a)) : l.mapM f = some (l.map g) := by
  induction l with
  | nil => rfl
  | cons a l ih =>
    obtain ⟨ha, hl⟩ := List.forall_mem_cons.mp hf
    rw [List.mapM_cons, ha, ih hl]
    rfl

theorem handles_perm {l : List Slot} (hr : Represents t l) (hd : Distinct l) (hl : t.length ≠ 0)
    (hf : l.length ≤ fuel) : ∃ r, t.handles fuel = some r ∧ r.Perm l := by
  obtain ⟨r, hp, hr⟩ := hr
  have hchain : ∀ b ∈ t.buckets, t.chain fuel b = some (r.filter fun h => t.bucketOf h = b) :=
    fun b _ => (hr b).collect ((List.length_filter_le _ _).trans (hp.length_eq.trans_le hf))
  refine ⟨_, by rw [Table.handles, mapM_eq_map hchain]; rfl, ?_⟩
  exact (flatMap_perm hl (hd.perm hp).nodup).trans hp

theorem Contents.length_le_peak (hc : c.handles.length ≤ c.peak) (op : Op) :
    (c.step op).handles.length ≤ (c.step op).peak ∧ c.peak ≤ (c.step op).peak := by
  cases op with
  | insert h =>
    rw [Contents.step]
    split
    · exact ⟨hc, Nat.le_refl _⟩
    · exact ⟨le_max_right _ _, le_max_left _ _⟩
  | lookup key hash => exact ⟨hc, Nat.le_refl _⟩
  | remove key hash =>
    rw [Contents.step]
    split
    · exact ⟨(List.length_filter_le _ _).trans hc, Nat.le_refl _⟩
    · exact ⟨hc, Nat.le_refl _⟩

theorem length_le_peak (ops : List Op) :
    (contents ops).handles.length ≤ (contents ops).peak := by
  induction ops using List.reverseRecOn with
  | nil => exact Nat.le_refl 0
  | append_singleton ops op ih =>
    rw [contents_concat]
    exact (Contents.length_le_peak ih op).1

theorem Contents.length_eq_fresh (hd : Distinct c.handles)
    (hc : c.handles.length = c.fresh) (op : Op) :
    (c.step op).handles.length = (c.step op).fresh ↔ Misses c op := by
  cases op with
  | insert h =>
    refine iff_of_true ?_ trivial
    rw [Contents.step]
    split
    · exact hc
    · exact congrArg (· + 1) hc
  | lookup key hash => exact iff_of_true hc trivial
  | remove key hash =>
    rw [Contents.step, Misses]
    cases hf : c.handles.find? (Slot.isFor key hash) with
    | none => exact iff_of_true hc rfl
    | some h =>
      have hm := (hd.find_eq_some.mp hf).1
      have hlt : (c.handles.filter fun a => a ≠ h).length < c.handles.length :=
        List.length_filter_lt_length_iff_exists.mpr ⟨h, hm, by simp⟩
      refine iff_of_false ?_ (by simp)
      rw [← hc]
      exact hlt.ne

theorem misses_iff (ops : List Op) : Along Contents.step Misses ⟨[], 0, 0⟩ ops ↔
    ∀ pre, pre <+: ops → (contents pre).handles.length = (contents pre).fresh := by
  refine along_iff_invariant (J := fun c : Contents => Distinct c.handles) (q := fun _ => True)
    (I := fun c : Contents => c.handles.length = c.fresh) ?_ ?_ (fun _ _ => trivial)
    List.nodup_nil rfl
  · exact fun c op hd _ => Contents.step_distinct hd op
  · exact fun c op hd hc _ => Contents.length_eq_fresh hd hc op

theorem follows_of_fresh (hf : ops.length ≤ fuel) (hn : (contents ops).fresh ≤ 2 ^ 30)
    (he : (contents ops).handles.length = (contents ops).fresh) : Follows fuel ops := by
  obtain ⟨hd, hl, hle⟩ := contents_bounds ops
  obtain ⟨t, ht, hr, hs⟩ := run_sized ops hf hn
  obtain ⟨r, hh, hp⟩ := handles_perm hr hd hs.length_ne (hl.trans (hle.trans hf))
  have hpeak := length_le_peak ops
  have hsmall := hs.small
  refine ⟨t, r, ht, hh, ?_, ?_⟩
  · rw [hs.elems_eq, hp.length_eq, he]
  · omega

theorem fresh_of_follows (hf : ops.length ≤ fuel) (hn : (contents ops).fresh ≤ 2 ^ 30)
    (h : Follows fuel ops) : (contents ops).handles.length = (contents ops).fresh := by
  obtain ⟨hd, hl, hle⟩ := contents_bounds ops
  obtain ⟨t, ht, hr, hs⟩ := run_sized ops hf hn
  obtain ⟨r, hh, hp⟩ := handles_perm hr hd hs.length_ne (hl.trans (hle.trans hf))
  obtain ⟨t', l, ht', hl', he, -⟩ := h
  cases ht.symm.trans ht'
  cases hh.symm.trans hl'
  rw [← hp.length_eq, ← he, hs.elems_eq]

/-- The counter is the number of handles, and the length follows it, in every state
of a run, just when no `Remove` of the run finds its key. -/
theorem elems_follow_iff (ops : List Op) (fuel : Nat) (hf : ops.length ≤ fuel)
    (hp : ∀ pre, pre <+: ops → (contents pre).handles.length < 2 ^ 28) :
    (∀ pre, pre <+: ops → Follows fuel pre) ↔ Along Contents.step Misses ⟨[], 0, 0⟩ ops := by
  rw [misses_iff]
  constructor
  · intro h pre
    induction pre using List.reverseRecOn with
    | nil => exact fun _ => rfl
    | append_singleton pre op ih =>
      intro hpre
      have hini := (List.prefix_append pre [op]).trans hpre
      have heq := ih hini
      have hlt := hp pre hini
      have hstep := (Contents.fresh_le_step (contents pre) op).2
      rw [← contents_concat] at hstep
      exact fresh_of_follows (hpre.length_le.trans hf) (by omega) (h _ hpre)
  · intro h pre hpre
    have hlt := hp pre hpre
    have heq := h pre hpre
    exact follows_of_fresh (hpre.length_le.trans hf) (by omega) heq

theorem elems_follow_two : Follows 4 [.insert ⟨[1], 7, 0⟩, .insert ⟨[2], 7, 1⟩,
    .insert ⟨[1], 7, 2⟩, .remove [3] 7] := by
  refine (elems_follow_iff [.insert ⟨[1], 7, 0⟩, .insert ⟨[2], 7, 1⟩, .insert ⟨[1], 7, 2⟩,
    .remove [3] 7] 4 (Nat.le_refl 4) ?_).mpr (by decide) _ (List.prefix_refl _)
  intro pre hpre
  obtain ⟨-, hl, hle⟩ := contents_bounds pre
  have hlen : pre.length ≤ 4 := hpre.length_le
  omega

theorem elems_drift : ∃ t l, run 2 [.insert ⟨[1], 7, 0⟩, .remove [1] 7] = some t ∧
    t.handles 2 = some l ∧ t.elems.toNat = 1 ∧ l.length = 0 := by
  have hrun : ∃ t ∈ run 2 [.insert ⟨[1], 7, 0⟩, .remove [1] 7], ∃ l ∈ t.handles 2,
      t.elems.toNat = 1 ∧ l.length = 0 := by
    decide +kernel
  obtain ⟨t, ht, l, hl, h⟩ := hrun
  exact ⟨t, l, ht, hl, h⟩

def resizeCall (fuel : Nat) (t : Table) : Op → Option Table
  | .insert h =>
    if t.findPointer fuel h.key h.hash = some none ∧ (t.link h).length < (t.link h).elems
    then some (t.link h) else none
  | _ => none

def Ends (t : Table) : Prop :=
  ∃ rounds l, t.lengthAfter rounds = some l ∧ l ≠ 0 ∧ ∃ k, l.toNat = 2 ^ k

theorem doubled_zero {target : UInt32} (ht : 0 < target) (rounds : Nat) :
    doubled target rounds 0 = none := by
  induction rounds with
  | zero => rfl
  | succ rounds ih =>
    rw [doubled, if_pos ht]
    exact ih

theorem length_at_limit (hs : Sized t (2 ^ 30)) : t.length.toNat = 2 ^ 30 := by
  obtain ⟨k, hk, hl⟩ := hs.length_eq
  have hle : 2 ^ (4 + 2 * k) ≤ 2 ^ 30 := Nat.pow_le_pow_right Nat.two_pos (by omega)
  exact Nat.le_antisymm (hl.trans_le hle) hs.fits

/-- At the limit the length is shifted out before it is large enough. -/
theorem lengthAfter_none (hs : Sized t (2 ^ 30)) (h : Slot) (rounds : Nat) :
    (t.link h).lengthAfter rounds = none := by
  have htarget : ((t.link h).elems <<< 1).toNat = 2 ^ 31 + 2 := by
    rw [shl_one, (length_lt_elems hs (Nat.le_refl _) h).1]
    rfl
  have hstart : ((t.link h).length <<< 1).toNat = 2 ^ 31 := by
    rw [shl_one, show (t.link h).length = t.length from rfl, length_at_limit hs]
    rfl
  have hshift : (t.link h).length <<< 1 <<< 1 = 0 := by
    apply UInt32.toNat_inj.mp
    rw [shl_one, hstart]
    rfl
  have hlt : (t.link h).length <<< 1 < (t.link h).elems <<< 1 := by
    rw [UInt32.lt_iff_toNat_lt, hstart, htarget]
    omega
  have hpos : (0 : UInt32) < (t.link h).elems <<< 1 := by
    rw [UInt32.lt_iff_toNat_lt, htarget]
    exact Nat.succ_pos _
  rw [Table.lengthAfter, if_neg (show (t.link h).length ≠ 0 from hs.length_ne)]
  cases rounds with
  | zero => rfl
  | succ rounds =>
    rw [doubled, if_pos hlt, hshift]
    exact doubled_zero hpos rounds

theorem newLength_ends (hs : Sized t n) (hn : n < 2 ^ 30)
    (hlt : (t.link h).length < (t.link h).elems) : Ends (t.link h) := by
  have hlen := (length_lt_elems hs hn.le h).2.mp hlt
  obtain ⟨k, l, -, -, hnew, hl⟩ := newLength_link hs hn hlen h
  refine ⟨33, l, hnew, ?_, _, hl⟩
  rintro rfl
  exact absurd hl.symm (Nat.two_pow_pos _).ne'

theorem fresh_mono (hpre : pre <+: ops) : (contents pre).fresh ≤ (contents ops).fresh := by
  obtain ⟨post, rfl⟩ := hpre
  induction post using List.reverseRecOn with
  | nil => rw [List.append_nil]
  | append_singleton post op ih =>
    rw [← List.append_assoc, contents_concat]
    exact ih.trans (Contents.fresh_le_step _ op).1

theorem exists_crossing {limit : Nat} (ops : List Op) (hn : limit < (contents ops).fresh) :
    ∃ pre h, pre ++ [.insert h] <+: ops ∧ (contents pre).fresh = limit ∧
      (contents pre).handles.find? (Slot.isFor h.key h.hash) = none := by
  induction ops using List.reverseRecOn with
  | nil => exact absurd hn (Nat.not_lt_zero _)
  | append_singleton ops op ih =>
    by_cases hlt : limit < (contents ops).fresh
    · obtain ⟨pre, h, hpre, hrest⟩ := ih hlt
      exact ⟨pre, h, hpre.trans (List.prefix_append _ _), hrest⟩
    · rw [contents_concat] at hn
      have hstep := (Contents.fresh_le_step (contents ops) op).2
      have heq : (contents ops).fresh = limit := by omega
      have hne : (contents ops).fresh ≠ ((contents ops).step op).fresh := by omega
      cases op with
      | insert h =>
        refine ⟨ops, h, List.prefix_refl _, heq, ?_⟩
        cases hf : (contents ops).handles.find? (Slot.isFor h.key h.hash) with
        | none => rfl
        | some old =>
          rw [Contents.step, hf] at hne
          exact absurd rfl hne
      | lookup key hash => exact absurd rfl hne
      | remove key hash =>
        rw [Contents.step] at hne
        split at hne
        · exact absurd rfl hne
        · exact absurd rfl hne

theorem resizeCall_at_limit (hf : pre.length ≤ fuel) (hn : (contents pre).fresh = 2 ^ 30)
    (hfind : (contents pre).handles.find? (Slot.isFor h.key h.hash) = none) :
    ∃ t, run fuel pre = some t ∧ resizeCall fuel t (.insert h) = some (t.link h) ∧
      ∀ rounds, (t.link h).lengthAfter rounds = none := by
  obtain ⟨hd, hl, hle⟩ := contents_bounds pre
  obtain ⟨t, ht, hr, hs⟩ := run_sized pre hf hn.le
  rw [hn] at hs
  have hfp : t.findPointer fuel h.key h.hash = some none := by
    rw [findPointer_eq hr hd (by omega : _ ≤ fuel), hfind]
  have hlt := (length_lt_elems hs (Nat.le_refl _) h).2.mpr
    ((length_at_limit hs).trans_lt (Nat.lt_succ_self _))
  exact ⟨t, ht, if_pos ⟨hfp, hlt⟩, lengthAfter_none hs h⟩

/-- Every `Resize` of a run ends, with a length that is a power of two, just when no
more handles are linked in it than the limit, whether they are still there or not. -/
theorem resize_ends_iff (ops : List Op) (fuel : Nat) (hf : ops.length ≤ fuel) :
    ((run fuel ops).isSome ∧ ∀ pre op t r, pre ++ [op] <+: ops → run fuel pre = some t →
      resizeCall fuel t op = some r → Ends r) ↔ (contents ops).fresh ≤ 2 ^ 30 := by
  constructor
  · rintro ⟨-, h⟩
    by_contra hn
    obtain ⟨pre, a, hpre, hfresh, hfind⟩ := exists_crossing ops (Nat.lt_of_not_le hn)
    have hlen := ((List.prefix_append pre _).trans hpre).length_le.trans hf
    obtain ⟨t, ht, hcall, hnone⟩ := resizeCall_at_limit hlen hfresh hfind
    obtain ⟨rounds, l, hl, -⟩ := h pre (.insert a) t (t.link a) hpre ht hcall
    rw [hnone] at hl
    cases hl
  · intro hn
    obtain ⟨t, ht, -, -⟩ := run_sized ops hf hn
    refine ⟨by rw [ht]; rfl, fun pre op t r hpre ht hcall => ?_⟩
    have hini := (List.prefix_append pre [op]).trans hpre
    obtain ⟨hd, hl, hle⟩ := contents_bounds pre
    have hlen := hini.length_le.trans hf
    obtain ⟨t', ht', hr, hs⟩ := run_sized pre hlen ((fresh_mono hini).trans hn)
    cases ht'.symm.trans ht
    cases op with
    | insert h =>
      obtain ⟨⟨hfp, hlt⟩, hcall⟩ := Option.ite_none_right_eq_some.mp hcall
      cases hcall
      rw [findPointer_eq hr hd (by omega : _ ≤ fuel), Option.some.injEq] at hfp
      have hstep := fresh_mono hpre
      rw [contents_concat, Contents.step, hfp] at hstep
      exact newLength_ends hs (hstep.trans hn) hlt
    | lookup key hash => cases hcall
    | remove key hash => cases hcall

def cycles (n : Nat) : List Op :=
  (List.replicate n [Op.insert ⟨[1], 7, 0⟩, .remove [1] 7]).flatten

theorem cycles_succ (n : Nat) :
    cycles (n + 1) = cycles n ++ [.insert ⟨[1], 7, 0⟩] ++ [.remove [1] 7] := by
  rw [cycles, List.replicate_succ', List.flatten_append, List.append_assoc]
  rfl

theorem contents_cycles (n : Nat) : (contents (cycles n)).handles = [] ∧
    (contents (cycles n)).fresh = n ∧ (contents (cycles n)).peak ≤ 1 := by
  induction n with
  | zero => exact ⟨rfl, rfl, Nat.zero_le 1⟩
  | succ n ih =>
    obtain ⟨hh, hf, hp⟩ := ih
    have hone : (contents (cycles n ++ [.insert ⟨[1], 7, 0⟩])) =
        ⟨[⟨[1], 7, 0⟩], n + 1, max (contents (cycles n)).peak 1⟩ := by
      rw [contents_concat, Contents.step, hh]
      simp [Contents.link, hh, hf]
    rw [cycles_succ, contents_concat, hone]
    exact ⟨rfl, rfl, max_le hp (Nat.le_refl 1)⟩

theorem length_cycles (n : Nat) : (cycles n).length = 2 * n := by
  induction n with
  | zero => rfl
  | succ n ih =>
    rw [cycles_succ, List.length_append, List.length_append, ih]
    rfl

theorem peak_mono (hpre : pre <+: ops) : (contents pre).peak ≤ (contents ops).peak := by
  obtain ⟨post, rfl⟩ := hpre
  induction post using List.reverseRecOn with
  | nil => rw [List.append_nil]
  | append_singleton post op ih =>
    rw [← List.append_assoc, contents_concat]
    exact ih.trans (Contents.length_le_peak (length_le_peak _) op).2

theorem resize_ends_cycle : (run 200 (cycles 100)).isSome ∧
    ∀ pre op t r, pre ++ [op] <+: cycles 100 → run 200 pre = some t →
      resizeCall 200 t op = some r → Ends r := by
  refine (resize_ends_iff (cycles 100) 200 (length_cycles 100).le).mpr ?_
  rw [(contents_cycles 100).2.1]
  omega

/-- With no more than one handle at a time, the loop of `Resize` goes on for ever
once enough handles were linked. -/
theorem resize_never_ends :
    (∀ pre, pre <+: cycles (2 ^ 30 + 1) → (contents pre).handles.length ≤ 1) ∧
    ∃ t r, run (2 ^ 31) (cycles (2 ^ 30)) = some t ∧
      resizeCall (2 ^ 31) t (.insert ⟨[1], 7, 0⟩) = some r ∧
      ∀ rounds, r.lengthAfter rounds = none := by
  refine ⟨fun pre hpre => ?_, ?_⟩
  · exact (length_le_peak pre).trans ((peak_mono hpre).trans (contents_cycles _).2.2)
  · obtain ⟨hh, hn, -⟩ := contents_cycles (2 ^ 30)
    have hlen : (cycles (2 ^ 30)).length ≤ 2 ^ 31 := by
      rw [length_cycles]
      omega
    obtain ⟨t, ht, hcall, hnone⟩ := resizeCall_at_limit (h := ⟨[1], 7, 0⟩) hlen hn (by rw [hh]; rfl)
    exact ⟨t, _, ht, hcall, hnone⟩

end WiscKey.HandleTableDrift
