import Mathlib

namespace WiscKey.Evict

variable {α : Type} (weight : α → Nat) (pinned : α → Bool) (capacity charge : Nat)

def total (l : List α) : Nat := (l.map weight).sum

/-- Walk a list from its front and take out elements until a new charge fits
beside the rest. Pinned elements are passed over. The result is what stays and
what was taken out. -/
def evict : Nat → List α → List α × List α
  | _, [] => ([], [])
  | usage, a :: l =>
    if usage + charge ≤ capacity then (a :: l, [])
    else if pinned a then (a :: (evict usage l).1, (evict usage l).2)
    else ((evict (usage - weight a) l).1, a :: (evict (usage - weight a) l).2)

/-- The longest end of a list that a new charge fits beside. -/
def trim : List α → List α
  | [] => []
  | a :: l => if total weight (a :: l) + charge ≤ capacity then a :: l else trim l

theorem total_cons (a : α) (l : List α) : total weight (a :: l) = weight a + total weight l := by
  simp [total]

theorem total_append (l r : List α) :
    total weight (l ++ r) = total weight l + total weight r := by
  simp [total]

theorem total_perm {l r : List α} (h : l.Perm r) : total weight l = total weight r :=
  (h.map weight).sum_eq

theorem total_mod {n : Nat} {l : List α} (h : total weight l < n) :
    total (fun a => weight a % n) l = total weight l := by
  induction l with
  | nil => rfl
  | cons a l ih =>
    rw [total_cons] at h
    rw [total_cons, total_cons, ih (by omega), Nat.mod_eq_of_lt (by omega)]

theorem evict_perm (usage : Nat) (l : List α) :
    ((evict weight pinned capacity charge usage l).1 ++
      (evict weight pinned capacity charge usage l).2).Perm l := by
  induction l generalizing usage with
  | nil => exact List.Perm.refl _
  | cons a l ih =>
    unfold evict
    split
    · simp
    · split
      · exact (ih usage).cons a
      · exact List.perm_middle.trans ((ih _).cons a)

theorem evict_sublist (usage : Nat) (l : List α) :
    (evict weight pinned capacity charge usage l).1.Sublist l := by
  induction l generalizing usage with
  | nil => exact List.Sublist.refl _
  | cons a l ih =>
    unfold evict
    split
    · exact List.Sublist.refl _
    · split
      · exact (ih usage).cons_cons a
      · exact (ih _).cons a

theorem evict_unpinned (usage : Nat) (l : List α) :
    ∀ a ∈ (evict weight pinned capacity charge usage l).2, pinned a = false := by
  induction l generalizing usage with
  | nil => simp [evict]
  | cons a l ih =>
    unfold evict
    split
    · simp
    · split
      · exact ih usage
      · intro c hc
        obtain rfl | hc := List.mem_cons.mp hc
        · simpa using ‹¬pinned c = true›
        · exact ih _ c hc

/-- Without pinned elements the walk stops at the longest end that fits. -/
theorem evict_eq_trim (l : List α) (hl : ∀ a ∈ l, pinned a = false) :
    (evict weight pinned capacity charge (total weight l) l).1 =
      trim weight capacity charge l := by
  induction l with
  | nil => rfl
  | cons a l ih =>
    have ha : pinned a = false := hl a List.mem_cons_self
    have hs : total weight (a :: l) - weight a = total weight l := by
      rw [total_cons, Nat.add_sub_cancel_left]
    unfold evict trim
    split
    · rfl
    · simp only [ha, Bool.false_eq_true, if_false, hs]
      exact ih (fun c hc => hl c (List.mem_cons_of_mem a hc))

theorem trim_suffix (l : List α) : trim weight capacity charge l <:+ l := by
  induction l with
  | nil => exact List.suffix_rfl
  | cons a l ih =>
    unfold trim
    split
    · exact List.suffix_rfl
    · exact ih.trans (List.suffix_cons a l)

theorem trim_fits (l : List α) :
    trim weight capacity charge l = [] ∨
      total weight (trim weight capacity charge l) + charge ≤ capacity := by
  induction l with
  | nil => exact Or.inl rfl
  | cons a l ih =>
    unfold trim
    split
    · exact Or.inr ‹_›
    · exact ih

theorem suffix_trim {l r : List α} (hr : r <:+ l) (hne : r ≠ [])
    (hf : total weight r + charge ≤ capacity) : r <:+ trim weight capacity charge l := by
  induction l with
  | nil => exact absurd (List.suffix_nil.mp hr) hne
  | cons a l ih =>
    unfold trim
    split
    · exact hr
    · obtain rfl | hr := List.suffix_cons_iff.mp hr
      · contradiction
      · exact ih hr

theorem mem_trim_iff (l : List α) (a : α) :
    a ∈ trim weight capacity charge l ↔
      ∃ r, a :: r <:+ l ∧ total weight (a :: r) + charge ≤ capacity := by
  constructor
  · intro ha
    obtain ⟨pre, r, he⟩ := List.append_of_mem ha
    have hs : a :: r <:+ trim weight capacity charge l := ⟨pre, he.symm⟩
    refine ⟨r, hs.trans (trim_suffix weight capacity charge l), ?_⟩
    obtain h0 | hf := trim_fits weight capacity charge l
    · simp [h0] at ha
    · rw [he, total_append] at hf
      omega
  · rintro ⟨r, hr, hf⟩
    exact (suffix_trim weight capacity charge hr (List.cons_ne_nil a r) hf).subset
      List.mem_cons_self

/-- The shortest initial part of a list with a property, or all of the list. -/
structure Shortest {β : Type} (enough : List β → Prop) (l part : List β) : Prop where
  initial : part <+: l
  complete : enough part ∨ part = l
  least : ∀ r, r <+: l → r.length < part.length → ¬ enough r

theorem Shortest.congr {β : Type} {enough enough' : List β → Prop} {l part : List β}
    (h : Shortest enough l part) (he : ∀ r, r <+: l → (enough' r ↔ enough r)) :
    Shortest enough' l part where
  initial := h.initial
  complete := h.complete.imp (he part h.initial).mpr id
  least := fun r hr hlt hn => h.least r hr hlt ((he r hr).mp hn)

section Monotone

variable {β : Type} {enough : List β → Prop} {l l' part : List β}
  (hm : ∀ r r', r <+: r' → enough r → enough r')

include hm

theorem Shortest.eq_of_not (h : Shortest enough l part) (hn : ¬enough l) : part = l :=
  h.complete.resolve_left fun he => hn (hm part l h.initial he)

omit hm in
theorem Shortest.enough_of (h : Shortest enough l part) (he : enough l) : enough part := by
  obtain hp | rfl := h.complete
  · exact hp
  · exact he

omit hm in
theorem Shortest.within (h : Shortest enough (l ++ l') part) (he : enough l) : part <+: l := by
  refine List.prefix_of_prefix_length_le h.initial (List.prefix_append l l') ?_
  by_contra hlt
  exact h.least l (List.prefix_append l l') (Nat.lt_of_not_le hlt) he

theorem Shortest.beyond (h : Shortest enough (l ++ l') part) (hn : ¬enough l) (hl : l' ≠ []) :
    ∃ b ∈ l', b ∈ part := by
  have hlen : l.length < part.length := by
    by_contra hle
    have hp : part <+: l :=
      List.prefix_of_prefix_length_le h.initial (List.prefix_append l l') (Nat.le_of_not_lt hle)
    obtain he | rfl := h.complete
    · exact hn (hm part l hp he)
    · have := hp.length_le
      rw [List.length_append] at this
      exact hl (List.length_eq_zero_iff.mp (by omega))
  obtain ⟨r, rfl⟩ :=
    List.prefix_of_prefix_length_le (List.prefix_append l l') h.initial hlen.le
  cases r with
  | nil =>
    rw [List.append_nil] at hlen
    exact absurd hlen (lt_irrefl _)
  | cons b r =>
    have hr : b :: r <+: l' := (List.prefix_append_right_inj l).mp h.initial
    exact ⟨b, hr.subset List.mem_cons_self, List.mem_append_right l List.mem_cons_self⟩

end Monotone

theorem total_sublist {l r : List α} (h : r.Sublist l) : total weight r ≤ total weight l :=
  (h.map weight).sum_le_sum (fun _ _ => Nat.zero_le _)

theorem evict_initial (usage : Nat) (l : List α) :
    (evict weight pinned capacity charge usage l).2 <+: l.filter (fun a => !pinned a) := by
  induction l generalizing usage with
  | nil => exact List.prefix_refl _
  | cons a l ih =>
    rw [evict]
    split
    · exact List.nil_prefix
    · split
      · rename_i hp
        rw [List.filter_cons_of_neg (by simpa using hp)]
        exact ih usage
      · rename_i hp
        rw [List.filter_cons_of_pos (by simpa using hp)]
        exact List.cons_prefix_cons.mpr ⟨rfl, ih _⟩

theorem evict_complete (usage : Nat) (l : List α) (hu : total weight l ≤ usage) :
    usage - total weight (evict weight pinned capacity charge usage l).2 + charge ≤ capacity ∨
      (evict weight pinned capacity charge usage l).2 = l.filter (fun a => !pinned a) := by
  induction l generalizing usage with
  | nil => exact Or.inr rfl
  | cons a l ih =>
    rw [total_cons] at hu
    rw [evict]
    split
    · rename_i hf
      exact Or.inl hf
    · split
      · rename_i hp
        rw [List.filter_cons_of_neg (by simpa using hp)]
        exact ih usage (by omega)
      · rename_i hp
        rw [List.filter_cons_of_pos (by simpa using hp), total_cons, ← Nat.sub_sub]
        exact (ih (usage - weight a) (by omega)).imp id (congrArg (a :: ·))

theorem evict_least (usage : Nat) (l : List α) (n : Nat)
    (hn : n < (evict weight pinned capacity charge usage l).2.length) :
    ¬ usage - total weight ((evict weight pinned capacity charge usage l).2.take n) + charge ≤
      capacity := by
  induction l generalizing usage n with
  | nil => cases hn
  | cons a l ih =>
    rw [evict] at hn ⊢
    by_cases hf : usage + charge ≤ capacity
    · rw [if_pos hf] at hn
      cases hn
    · rw [if_neg hf] at hn ⊢
      by_cases hp : pinned a
      · rw [if_pos hp] at hn ⊢
        exact ih usage n hn
      · rw [if_neg hp] at hn ⊢
        cases n with
        | zero => exact hf
        | succ n =>
          rw [List.take_succ_cons, total_cons, ← Nat.sub_sub]
          exact ih (usage - weight a) n (Nat.lt_of_succ_lt_succ hn)

/-- The walk takes out the elements that are not pinned, from the front on and no
more of them than it needs to. -/
theorem evict_shortest (usage : Nat) (l : List α) (hu : total weight l ≤ usage) :
    Shortest (fun r => usage - total weight r + charge ≤ capacity)
      (l.filter fun a => !pinned a) (evict weight pinned capacity charge usage l).2 where
  initial := evict_initial weight pinned capacity charge usage l
  complete := evict_complete weight pinned capacity charge usage l hu
  least := by
    intro r hr hlt
    have hi := evict_initial weight pinned capacity charge usage l
    have hrt : r <+: (evict weight pinned capacity charge usage l).2 :=
      List.prefix_of_prefix_length_le hr hi hlt.le
    rw [List.prefix_iff_eq_take.mp hrt]
    exact evict_least weight pinned capacity charge usage l _ hlt

theorem evict_enough {usage : Nat} (l : List α) (h : usage + charge ≤ capacity) :
    evict weight pinned capacity charge usage l = (l, []) := by
  cases l with
  | nil => rfl
  | cons a l => rw [evict, if_pos h]

theorem evict_append (usage : Nat) (l r : List α) :
    (evict weight pinned capacity charge usage (l ++ r)).2 =
      (evict weight pinned capacity charge usage l).2 ++
        (evict weight pinned capacity charge
          (usage - total weight (evict weight pinned capacity charge usage l).2) r).2 := by
  induction l generalizing usage with
  | nil => rfl
  | cons a l ih =>
    rw [List.cons_append, evict, evict]
    by_cases hf : usage + charge ≤ capacity
    · rw [if_pos hf, if_pos hf, List.nil_append, show total weight [] = 0 from rfl, Nat.sub_zero,
        evict_enough _ _ _ _ r hf]
    · rw [if_neg hf, if_neg hf]
      by_cases hp : pinned a = true
      · rw [if_pos hp, if_pos hp, ih]
      · rw [if_neg hp, if_neg hp, ih, List.cons_append, total_cons, Nat.sub_sub]

theorem evict_filter {κ : Type} [DecidableEq κ] (name : α → κ) (usage : Nat) (l : List α)
    (hl : (l.map name).Nodup) :
    l.filter (fun a => name a ∉ (evict weight pinned capacity charge usage l).1.map name) =
      (evict weight pinned capacity charge usage l).2 := by
  induction l generalizing usage with
  | nil => rfl
  | cons a l ih =>
    rw [List.map_cons, List.nodup_cons] at hl
    rw [evict]
    split
    · rw [List.filter_eq_nil_iff]
      intro b hb
      simp only [decide_eq_true_eq, not_not]
      exact List.mem_map_of_mem hb
    · split
      · rw [List.filter_cons_of_neg (by simp), ← ih usage hl.2]
        apply List.filter_congr
        intro b hb
        have hne : name b ≠ name a := fun h => hl.1 (h ▸ List.mem_map_of_mem hb)
        simp [hne]
      · have ha : name a ∉ (evict weight pinned capacity charge (usage - weight a) l).1.map name :=
          fun hm => hl.1 (((evict_sublist weight pinned capacity charge _ l).map name).subset hm)
        rw [List.filter_cons_of_pos (by simpa using ha), ih _ hl.2]

end WiscKey.Evict
