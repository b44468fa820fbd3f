import Mathlib

namespace WiscKey.Runs

variable {σ τ α : Type*} {step : σ → α → σ} {p : σ → α → Prop}

/-- Every operation of a run meets a condition in the state it is issued in. -/
def Along (step : σ → α → σ) (p : σ → α → Prop) : σ → List α → Prop
  | _, [] => True
  | s, a :: as => p s a ∧ Along step p (step s a) as

instance decidableAlong [∀ s a, Decidable (p s a)] :
    ∀ (s : σ) (as : List α), Decidable (Along step p s as)
  | _, [] => inferInstanceAs (Decidable True)
  | s, a :: as => @instDecidableAnd _ _ _ (decidableAlong (step s a) as)

theorem along_append {s : σ} {as bs : List α} :
    Along step p s (as ++ bs) ↔ Along step p s as ∧ Along step p (as.foldl step s) bs := by
  induction as generalizing s with
  | nil => simp [Along]
  | cons a as ih => simp only [List.cons_append, Along, List.foldl_cons, ih, and_assoc]

theorem Along.initial {s : σ} {pre as : List α} (h : Along step p s as) (hpre : pre <+: as) :
    Along step p s pre := by
  obtain ⟨post, rfl⟩ := hpre
  exact (along_append.mp h).1

theorem along_iff_each {s : σ} {as : List α} :
    Along step p s as ↔ ∀ pre a, pre ++ [a] <+: as → p (pre.foldl step s) a := by
  constructor
  · intro h pre a hpre
    exact (along_append.mp (h.initial hpre)).2.1
  · intro h
    induction as generalizing s with
    | nil => trivial
    | cons a as ih =>
      refine ⟨h [] a (List.cons_prefix_cons.mpr ⟨rfl, List.nil_prefix⟩), ih ?_⟩
      intro pre b hpre
      exact h (a :: pre) b (List.cons_prefix_cons.mpr ⟨rfl, hpre⟩)

theorem along_of_forall {q : α → Prop} {s : σ} {as : List α} (hq : ∀ a ∈ as, q a) :
    Along step (fun _ a => q a) s as := by
  induction as generalizing s with
  | nil => trivial
  | cons a as ih =>
    have ha := List.forall_mem_cons.mp hq
    exact ⟨ha.1, ih ha.2⟩

theorem Along.and {q : α → Prop} {s : σ} {as : List α} (h : Along step p s as)
    (hq : ∀ a ∈ as, q a) : Along step (fun s a => p s a ∧ q a) s as := by
  induction as generalizing s with
  | nil => trivial
  | cons a as ih =>
    have ha := List.forall_mem_cons.mp hq
    exact ⟨⟨h.1, ha.1⟩, ih h.2 ha.2⟩

/-- Simulation over runs: a relation between two machines that one step keeps
is kept by every run that meets the condition. -/
theorem Along.simulates (spec : τ → α → τ) (R : σ → τ → Prop) {s : σ} {t : τ} {as : List α}
    (h : Along step p s as) (h0 : R s t)
    (hs : ∀ s t a, R s t → p s a → R (step s a) (spec t a)) :
    R (as.foldl step s) (as.foldl spec t) := by
  induction as generalizing s t with
  | nil => exact h0
  | cons a as ih => exact ih h.2 (hs s t a h0 h.1)

/-- The same for a machine whose steps may have no result. -/
theorem Along.simulates_run {f : τ → α → Option τ} (R : τ → σ → Prop) {s : σ} {t t' : τ}
    {as : List α} (h : Along step p s as) (h0 : R t s)
    (hs : ∀ t s a t', R t s → p s a → f t a = some t' → R t' (step s a))
    (hrun : as.foldlM f t = some t') : R t' (as.foldl step s) := by
  induction as generalizing s t with
  | nil =>
    cases hrun
    exact h0
  | cons a as ih =>
    rw [List.foldlM_cons] at hrun
    obtain ⟨u, hu, hrun⟩ := Option.bind_eq_some_iff.mp hrun
    exact ih h.2 (hs t s a u h0 h.1 hu) hrun

/-- A condition that one step meets just when it keeps an invariant is met along
a run just when the invariant holds in every state reached. -/
theorem along_iff_invariant {I J : σ → Prop} {q : α → Prop}
    (hJ : ∀ s a, J s → q a → J (step s a))
    (hI : ∀ s a, J s → I s → q a → (I (step s a) ↔ p s a)) {s : σ} {as : List α}
    (hq : ∀ a ∈ as, q a) (h0 : J s) (hi : I s) :
    Along step p s as ↔ ∀ pre, pre <+: as → I (pre.foldl step s) := by
  induction as generalizing s with
  | nil =>
    refine iff_of_true trivial ?_
    intro pre hpre
    rwa [List.prefix_nil.mp hpre]
  | cons a as ih =>
    have ha := List.forall_mem_cons.mp hq
    have hs := hI s a h0 hi ha.1
    constructor
    · rintro ⟨hp, has⟩ pre hpre
      obtain rfl | ⟨t, rfl, ht⟩ := List.prefix_cons_iff.mp hpre
      · exact hi
      · exact (ih ha.2 (hJ s a h0 ha.1) (hs.mpr hp)).mp has t ht
    · intro h
      have h1 := h [a] (List.prefix_cons_iff.mpr (Or.inr ⟨[], rfl, List.nil_prefix⟩))
      refine ⟨hs.mp h1, (ih ha.2 (hJ s a h0 ha.1) h1).mpr ?_⟩
      intro t ht
      exact h (a :: t) (List.prefix_cons_iff.mpr (Or.inr ⟨t, rfl, ht⟩))

theorem split_at {l : List α} {j : Nat} {a : α} (h : l[j]? = some a) :
    ∃ pre post, l = pre ++ a :: post ∧ ∀ b, l.set j b = pre ++ b :: post := by
  obtain ⟨hj, rfl⟩ := List.getElem?_eq_some_iff.mp h
  refine ⟨l.take j, l.drop (j + 1), ?_, ?_⟩
  · rw [List.getElem_cons_drop, List.take_append_drop]
  · intro b
    rw [List.set_eq_take_append_cons_drop, if_pos hj]

theorem sum_set (f : α → Nat) {l : List α} {j : Nat} {a : α} (h : l[j]? = some a) (b : α) :
    ((l.set j b).map f).sum + f a = (l.map f).sum + f b := by
  obtain ⟨pre, post, rfl, hset⟩ := split_at h
  rw [hset]
  simp only [List.map_append, List.map_cons, List.sum_append, List.sum_cons]
  omega

theorem sum_range_le_countP (p : α → Bool) (l : List α) {f : Nat → Nat}
    (h : ∀ j, f j ≤ if l[j]?.any p then 1 else 0) :
    ∑ j ∈ Finset.range l.length, f j ≤ l.countP p := by
  induction l generalizing f with
  | nil => exact Nat.le_refl _
  | cons a l ih =>
    have h0 : f 0 ≤ if p a then 1 else 0 := h 0
    have hl := @ih (fun j => f (j + 1)) fun j => h (j + 1)
    rw [List.length_cons, Finset.sum_range_succ', List.countP_cons]
    omega

theorem sum_range_change {f g : Nat → Nat} {n j : Nat} (hj : j < n) (h : ∀ i, i ≠ j → f i = g i) :
    ∑ i ∈ Finset.range n, f i + g j = ∑ i ∈ Finset.range n, g i + f j := by
  have hm := Finset.mem_range.mpr hj
  have hc : ∑ i ∈ (Finset.range n).erase j, f i = ∑ i ∈ (Finset.range n).erase j, g i :=
    Finset.sum_congr rfl fun i hi => h i (Finset.ne_of_mem_erase hi)
  rw [← Finset.add_sum_erase _ f hm, ← Finset.add_sum_erase _ g hm, hc]
  omega

theorem countP_set_same {f : α → Bool} {l : List α} {j : Nat} {a b : α} (h : l[j]? = some a)
    (hf : f b = f a) : (l.set j b).countP f = l.countP f := by
  obtain ⟨pre, post, rfl, hset⟩ := split_at h
  rw [hset, List.countP_append, List.countP_append, List.countP_cons, List.countP_cons, hf]

theorem countP_set_gain {f : α → Bool} {l : List α} {j : Nat} {a b : α} (h : l[j]? = some a)
    (ha : f a = false) (hb : f b = true) : (l.set j b).countP f = l.countP f + 1 := by
  obtain ⟨pre, post, rfl, hset⟩ := split_at h
  rw [hset]
  simp [ha, hb, Nat.add_assoc]

theorem countP_set_loss {f : α → Bool} {l : List α} {j : Nat} {a b : α} (h : l[j]? = some a)
    (ha : f a = true) (hb : f b = false) : (l.set j b).countP f + 1 = l.countP f := by
  obtain ⟨pre, post, rfl, hset⟩ := split_at h
  rw [hset]
  simp [ha, hb, Nat.add_assoc]

theorem foldlM_initial {f : σ → α → Option σ} {s s' : σ} {pre as : List α}
    (h : as.foldlM f s = some s') (hpre : pre <+: as) : ∃ t, pre.foldlM f s = some t := by
  obtain ⟨post, rfl⟩ := hpre
  rw [List.foldlM_append] at h
  obtain ⟨t, ht, -⟩ := Option.bind_eq_some_iff.mp h
  exact ⟨t, ht⟩

/-- The conditions along a run of a machine whose steps may have no result. -/
def AlongM (f : σ → α → Option σ) (p : σ → α → Prop) : σ → List α → Prop
  | _, [] => True
  | s, a :: as => p s a ∧ ∀ t ∈ f s a, AlongM f p t as

instance decidableAlongM {f : σ → α → Option σ} [∀ s a, Decidable (p s a)] :
    ∀ (s : σ) (as : List α), Decidable (AlongM f p s as)
  | _, [] => inferInstanceAs (Decidable True)
  | s, a :: as => @instDecidableAnd _ _ _
      (@Option.decidableForallMem _ _ (fun t => decidableAlongM t as) (f s a))

theorem AlongM.and {f : σ → α → Option σ} {q : σ → α → Prop} {s : σ} {as : List α}
    (hp : AlongM f p s as) (hq : AlongM f q s as) : AlongM f (fun s a => p s a ∧ q s a) s as := by
  induction as generalizing s with
  | nil => trivial
  | cons a as ih => exact ⟨⟨hp.1, hq.1⟩, fun t ht => ih (hp.2 t ht) (hq.2 t ht)⟩

theorem alongM_iff_isSome {f : σ → α → Option σ} (h : ∀ s a, p s a ↔ (f s a).isSome) {s : σ}
    {as : List α} : AlongM f p s as ↔ (as.foldlM f s).isSome := by
  induction as generalizing s with
  | nil => exact iff_of_true trivial rfl
  | cons a as ih =>
    rw [AlongM, h, List.foldlM_cons]
    cases hs : f s a with
    | none => simp
    | some t => simp [ih]

theorem foldlM_backward {f : σ → α → Option σ} {K : σ → Prop}
    (hK : ∀ s a s', K s' → f s a = some s' → K s) {s s' : σ} {as : List α}
    (h : as.foldlM f s = some s') (hk : K s') : K s := by
  induction as generalizing s with
  | nil =>
    cases h
    exact hk
  | cons a as ih =>
    rw [List.foldlM_cons] at h
    obtain ⟨t, ht, h⟩ := Option.bind_eq_some_iff.mp h
    exact hK s a t (ih h) ht

/-- A condition that one step meets just when it keeps `I` is met along a run
just when `I` holds in every state reached. -/
theorem alongM_iff_invariant {f : σ → α → Option σ} {I J K : σ → Prop}
    (hK : ∀ s a s', K s' → f s a = some s' → K s)
    (hJ : ∀ s a s', J s → K s' → f s a = some s' → J s')
    (hI : ∀ s a s', J s → K s' → I s → f s a = some s' → (I s' ↔ p s a)) {s s' : σ} {as : List α}
    (h0 : J s) (hi : I s) (hrun : as.foldlM f s = some s') (hk : K s') :
    AlongM f p s as ↔ ∀ pre t, pre <+: as → pre.foldlM f s = some t → I t := by
  induction as generalizing s with
  | nil =>
    refine iff_of_true trivial ?_
    intro pre t hpre ht
    rw [List.prefix_nil.mp hpre] at ht
    cases ht
    exact hi
  | cons a as ih =>
    rw [List.foldlM_cons] at hrun
    obtain ⟨u, hu, hrun⟩ := Option.bind_eq_some_iff.mp hrun
    have hku : K u := foldlM_backward hK hrun hk
    have hs := hI s a u h0 hku hi hu
    have hcons : ∀ pre t, pre.foldlM f u = some t → (a :: pre).foldlM f s = some t := by
      intro pre t ht
      rw [List.foldlM_cons, hu]
      exact ht
    have hju := hJ s a u h0 hku hu
    rw [AlongM, hu]
    constructor
    · rintro ⟨hp, has⟩ pre t hpre ht
      obtain rfl | ⟨rest, rfl, hrest⟩ := List.prefix_cons_iff.mp hpre
      · cases ht
        exact hi
      · rw [List.foldlM_cons, hu] at ht
        exact (ih hju (hs.mpr hp) hrun).mp (has u rfl) rest t hrest ht
    · intro h
      have h1 : I u := h [a] u (List.cons_prefix_cons.mpr ⟨rfl, List.nil_prefix⟩)
        (hcons [] u rfl)
      refine ⟨hs.mp h1, ?_⟩
      rintro _ ⟨⟩
      refine (ih hju h1 hrun).mpr (fun pre t hpre ht => ?_)
      exact h (a :: pre) t (List.cons_prefix_cons.mpr ⟨rfl, hpre⟩) (hcons pre t ht)

/-- What a partial step keeps is kept by every run that goes through. -/
theorem foldlM_invariant {f : σ → α → Option σ} {I : σ → Prop} {as : List α}
    (hf : ∀ s, ∀ a ∈ as, ∀ s', I s → f s a = some s' → I s') {s s' : σ} (h0 : I s)
    (h : as.foldlM f s = some s') : I s' := by
  induction as generalizing s with
  | nil =>
    cases h
    exact h0
  | cons a as ih =>
    rw [List.foldlM_cons] at h
    obtain ⟨t, ht, h⟩ := Option.bind_eq_some_iff.mp h
    exact ih (fun s b hb => hf s b (List.mem_cons_of_mem a hb))
      (hf s a List.mem_cons_self t h0 ht) h

theorem AlongM.keeps {f : σ → α → Option σ} {I : σ → Prop} {as : List α}
    (hf : ∀ s, ∀ a ∈ as, ∀ s', I s → p s a → f s a = some s' → I s') {s s' : σ}
    (hp : AlongM f p s as) (h0 : I s) (h : as.foldlM f s = some s') : I s' := by
  induction as generalizing s with
  | nil =>
    cases h
    exact h0
  | cons a as ih =>
    rw [List.foldlM_cons] at h
    obtain ⟨t, ht, h⟩ := Option.bind_eq_some_iff.mp h
    exact ih (fun s b hb => hf s b (List.mem_cons_of_mem a hb)) (hp.2 t ht)
      (hf s a List.mem_cons_self t h0 hp.1 ht) h

/-- A machine whose steps have a result whenever the condition is met refines
another one. -/
theorem AlongM.refines {f : σ → α → Option σ} (spec : τ → α → τ) (R : σ → τ → Prop) {s : σ} {t : τ}
    {as : List α} (hp : AlongM f p s as) (h0 : R s t)
    (hs : ∀ s t a, R s t → p s a → ∃ s', f s a = some s' ∧ R s' (spec t a)) :
    ∃ s', as.foldlM f s = some s' ∧ R s' (as.foldl spec t) := by
  induction as generalizing s t with
  | nil => exact ⟨s, rfl, h0⟩
  | cons a as ih =>
    obtain ⟨s', hf, hr⟩ := hs s t a h0 hp.1
    rw [List.foldlM_cons, hf]
    exact ih (hp.2 s' hf) hr

theorem AlongM.simulates {f : σ → α → Option σ} (spec : τ → α → τ) (R : σ → τ → Prop) {s s' : σ}
    {t : τ} {as : List α} (hp : AlongM f p s as) (h0 : R s t)
    (hs : ∀ s t a s', R s t → p s a → f s a = some s' → R s' (spec t a))
    (h : as.foldlM f s = some s') : R s' (as.foldl spec t) := by
  induction as generalizing s t with
  | nil =>
    cases h
    exact h0
  | cons a as ih =>
    rw [List.foldlM_cons] at h
    obtain ⟨u, hu, h⟩ := Option.bind_eq_some_iff.mp h
    exact ih (hp.2 u hu) (hs s t a u h0 hp.1 hu) h

theorem AlongM.append {f : σ → α → Option σ} {s t : σ} {as bs : List α}
    (hp : AlongM f p s (as ++ bs)) (h : as.foldlM f s = some t) :
    AlongM f p s as ∧ AlongM f p t bs := by
  induction as generalizing s with
  | nil =>
    cases h
    exact ⟨trivial, hp⟩
  | cons a as ih =>
    rw [List.foldlM_cons] at h
    obtain ⟨u, hu, h⟩ := Option.bind_eq_some_iff.mp h
    have hs := ih (hp.2 u hu) h
    refine ⟨⟨hp.1, fun v hv => ?_⟩, hs.2⟩
    rw [hu] at hv
    cases hv
    exact hs.1

section Lockstep

variable {f : σ → α → Option σ} {g : τ → α → Option τ} {R : σ → τ → Prop}

/-- A machine that has a step whenever another one has, as long as the condition
is met, has a run whenever the other one has. -/
theorem AlongM.follows {as : List α}
    (hs : ∀ s t, ∀ a ∈ as, ∀ t', R s t → p s a → g t a = some t' → ∃ s', f s a = some s' ∧ R s' t')
    {s : σ} {t t' : τ} (hp : AlongM f p s as) (h0 : R s t) (h : as.foldlM g t = some t') :
    ∃ s', as.foldlM f s = some s' ∧ R s' t' := by
  induction as generalizing s t with
  | nil =>
    cases h
    exact ⟨s, rfl, h0⟩
  | cons a as ih =>
    rw [List.foldlM_cons] at h
    obtain ⟨u, hu, h⟩ := Option.bind_eq_some_iff.mp h
    obtain ⟨v, hv, hr⟩ := hs s t a List.mem_cons_self u h0 hp.1 hu
    rw [List.foldlM_cons, hv]
    exact ih (fun s t b hb => hs s t b (List.mem_cons_of_mem a hb)) (hp.2 v hv) hr h

/-- If one step keeps an agreement with another machine just when a condition on
that one is met, a run ends in agreement just when it is met all along. -/
theorem foldlM_agrees_iff {E : σ → τ → Prop} {q : τ → α → Prop} {as : List α}
    (hs : ∀ s t, ∀ a ∈ as, ∀ t', R s t → g t a = some t' → (f s a = none ∧ ¬q t a) ∨
      ∃ s', f s a = some s' ∧ R s' t' ∧ (E s' t' ↔ E s t ∧ q t a))
    {s : σ} {t t' : τ} (h0 : R s t) (h : as.foldlM g t = some t') :
    (∃ s', as.foldlM f s = some s' ∧ E s' t') ↔ E s t ∧ AlongM g q t as := by
  induction as generalizing s t with
  | nil =>
    cases h
    simp [AlongM]
  | cons a as ih =>
    rw [List.foldlM_cons] at h
    obtain ⟨u, hu, h⟩ := Option.bind_eq_some_iff.mp h
    rw [AlongM, hu, List.foldlM_cons]
    obtain ⟨hf, hq⟩ | ⟨v, hv, hr, he⟩ := hs s t a List.mem_cons_self u h0 hu
    · simp [hf, hq]
    · have hrest := ih (fun s t b hb => hs s t b (List.mem_cons_of_mem a hb)) hr h
      rw [hv, Option.bind_eq_bind, Option.bind_some, hrest, he, and_assoc]
      simp

end Lockstep

section Bounded

variable {f : σ → α → Option σ} {I : σ → Prop} {left : σ → Nat}
  (hf : ∀ s a s', I s → f s a = some s' → I s' ∧ left s = left s' + 1)

include hf

/-- If every step uses up one unit, a run has no more steps than units. -/
theorem foldlM_length {as : List α} {s s' : σ} (h0 : I s) (h : as.foldlM f s = some s') :
    left s = left s' + as.length := by
  induction as generalizing s with
  | nil =>
    cases h
    rfl
  | cons a as ih =>
    rw [List.foldlM_cons] at h
    obtain ⟨t, ht, h⟩ := Option.bind_eq_some_iff.mp h
    obtain ⟨hi, hl⟩ := hf s a t h0 ht
    rw [hl, ih hi h, List.length_cons, Nat.add_assoc]

/-- If there is a step as long as a unit is left, runs can be completed. -/
theorem foldlM_complete (hp : ∀ s, I s → 0 < left s → ∃ a s', f s a = some s') {s : σ}
    (h0 : I s) : ∃ (as : List α) (s' : σ), as.foldlM f s = some s' ∧ left s' = 0 := by
  generalize hn : left s = n
  induction n generalizing s with
  | zero => exact ⟨[], s, rfl, hn⟩
  | succ n ih =>
    obtain ⟨a, t, ha⟩ := hp s h0 (by omega)
    obtain ⟨hi, hl⟩ := hf s a t h0 ha
    obtain ⟨as, s', has, hz⟩ := ih hi (by omega)
    refine ⟨a :: as, s', ?_, hz⟩
    rw [List.foldlM_cons, ha]
    exact has

end Bounded

end WiscKey.Runs
