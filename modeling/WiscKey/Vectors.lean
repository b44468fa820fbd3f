import Mathlib

namespace WiscKey.Vectors

variable {α : Type*}

def lowerBound [LE α] [DecidableLE α] (l : List α) (x : α) : Nat := l.findIdx (fun y => x ≤ y)

def upperBound [LT α] [DecidableLT α] (l : List α) (x : α) : Nat := l.findIdx (fun y => x < y)

theorem take_findIdx {p : α → Bool} {l : List α}
    (h : l.Pairwise (fun a b => p a = true → p b = true)) :
    l.take (l.findIdx p) = l.filter (fun a => !p a) ∧ l.drop (l.findIdx p) = l.filter p := by
  induction l with
  | nil => exact ⟨rfl, rfl⟩
  | cons a l ih =>
    obtain ⟨ha, hl⟩ := List.pairwise_cons.mp h
    cases hp : p a with
    | true =>
      have hall : ∀ b ∈ a :: l, p b = true := List.forall_mem_cons.mpr ⟨hp, fun b hb => ha b hb hp⟩
      rw [List.findIdx_cons, hp, List.filter_eq_self.mpr hall, List.filter_eq_nil_iff.mpr]
      · exact ⟨rfl, rfl⟩
      · intro b hb
        simp [hall b hb]
    | false =>
      obtain ⟨ht, hd⟩ := ih hl
      simp [List.findIdx_cons, hp, ht, hd]

theorem findIdx_eq_countP {p : α → Bool} {l : List α}
    (h : l.Pairwise (fun a b => p a = true → p b = true)) :
    l.findIdx p = l.countP (fun a => !p a) := by
  rw [List.countP_eq_length_filter, ← (take_findIdx h).1, List.length_take,
    Nat.min_eq_left List.findIdx_le_length]

theorem findIdx_le_iff {p : α → Bool} {l : List α}
    (h : l.Pairwise (fun a b => p a = true → p b = true)) {i : Nat} (hi : i < l.length) :
    l.findIdx p ≤ i ↔ p l[i] = true := by
  constructor
  · intro hle
    have hlen := hle.trans_lt hi
    have hp : p l[l.findIdx p] = true := List.findIdx_getElem
    obtain hlt | heq := Nat.lt_or_eq_of_le hle
    · exact List.pairwise_iff_getElem.mp h _ i hlen hi hlt hp
    · simpa only [heq] using hp
  · intro hp
    by_contra hlt
    have hn := List.not_of_lt_findIdx (Nat.lt_of_not_le hlt)
    rw [hp] at hn
    cases hn

section Search

variable [LE α] [LT α] [Std.IsLinearOrder α] [Std.LawfulOrderLT α] {l : List α} {x y : α}

omit [LT α] [Std.LawfulOrderLT α] in
theorem lowerBound_eq_countP [DecidableLE α] (h : l.Pairwise (fun a b => a ≤ b)) :
    lowerBound l x = l.countP (fun a => !decide (x ≤ a)) := by
  refine findIdx_eq_countP (h.imp ?_)
  intro a b hab ha
  simpa using Std.le_trans (of_decide_eq_true ha) hab

theorem upperBound_eq_countP [DecidableLT α] (h : l.Pairwise (fun a b => a ≤ b)) :
    upperBound l x = l.countP (fun a => !decide (x < a)) := by
  refine findIdx_eq_countP (h.imp ?_)
  intro a b hab ha
  simpa using Std.lt_of_lt_of_le (of_decide_eq_true ha) hab

theorem lowerBound_add [DecidableLE α] [DecidableLT α] (h : l.Pairwise (fun a b => a ≤ b))
    (hxy : x ≤ y) :
    lowerBound l x + l.countP (fun a => x ≤ a ∧ a ≤ y) = upperBound l y := by
  rw [lowerBound_eq_countP h, upperBound_eq_countP h]
  clear h
  induction l with
  | nil => rfl
  | cons a l ih =>
    simp only [List.countP_cons, ← ih]
    by_cases hx : x ≤ a
    · by_cases hy : a ≤ y
      · have hn : ¬y < a := Std.not_lt.mpr hy
        simp [hx, hy, hn]
        omega
      · have hn : y < a := Std.not_le.mp hy
        simp [hx, hy, hn]
    · have hn : ¬y < a := Std.not_lt.mpr (Std.le_trans (Std.le_of_lt (Std.not_le.mp hx)) hxy)
      simp [hx, hn]
      omega

theorem upperBound_add [DecidableLT α] (h : l.Pairwise (fun a b => a ≤ b)) :
    upperBound l y + l.countP (fun a => y < a) = l.length := by
  rw [upperBound_eq_countP h, Nat.add_comm,
    List.length_eq_countP_add_countP (fun a => decide (y < a))]
  congr 2
  funext a
  simp

theorem mem_slice [DecidableLE α] [DecidableLT α] (h : l.Pairwise (fun a b => a ≤ b)) {a : α} :
    a ∈ (l.take (upperBound l y)).drop (lowerBound l x) ↔ a ∈ l ∧ x ≤ a ∧ a ≤ y := by
  have hlow : ∀ {i : Nat} (hi : i < l.length), lowerBound l x ≤ i ↔ x ≤ l[i] := by
    intro i hi
    rw [lowerBound, findIdx_le_iff _ hi, decide_eq_true_eq]
    refine h.imp ?_
    intro a b hab ha
    simpa using Std.le_trans (of_decide_eq_true ha) hab
  have hup : ∀ {i : Nat} (hi : i < l.length), i < upperBound l y ↔ l[i] ≤ y := by
    intro i hi
    rw [← Std.not_lt, ← Nat.not_le, upperBound, findIdx_le_iff _ hi, decide_eq_true_eq]
    refine h.imp ?_
    intro a b hab ha
    simpa using Std.lt_of_lt_of_le (of_decide_eq_true ha) hab
  rw [List.mem_iff_getElem?, List.mem_iff_getElem?]
  constructor
  · rintro ⟨i, hi⟩
    rw [List.getElem?_drop, List.getElem?_take] at hi
    split at hi
    · rename_i hlt
      obtain ⟨hlen, rfl⟩ := List.getElem?_eq_some_iff.mp hi
      exact ⟨⟨_, hi⟩, (hlow hlen).mp (Nat.le_add_right _ _), (hup hlen).mp hlt⟩
    · cases hi
  · rintro ⟨⟨i, hi⟩, hx, hy⟩
    obtain ⟨hlen, rfl⟩ := List.getElem?_eq_some_iff.mp hi
    have hle := (hlow hlen).mpr hx
    refine ⟨i - lowerBound l x, ?_⟩
    rw [List.getElem?_drop, Nat.add_sub_cancel' hle, List.getElem?_take, if_pos ((hup hlen).mpr hy)]
    exact hi

end Search

/-- `erase` of a range of positions, undefined past the end. -/
def eraseRange (l : List α) (r : Nat × Nat) : Option (List α) :=
  if r.1 ≤ r.2 ∧ r.2 ≤ l.length then some (l.take r.1 ++ l.drop r.2) else none

/-- Ranges erased one after the other from the last to the first, at the
positions they had before. -/
def eraseRanges (l : List α) (rs : List (Nat × Nat)) : Option (List α) :=
  rs.reverse.foldlM eraseRange l

/-- No range is past the end by the time it is erased. -/
def Erasable (n : Nat) : List (Nat × Nat) → Prop
  | [] => True
  | r :: rs => (r.1 ≤ r.2 ∧ r.2 + (rs.map fun r => r.2 - r.1).sum ≤ n) ∧ Erasable n rs

variable {l l' : List α}

theorem eraseRange_eq_some {r : Nat × Nat} (h : eraseRange l r = some l') :
    l' ⊆ l ∧ l'.length + (r.2 - r.1) = l.length := by
  obtain ⟨hr, he⟩ := Option.ite_none_right_eq_some.mp h
  cases he
  constructor
  · intro a ha
    obtain ha | ha := List.mem_append.mp ha
    · exact List.mem_of_mem_take ha
    · exact List.mem_of_mem_drop ha
  · rw [List.length_append, List.length_take, List.length_drop]
    omega

theorem eraseRanges_cons (l : List α) (r : Nat × Nat) (rs : List (Nat × Nat)) :
    eraseRanges l (r :: rs) = (eraseRanges l rs).bind fun l => eraseRange l r := by
  rw [eraseRanges, List.reverse_cons, List.foldlM_append]
  refine Option.bind_congr ?_
  intro l' _
  simp

theorem eraseRanges_eq_some {rs : List (Nat × Nat)} (h : eraseRanges l rs = some l') :
    l' ⊆ l ∧ l'.length + (rs.map fun r => r.2 - r.1).sum = l.length := by
  induction rs generalizing l' with
  | nil =>
    cases h
    exact ⟨List.Subset.refl _, rfl⟩
  | cons r rs ih =>
    rw [eraseRanges_cons] at h
    obtain ⟨m, hm, h⟩ := Option.bind_eq_some_iff.mp h
    obtain ⟨hs, hl⟩ := ih hm
    obtain ⟨hs', hl'⟩ := eraseRange_eq_some h
    refine ⟨fun a ha => hs (hs' ha), ?_⟩
    rw [List.map_cons, List.sum_cons]
    omega

theorem eraseRanges_isSome {rs : List (Nat × Nat)} :
    (eraseRanges l rs).isSome ↔ Erasable l.length rs := by
  induction rs with
  | nil => exact iff_of_true rfl trivial
  | cons r rs ih =>
    rw [eraseRanges_cons, Erasable, ← ih]
    cases h : eraseRanges l rs with
    | none => simp
    | some m =>
      have hl := (eraseRanges_eq_some h).2
      simp only [Option.bind_some, eraseRange, Option.isSome_some, and_true]
      split
      · simp only [Option.isSome_some, true_iff]
        omega
      · simp only [Option.isSome_none, Bool.false_eq_true, false_iff]
        omega

theorem countP_or_add (p q : α → Bool) :
    l.countP (fun a => p a || q a) + l.countP (fun a => p a && q a) = l.countP p + l.countP q := by
  induction l with
  | nil => rfl
  | cons a l ih =>
    simp only [List.countP_cons]
    cases p a with
    | true => cases q a <;> simp <;> omega
    | false => cases q a <;> simp <;> omega

variable {β : Type*}

theorem countP_any_le (P : β → α → Bool) (fs : List β) :
    l.countP (fun a => fs.any (P · a)) ≤ (fs.map fun f => l.countP (P f)).sum := by
  induction fs with
  | nil => simp
  | cons f fs ih =>
    have h := countP_or_add (l := l) (P f) (fun a => fs.any (P · a))
    simp only [List.any_cons, List.map_cons, List.sum_cons]
    omega

theorem sum_countP_eq_iff (P : β → α → Bool) (fs : List β) :
    (fs.map fun f => l.countP (P f)).sum = l.countP (fun a => fs.any (P · a)) ↔
      fs.Pairwise (fun f g => ∀ a ∈ l, ¬ (P f a = true ∧ P g a = true)) := by
  induction fs with
  | nil => simp
  | cons f fs ih =>
    have h := countP_or_add (l := l) (P f) (fun a => fs.any (P · a))
    have hle := countP_any_le (l := l) P fs
    have h0 : l.countP (fun a => P f a && fs.any (P · a)) = 0 ↔
        ∀ g ∈ fs, ∀ a ∈ l, ¬ (P f a = true ∧ P g a = true) := by
      rw [List.countP_eq_zero]
      simp only [Bool.and_eq_true, List.any_eq_true, not_and, not_exists]
      exact ⟨fun h g hg a ha hf => h a ha hf g hg, fun h a ha hf g hg => h g hg a ha hf⟩
    rw [List.pairwise_cons, ← h0, ← ih]
    simp only [List.any_cons, List.map_cons, List.sum_cons]
    omega

section Ranges

variable [LE α] [LT α] [Std.IsLinearOrder α] [Std.LawfulOrderLT α] [DecidableLE α] [DecidableLT α]

def covered (fs : List (α × α)) (a : α) : Bool := fs.any fun f => decide (f.1 ≤ a ∧ a ≤ f.2)

omit [LT α] [Std.IsLinearOrder α] [Std.LawfulOrderLT α] [DecidableLT α] in
theorem covered_iff {fs : List (α × α)} {a : α} :
    covered fs a = true ↔ ∃ f ∈ fs, f.1 ≤ a ∧ a ≤ f.2 := by
  simp [covered]

theorem filter_covered {f : α × α} {fs : List (α × α)} (hs : l.Pairwise (fun a b => a ≤ b))
    (hf : ∀ g ∈ fs, f.1 ≤ g.1)
    (hd : ∀ g ∈ fs, ∀ a ∈ l, ¬ ((f.1 ≤ a ∧ a ≤ f.2) ∧ g.1 ≤ a ∧ a ≤ g.2)) :
    (l.filter fun a => !covered fs a) =
      l.take (upperBound l f.2) ++ (l.drop (upperBound l f.2)).filter fun a => !covered fs a := by
  obtain ⟨htake, -⟩ := take_findIdx (p := fun a => decide (f.2 < a))
    (hs.imp fun hab ha => by simpa using Std.lt_of_lt_of_le (of_decide_eq_true ha) hab)
  have hself : (l.take (upperBound l f.2)).filter (fun a => !covered fs a) =
      l.take (upperBound l f.2) := by
    rw [List.filter_eq_self]
    intro a ha
    rw [upperBound, htake, List.mem_filter] at ha
    rw [Bool.not_eq_true', ← Bool.not_eq_true, covered_iff]
    rintro ⟨g, hg, hlo, hhi⟩
    have hle : a ≤ f.2 := Std.not_lt.mp (by simpa using ha.2)
    exact hd g hg a ha.1 ⟨⟨Std.le_trans (hf g hg) hlo, hle⟩, hlo, hhi⟩
  conv_lhs => rw [← List.take_append_drop (upperBound l f.2) l]
  rw [List.filter_append, hself]

theorem filter_covered_cons {f : α × α} {fs : List (α × α)} (hs : l.Pairwise (fun a b => a ≤ b))
    (ho : f.1 ≤ f.2) (hf : ∀ g ∈ fs, f.1 ≤ g.1) :
    (l.filter fun a => !covered (f :: fs) a) =
      l.take (lowerBound l f.1) ++
        (l.drop (upperBound l f.2)).filter fun a => !covered fs a := by
  obtain ⟨htake, hdrop⟩ := take_findIdx (p := fun a => decide (f.2 < a))
    (hs.imp fun hab ha => by simpa using Std.lt_of_lt_of_le (of_decide_eq_true ha) hab)
  obtain ⟨hlow, -⟩ := take_findIdx (p := fun a => decide (f.1 ≤ a))
    (hs.imp fun hab ha => by simpa using Std.le_trans (of_decide_eq_true ha) hab)
  conv_lhs => rw [← List.take_append_drop (upperBound l f.2) l]
  rw [List.filter_append, upperBound, htake, hdrop, lowerBound, hlow, List.filter_filter,
    List.filter_filter, List.filter_filter]
  congr 1
  · apply List.filter_congr
    intro a _
    rw [Bool.eq_iff_iff]
    simp only [Bool.and_eq_true, Bool.not_eq_true', ← Bool.not_eq_true, covered_iff,
      decide_eq_true_eq, List.mem_cons, exists_eq_or_imp, not_or]
    constructor
    · rintro ⟨⟨hin, -⟩, hup⟩ hle
      exact hin ⟨hle, Std.not_lt.mp hup⟩
    · intro hn
      have hlt := Std.not_le.mp hn
      refine ⟨⟨fun h => hn h.1, ?_⟩, Std.not_lt.mpr (Std.le_trans (Std.le_of_lt hlt) ho)⟩
      rintro ⟨g, hg, hlo, -⟩
      exact hn (Std.le_trans (hf g hg) hlo)
  · apply List.filter_congr
    intro a _
    rw [Bool.eq_iff_iff]
    simp only [Bool.and_eq_true, Bool.not_eq_true', ← Bool.not_eq_true, covered_iff,
      decide_eq_true_eq, List.mem_cons, exists_eq_or_imp, not_or]
    constructor
    · exact fun h => ⟨h.1.2, h.2⟩
    · rintro ⟨hc, hlt⟩
      exact ⟨⟨fun h => Std.not_le.mpr hlt h.2, hc⟩, hlt⟩

/-- Ranges in the order of their starts that share no element are erased as they
should be. -/
theorem eraseRanges_filter (hs : l.Pairwise (fun a b => a ≤ b)) {fs : List (α × α)}
    (ho : ∀ f ∈ fs, f.1 ≤ f.2) (hf : fs.Pairwise (fun f g => f.1 ≤ g.1))
    (hd : fs.Pairwise (fun f g => ∀ a ∈ l, ¬ ((f.1 ≤ a ∧ a ≤ f.2) ∧ g.1 ≤ a ∧ a ≤ g.2))) :
    eraseRanges l (fs.map fun f => (lowerBound l f.1, upperBound l f.2)) =
      some (l.filter fun a => !covered fs a) := by
  induction fs with
  | nil =>
    rw [List.map_nil, List.filter_eq_self.mpr (by simp [covered])]
    rfl
  | cons f fs ih =>
    obtain ⟨hf1, hfs⟩ := List.pairwise_cons.mp hf
    obtain ⟨hd1, hds⟩ := List.pairwise_cons.mp hd
    obtain ⟨ho1, hos⟩ := List.forall_mem_cons.mp ho
    have hle : lowerBound l f.1 ≤ upperBound l f.2 := by
      rw [← lowerBound_add hs ho1]
      exact Nat.le_add_right _ _
    have hlen : (l.take (upperBound l f.2)).length = upperBound l f.2 := by
      rw [List.length_take]
      exact Nat.min_eq_left List.findIdx_le_length
    rw [List.map_cons, eraseRanges_cons, ih hos hfs hds, Option.bind_some, eraseRange,
      filter_covered hs hf1 hd1, if_pos, filter_covered_cons hs ho1 hf1]
    · rw [List.take_append_of_le_length (hle.trans_eq hlen.symm), List.take_take,
        Nat.min_eq_left hle, List.drop_append_of_le_length hlen.ge, List.drop_eq_nil_of_le hlen.le,
        List.nil_append]
    · refine ⟨hle, ?_⟩
      rw [List.length_append, hlen]
      exact Nat.le_add_right _ _

theorem eraseRanges_filter_iff (hs : l.Pairwise (fun a b => a ≤ b)) {fs : List (α × α)}
    (ho : ∀ f ∈ fs, f.1 ≤ f.2) (hf : fs.Pairwise (fun f g => f.1 ≤ g.1)) :
    eraseRanges l (fs.map fun f => (lowerBound l f.1, upperBound l f.2)) =
        some (l.filter fun a => !covered fs a) ↔
      fs.Pairwise (fun f g => ∀ a ∈ l, ¬ ((f.1 ≤ a ∧ a ≤ f.2) ∧ g.1 ≤ a ∧ a ≤ g.2)) := by
  refine ⟨fun h => ?_, eraseRanges_filter hs ho hf⟩
  -- the erases together remove each element as often as a range has it
  have hlen := (eraseRanges_eq_some h).2
  have hsum : ((fs.map fun f => (lowerBound l f.1, upperBound l f.2)).map fun r => r.2 - r.1) =
      fs.map fun f => l.countP fun a => decide (f.1 ≤ a ∧ a ≤ f.2) := by
    rw [List.map_map]
    refine List.map_congr_left (fun f hm => ?_)
    rw [Function.comp_apply, ← lowerBound_add hs (ho f hm), Nat.add_sub_cancel_left]
  have hall : l.countP (covered fs) + (l.filter fun a => !covered fs a).length = l.length := by
    rw [List.length_eq_countP_add_countP (covered fs) (l := l), ← List.countP_eq_length_filter]
    simp
  rw [hsum] at hlen
  have hcount := (sum_countP_eq_iff (l := l) (fun (f : α × α) a => decide (f.1 ≤ a ∧ a ≤ f.2))
    fs).mp (show _ = l.countP (covered fs) by omega)
  simpa only [decide_eq_true_eq] using hcount

end Ranges

end WiscKey.Vectors
