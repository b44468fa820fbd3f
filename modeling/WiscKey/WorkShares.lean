import Mathlib

namespace WiscKey.WorkShares

variable {α : Type*}

/-- The items a worker has left. While it is busy, the first one is started
but not done. -/
structure Share (α : Type*) where
  todo : List α
  busy : Bool

def Share.started (w : Share α) : List α := if w.busy then w.todo.take 1 else []

/-- The items done and those left with the workers are all the items, and what
was started is what is done or under way. -/
structure Account (all started done : List α) (ws : List (Share α)) : Prop where
  all_perm : (done ++ ws.flatMap Share.todo).Perm all
  started_perm : started.Perm (done ++ ws.flatMap Share.started)

theorem account_begin {all started done l : List α} {a : α} {pre post : List (Share α)}
    (h : Account all started done (pre ++ ⟨a :: l, false⟩ :: post)) :
    Account all (started ++ [a]) done (pre ++ ⟨a :: l, true⟩ :: post) where
  all_perm := by simpa using h.all_perm
  started_perm := by
    have hp := h.started_perm
    simp only [List.flatMap_append, List.flatMap_cons, Share.started, Bool.false_eq_true,
      ↓reduceIte, List.nil_append, List.take_succ_cons, List.take_zero, List.cons_append] at hp ⊢
    refine (List.perm_append_singleton a started).trans ((hp.cons a).trans ?_)
    rw [← List.append_assoc, ← List.append_assoc]
    exact List.perm_middle.symm

theorem account_finish {all started done l : List α} {a : α} {pre post : List (Share α)}
    (h : Account all started done (pre ++ ⟨a :: l, true⟩ :: post)) :
    Account all started (done ++ [a]) (pre ++ ⟨l, false⟩ :: post) where
  all_perm := by
    refine List.Perm.trans ?_ h.all_perm
    simp only [List.flatMap_append, List.flatMap_cons, List.append_assoc, List.cons_append,
      List.nil_append]
    exact List.Perm.append_left done List.perm_middle.symm
  started_perm := by
    refine h.started_perm.trans ?_
    simp only [List.flatMap_append, List.flatMap_cons, Share.started, Bool.false_eq_true,
      ↓reduceIte, List.nil_append, List.take_succ_cons, List.take_zero, List.cons_append,
      List.append_assoc]
    exact List.Perm.append_left done List.perm_middle

theorem account_last {β : Type*} {f : α → β} {all started done : List α} {a : α}
    {ws : List (Share α)} (h : Account all started (done ++ [a]) ws) (hn : (all.map f).Nodup) :
    f a ∉ done.map f ∧ ∀ w ∈ ws, ∀ c ∈ w.todo, f a ≠ f c := by
  have hp := h.all_perm.map f
  rw [List.append_assoc, List.singleton_append] at hp
  have hd := hp.nodup_iff.mpr hn
  rw [(List.perm_middle.map f).nodup_iff, List.map_cons, List.nodup_cons, List.map_append,
    List.mem_append, not_or] at hd
  refine ⟨hd.1.1, ?_⟩
  intro w hw c hc he
  refine hd.1.2 ?_
  rw [he]
  exact List.mem_map_of_mem (List.mem_flatMap.mpr ⟨w, hw, hc⟩)

theorem account_initial (ws : List (Share α)) (h : ∀ w ∈ ws, w.busy = false) :
    Account (ws.flatMap Share.todo) [] [] ws where
  all_perm := List.Perm.refl _
  started_perm := by
    have he : ws.flatMap Share.started = [] := by
      rw [List.flatMap_eq_nil_iff]
      intro w hw
      rw [Share.started, h w hw]
      rfl
    rw [he]
    exact List.Perm.refl _

theorem account_complete {all started done : List α} {ws : List (Share α)}
    (h : Account all started done ws) (hw : ∀ w ∈ ws, w.todo = []) :
    started.Perm all ∧ done.Perm all := by
  have ht : ws.flatMap Share.todo = [] := List.flatMap_eq_nil_iff.mpr hw
  have hs : ws.flatMap Share.started = [] := by
    rw [List.flatMap_eq_nil_iff]
    intro w hm
    simp [Share.started, hw w hm]
  have ha := h.all_perm
  have hb := h.started_perm
  rw [ht, List.append_nil] at ha
  rw [hs, List.append_nil] at hb
  exact ⟨hb.trans ha, ha⟩

def stepsLeft (ws : List (Share α)) : Nat :=
  (ws.map fun w => 2 * w.todo.length - if w.busy then 1 else 0).sum

theorem stepsLeft_idle {ws : List (Share α)} (h : ∀ w ∈ ws, w.busy = false) :
    stepsLeft ws = 2 * (ws.flatMap Share.todo).length := by
  induction ws with
  | nil => rfl
  | cons w ws ih =>
    obtain ⟨hw, hws⟩ := List.forall_mem_cons.mp h
    have hi := ih hws
    simp only [stepsLeft, List.map_cons, List.sum_cons, hw, Bool.false_eq_true, ↓reduceIte,
      List.flatMap_cons, List.length_append] at hi ⊢
    omega

theorem stepsLeft_begin {l : List α} {a : α} {pre post : List (Share α)} :
    stepsLeft (pre ++ ⟨a :: l, false⟩ :: post) = stepsLeft (pre ++ ⟨a :: l, true⟩ :: post) + 1 := by
  simp [stepsLeft]
  omega

theorem stepsLeft_finish {l : List α} {a : α} {pre post : List (Share α)} :
    stepsLeft (pre ++ ⟨a :: l, true⟩ :: post) = stepsLeft (pre ++ ⟨l, false⟩ :: post) + 1 := by
  simp [stepsLeft]
  omega

end WiscKey.WorkShares
