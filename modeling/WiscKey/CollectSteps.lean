import WiscKey.CollectMoving

namespace WiscKey.CollectSteps

open WiscKey.Maps WiscKey.ValueLog WiscKey.LogLayout WiscKey.LogRecords WiscKey.LogHistory
  WiscKey.LogCoverage WiscKey.WorkShares WiscKey.Database WiscKey.Collect WiscKey.CollectJobs
  WiscKey.CollectMoving

variable {b : UInt64} {keys : List (Key × Record)} {file : List UInt8} {val : Key → Value}
  {index : Index} {s : Session} {moved done : List (Key × Record)} {pre post : List Worker}
  {w : Worker} {e : Key × Record}

theorem mem_replace {w' a : Worker} (h : a ∈ pre ++ w' :: post) :
    a = w' ∨ a ∈ pre ++ w :: post := by
  simp only [List.mem_append, List.mem_cons] at h ⊢
  tauto

theorem newRecord_move (hp : w.pending = none) {k : Key} {r r' : Record} :
    NewRecord index (pre ++ { w with pending := some (e.1, r') } :: post) done k r ↔
      NewRecord index (pre ++ w :: post) done k r ∨ (e.1, r') = (k, r) := by
  simp only [NewRecord, List.mem_append, List.mem_cons, or_assoc, exists_or, or_and_right,
    exists_eq_left, hp, Option.some.injEq, reduceCtorEq, false_or]
  exact or_congr_right (or_congr_right or_comm)

theorem move_moving (hb : PageBuffer b) (hs : Source keys file val)
    (h : Moving b keys val ⟨index, s, moved, pre ++ w :: post⟩ done) (hp : w.pending = none)
    (hl : w.i < w.stop) (he : keyAt keys w.i = some e) :
    Moving b keys val ⟨index, s.append b (cut (alignedRead file e.2) e.2), moved ++ [e],
      pre ++ { w with pending := some (e.1,
        ⟨(s.log.append b (cut (alignedRead file e.2) e.2)).2, e.2.size⟩) } :: post⟩ done := by
  have hm := keyAt_mem he
  have hw : w ∈ pre ++ w :: post := by simp
  have hr := h.range w hw
  obtain ⟨l, ht⟩ := todo_of_keyAt hr hl he
  have hsm := hs.small e hm
  rw [hs.read e hm, hs.size_eq e hm]
  have hold : ∀ a ∈ pre ++ { w with pending := some (e.1,
      (⟨(s.log.append b (val e.1)).2, (val e.1).length⟩ : Record)) } :: post,
      ∃ a0 ∈ pre ++ w :: post, a.i = a0.i ∧ a.stop = a0.stop := by
    intro a ha
    obtain rfl | ha := mem_replace ha
    · exact ⟨w, hw, rfl, rfl⟩
    · exact ⟨a, ha, rfl, rfl⟩
  constructor
  case layout => exact append_layout hb h.layout hsm
  case range =>
    intro a ha
    obtain ⟨a0, ha0, hi, hst⟩ := hold a ha
    have hr0 := h.range a0 ha0
    exact ⟨hi ▸ hr0.nonneg, by rw [hi, hst]; exact hr0.le, hst ▸ hr0.stop_le⟩
  case account =>
    have ha := h.account
    simp only [List.map_append, List.map_cons, share, hp, Option.isSome_none, ht] at ha
    have hn := account_begin ha
    rw [← ht] at hn
    rw [List.map_append, List.map_cons]
    exact hn
  case old =>
    intro a ha
    obtain ⟨a0, ha0, hi, hst⟩ := hold a ha
    rw [todo_congr hi hst]
    exact h.old a0 ha0
  case pending =>
    intro a ha c hc
    obtain rfl | ha := mem_replace ha
    · cases hc
      exact ⟨e.2, _, ht⟩
    · exact h.pending a ha c hc
  case placed => exact h.placed
  case stored =>
    intro k r hn
    obtain hn | hn := (newRecord_move hp).mp hn
    · exact (h.stored k r hn).grow (append_grows hb h.layout hsm)
    · cases hn
      exact append_stored hb h.layout hsm
  case covered =>
    intro x hx
    simp only [newRecord_move hp]
    obtain hx | hx | hx := append_covered hb h.layout hsm hx
    · obtain ⟨k, r, hn, hin⟩ | hpad := h.covered x hx
      · exact Or.inl ⟨k, r, Or.inl hn, hin⟩
      · exact Or.inr (append_accesses hpad)
    · exact Or.inl ⟨_, _, Or.inr rfl, hx⟩
    · exact Or.inr hx

theorem newRecord_place (hne : e.1 ∉ done.map Prod.fst) (hp : w.pending = some e) {i : Int}
    {r0 : Record} {k : Key} {r : Record} :
    NewRecord (index.insert e.1 e.2) (pre ++ { w with i := i, pending := none } :: post)
        (done ++ [(e.1, r0)]) k r ↔
      NewRecord index (pre ++ w :: post) done k r := by
  simp only [NewRecord, List.map_append, List.map_cons, List.map_nil, List.mem_append,
    List.mem_cons, List.not_mem_nil, or_false, getElem?_insert, exists_or, or_and_right,
    exists_eq_left, reduceCtorEq, false_or, hp, Option.some.injEq]
  by_cases hk : e.1 = k
  · subst k
    simp only [hne, false_and, false_or, true_and, ↓reduceIte, Option.some.injEq, Prod.ext_iff]
    exact or_left_comm
  · have he : e ≠ (k, r) := fun he => hk (congrArg Prod.fst he)
    simp only [hk, Ne.symm hk, he, false_and, or_false, false_or, ↓reduceIte]

theorem place_moving (hn : keys.length < 2 ^ 31) (hs : Source keys file val)
    (h : Moving b keys val ⟨index, s, moved, pre ++ w :: post⟩ done) (hp : w.pending = some e) :
    ∃ r0, Moving b keys val ⟨index.insert e.1 e.2, s, moved,
      pre ++ { w with i := int32 (w.i + 1), pending := none } :: post⟩ (done ++ [(e.1, r0)]) := by
  have hw : w ∈ pre ++ w :: post := by simp
  have hr := h.range w hw
  have h0 := hr.nonneg
  have hst := hr.stop_le
  obtain ⟨r0, l, ht⟩ := h.pending w hw e hp
  have hlt := lt_of_todo ht
  rw [int32_of_lt (by omega) (by omega)]
  have hnext : todo keys { w with i := w.i + 1, pending := none } = l := todo_next h0 ht rfl rfl
  have hacc : Account keys moved (done ++ [(e.1, r0)])
      ((pre ++ { w with i := w.i + 1, pending := none } :: post).map (share keys)) := by
    have ha := h.account
    simp only [List.map_append, List.map_cons, share, hp, Option.isSome_some, ht] at ha
    have hf := account_finish ha
    rw [List.map_append, List.map_cons, share, hnext]
    exact hf
  obtain ⟨(hdone : e.1 ∉ done.map Prod.fst), hleft⟩ := account_last hacc hs.nodup
  have htodo : ∀ a ∈ pre ++ { w with i := w.i + 1, pending := none } :: post,
      ∀ c ∈ todo keys a, e.1 ≠ c.1 :=
    fun a ha => hleft (share keys a) (List.mem_map_of_mem ha)
  have hnew : ∀ k r, NewRecord (index.insert e.1 e.2)
      (pre ++ { w with i := w.i + 1, pending := none } :: post) (done ++ [(e.1, r0)]) k r ↔
      NewRecord index (pre ++ w :: post) done k r :=
    fun _ _ => newRecord_place hdone hp
  refine ⟨r0, h.layout, ?_, hacc, ?_, ?_, ?_, ?_, ?_⟩
  · intro a ha
    obtain rfl | ha := mem_replace (w := w) ha
    · exact ⟨by simp only; omega, by simp only; omega, hst⟩
    · exact h.range a ha
  · intro a ha c hc
    rw [getElem?_insert, if_neg (htodo a ha c hc)]
    obtain rfl | ha := mem_replace (w := w) ha
    · rw [hnext] at hc
      exact h.old w hw c (ht ▸ List.mem_cons_of_mem _ hc)
    · exact h.old a ha c hc
  · intro a ha c hc
    obtain rfl | ha := mem_replace (w := w) ha
    · cases hc
    · exact h.pending a ha c hc
  · intro c hc
    rw [getElem?_insert]
    split
    · rfl
    · rename_i hk
      obtain hc | hc := List.mem_append.mp hc
      · exact h.placed c hc
      · rw [List.mem_singleton.mp hc] at hk
        exact absurd rfl hk
  · intro k r hk
    exact h.stored k r ((hnew k r).mp hk)
  · intro x hx
    simp only [hnew]
    exact h.covered x hx

theorem todo_finished (hf : w.finished) : todo keys w = [] := by
  have hlt : ¬w.i < w.stop := by
    simp only [Worker.finished, Bool.and_eq_true, Bool.not_eq_true', decide_eq_false_iff_not] at hf
    exact hf.2
  have hm : (w.stop - w.i).toNat = 0 := by omega
  rw [todo, hm, List.take_zero]

theorem join_moving {ws : List Worker} (h : Moving b keys val ⟨index, s, moved, ws⟩ done)
    (hf : ∀ w ∈ ws, w.finished) : Moving b keys val ⟨index, s, moved, []⟩ done := by
  have hp : ∀ w ∈ ws, w.pending = none := by
    intro w hw
    have hw := hf w hw
    simp only [Worker.finished, Bool.and_eq_true, Option.isNone_iff_eq_none] at hw
    exact hw.1
  have hn : ∀ k r, NewRecord index [] done k r ↔ NewRecord index ws done k r := by
    intro k r
    refine or_congr_right ?_
    constructor
    · rintro ⟨w, hw, -⟩
      cases hw
    · rintro ⟨w, hw, he⟩
      rw [hp w hw] at he
      cases he
  have hc := account_complete h.account (by
    intro a ha
    obtain ⟨w, hw, rfl⟩ := List.mem_map.mp ha
    exact todo_finished (hf w hw))
  refine ⟨h.layout, by simp, ?_, by simp, by simp, h.placed, ?_, ?_⟩
  · exact ⟨by simpa using hc.2, by simpa using hc.1.trans hc.2.symm⟩
  · simpa only [hn] using h.stored
  · simpa only [hn] using h.covered

theorem spawn_moving {threads : Nat} (hn : keys.length < 2 ^ 31) (ht : 0 < threads)
    (hl : Layout (bufSize b) s.log) (he : s.log.contents = [])
    (hi : ∀ e ∈ keys, index[e.1]? = some e.2) :
    Moving b keys val ⟨index, s, [], spawn threads keys.length⟩ [] := by
  have hnew : ∀ k r, ¬NewRecord index (spawn threads keys.length) [] k r := by
    rintro k r (⟨hk, -⟩ | ⟨w, hw, hp⟩)
    · cases hk
    · rw [spawn_pending hw] at hp
      cases hp
  have hacc := account_initial ((spawn threads keys.length).map (share keys)) (by
    intro a ha
    obtain ⟨w, hw, rfl⟩ := List.mem_map.mp ha
    rw [share, spawn_pending hw]
    rfl)
  have htodo : ((spawn threads keys.length).map (share keys)).flatMap Share.todo = keys := by
    rw [List.flatMap_map]
    exact spawn_todo hn ht
  rw [htodo] at hacc
  refine ⟨hl, spawn_inRange hn ht, hacc, ?_, ?_, by simp, ?_, by simp [he]⟩
  · intro w hw e hm
    refine hi e ?_
    rw [← spawn_todo hn ht]
    exact List.mem_flatMap.mpr ⟨w, hw, hm⟩
  · intro w hw e hp
    rw [spawn_pending hw] at hp
    cases hp
  · intro k r hk
    exact absurd hk (hnew k r)

end WiscKey.CollectSteps
