import WiscKey.PrefetchAccounts

namespace WiscKey.PrefetchCallers

open WiscKey.RingBuffer WiscKey.ThreadPool WiscKey.Runs WiscKey.PrefetchAccounts

variable {threads depth : Nat} {c c' : System} {p : Pool} {pending : List Task}

theorem call_inv (h : Inv threads depth c p pending) {num : Nat} (hn : 0 < num) :
    Inv threads depth { c with batches := c.batches ++ [⟨num, .loop 0, 0, false⟩] } p pending where
  fault := h.fault
  pool := h.pool
  running := h.running
  size := h.size
  holds := h.holds
  order := h.order
  permits := by
    have hp := h.permits
    simpa [List.countP_append, holding] using hp
  threads := h.threads
  alive := h.alive
  taken := h.taken
  distinct := h.distinct
  added := by
    intro t
    rw [h.added t]
    constructor
    · rintro ⟨x, hx, ht⟩
      exact ⟨x, (List.getElem?_append_left (List.getElem?_eq_some_iff.mp hx).1).trans hx, ht⟩
    · rintro ⟨x, hx, ht⟩
      obtain hx | ⟨-, hx⟩ := concat_cases hx
      · exact ⟨x, hx, ht⟩
      · subst x
        exact absurd ht (Nat.not_lt_zero _)
  batch := by
    intro b x hx
    obtain hx | ⟨hb, hx⟩ := concat_cases hx
    · exact h.batch b x hx
    · have hk := h.known b hb
      rw [h.executed_unknown hb, hk.1, hk.2.1, hk.2.2, hx]
      refine ⟨hn, Nat.zero_le _, by simp, rfl, ?_, by simp, by simp⟩
      rw [if_neg (Nat.ne_of_lt hn)]
  known := by
    intro b hb
    rw [List.length_append] at hb
    exact h.known b (Nat.le_of_succ_le hb)

theorem setBatch_inv (h : Inv threads depth c p pending) {b permits : Nat} {x x' : Batch}
    (hb : c.batches[b]? = some x) (hs : submitted x' = submitted x)
    (hp : permits + (c.batches.set b x').countP holding = c.permits + c.batches.countP holding)
    (hx : ∀ e r n l, Accounted x e r n l → Accounted x' e r n l) :
    Inv threads depth { c with permits := permits, batches := c.batches.set b x' } p pending where
  fault := h.fault
  pool := h.pool
  running := h.running
  size := h.size
  holds := h.holds
  order := h.order
  permits := by
    have hd := h.permits
    simp only
    omega
  threads := h.threads
  alive := h.alive
  taken := h.taken
  distinct := h.distinct
  added := added_set h.added hb hs
  batch := forall_set (fun a y _ hy => h.batch a y hy) (hx _ _ _ _ (h.batch b x hb))
  known := by
    intro a ha
    rw [List.length_set] at ha
    exact h.known a ha

theorem semWait_inv (h : Inv threads depth c p pending) {b i : Nat} {x : Batch}
    (hb : c.batches[b]? = some x) (hc : x.caller = .loop i) (hi : i < x.num)
    (hpos : 0 < c.permits) :
    Inv threads depth { c with
      permits := c.permits - 1
      batches := c.batches.set b { x with caller := .permitted i } } p pending := by
  have hs : submitted { x with caller := .permitted i } = submitted x := by
    simp [submitted, hc]
  refine setBatch_inv h hb hs ?_ ?_
  · rw [countP_set_gain hb (by simp [holding, hc]) rfl]
    omega
  · intro e r n l ha
    refine ⟨ha.num_pos, hs ▸ ha.submitted_le, ?_, ha.cnt, ha.notify, ha.ready, by simp⟩
    rintro _ ⟨⟩
    exact hi

theorem wait_inv (h : Inv threads depth c p pending) {b i : Nat} {x : Batch}
    (hb : c.batches[b]? = some x) (hc : x.caller = .loop i) (hi : ¬ i < x.num)
    (hr : x.ready = true) :
    Inv threads depth { c with batches := c.batches.set b { x with caller := .returned } }
      p pending := by
  have hle := (h.batch b x hb).submitted_le
  have hs : submitted { x with caller := .returned } = submitted x := by
    simp only [submitted, hc] at hle ⊢
    omega
  refine setBatch_inv h hb hs ?_ ?_
  · rw [countP_set_same hb (by simp [holding, hc])]
  · intro e r n l ha
    exact ⟨ha.num_pos, hs ▸ ha.submitted_le, by simp, ha.cnt, ha.notify, ha.ready, fun _ => hr⟩

/-- The caller's own permit is one of those that are not in the semaphore, so the
queue is not full. -/
theorem not_full (h : Inv threads depth c p pending) {b i : Nat} {x : Batch}
    (hb : c.batches[b]? = some x) (hc : x.caller = .permitted i) :
    pending.length + 1 < depth := by
  have hpos : 0 < c.batches.countP holding :=
    List.countP_pos_iff.mpr ⟨x, List.mem_of_getElem? hb, by simp [holding, hc]⟩
  have hd := h.permits
  omega

theorem threadpoolAdd_eq (h : Inv threads depth c p pending) {b i : Nat} {x : Batch}
    (hb : c.batches[b]? = some x) (hc : x.caller = .permitted i) :
    threadpoolAdd c.pool ⟨b, i⟩ = .ok { p with queue := p.queue.push ⟨b, i⟩ } := by
  have hn := not_full h hb hc
  have hne : p.queue.count ≠ p.queue.size := by
    rw [h.holds.count_eq, h.size]
    omega
  rw [h.pool]
  simp only [threadpoolAdd, if_neg hne, h.running, ne_eq, not_true_eq_false, if_false]

theorem add_inv (h : Inv threads depth c p pending) {b i : Nat} {x : Batch}
    (hb : c.batches[b]? = some x) (hc : x.caller = .permitted i) :
    Inv threads depth { c with
      pool := some { p with queue := p.queue.push ⟨b, i⟩ }
      batches := c.batches.set b { x with caller := .loop (i + 1) }
      added := c.added ++ [⟨b, i⟩] } { p with queue := p.queue.push ⟨b, i⟩ }
      (pending ++ [⟨b, i⟩]) where
  fault := h.fault
  pool := rfl
  running := h.running
  size := (size_push _ _).trans h.size
  holds := by
    refine h.holds.push ?_ _
    rw [h.size]
    exact Nat.lt_of_succ_lt (not_full h hb hc)
  order := by rw [h.order, List.append_assoc]
  permits := by
    have hd := h.permits
    have hl := countP_set_loss (b := { x with caller := .loop (i + 1) }) hb
      (f := holding) (by simp [holding, hc]) rfl
    simp only [List.length_append, List.length_singleton]
    omega
  threads := h.threads
  alive := h.alive
  taken := h.taken
  distinct := by
    refine List.nodup_append.mpr ⟨h.distinct, List.nodup_singleton _, ?_⟩
    rintro t ht s hs rfl
    rw [List.mem_singleton.mp hs] at ht
    obtain ⟨y, hy, hlt⟩ := (h.added _).mp ht
    obtain rfl : y = x := Option.some.inj (hy.symm.trans hb)
    simp only [submitted, hc] at hlt
    exact lt_irrefl _ hlt
  added := by
    intro t
    rw [List.mem_append, List.mem_singleton, h.added t]
    by_cases ht : t.batch = b
    · rw [ht, hb, List.getElem?_set_self (List.getElem?_eq_some_iff.mp hb).1]
      obtain ⟨a, j⟩ := t
      subst ht
      simp only [submitted, hc, Option.some.injEq, exists_eq_left', Task.mk.injEq, true_and]
      omega
    · rw [List.getElem?_set_ne (Ne.symm ht)]
      have hne : t ≠ ⟨b, i⟩ := fun he => ht (congrArg Task.batch he)
      simp [hne]
  batch := by
    refine forall_set (fun a y _ hy => h.batch a y hy) ?_
    have ha := h.batch b x hb
    exact ⟨ha.num_pos, ha.permitted i hc, by simp, ha.cnt, ha.notify, ha.ready, by simp⟩
  known := by
    intro a ha
    rw [List.length_set] at ha
    exact h.known a ha

end WiscKey.PrefetchCallers
