import WiscKey.PrefetchCallers

namespace WiscKey.PrefetchWorkers

open WiscKey.RingBuffer WiscKey.ThreadPool WiscKey.Runs WiscKey.PrefetchAccounts
open WiscKey.PrefetchCallers

variable {threads depth : Nat} {c c' : System} {p : Pool} {pending : List Task}

theorem not_stopped_set {l : List Worker} {j : Nat} {w : Worker} (hl : Worker.stopped ∉ l)
    (hw : w ≠ .stopped) : Worker.stopped ∉ l.set j w := by
  intro hm
  obtain hm | hm := List.mem_or_eq_of_mem_set hm
  · exact hl hm
  · exact hw hm.symm

theorem take_inv (h : Inv threads depth c p pending) {j : Nat} {t : Task}
    (hj : c.workers[j]? = some .idle) (ht : p.queue.front = some t) (hc : p.queue.count ≠ 0) :
    ∃ rest, pending = t :: rest ∧ Inv threads depth { c with
      pool := some { p with queue := p.queue.pop }
      workers := c.workers.set j (.taken t)
      taken := c.taken ++ [t] } { p with queue := p.queue.pop } rest := by
  cases pending with
  | nil => exact absurd h.holds.count_eq hc
  | cons a rest =>
    obtain rfl : t = a := Option.some.inj (ht.symm.trans h.holds.front)
    have hr : ∀ b, (c.workers.set j (.taken t)).countP (reading b) =
        c.workers.countP (reading b) := fun b => countP_set_same hj rfl
    have hn : ∀ b, (c.workers.set j (.taken t)).countP (notifying b) =
        c.workers.countP (notifying b) := fun b => countP_set_same hj (by simp [notifying])
    refine ⟨rest, rfl, h.fault, rfl, h.running, h.size, h.holds.pop, ?_, ?_, ?_,
      not_stopped_set h.alive (by simp), ?_, h.distinct, h.added, ?_, ?_⟩
    · rw [h.order, List.append_assoc]
      rfl
    · have hd := h.permits
      rw [List.length_cons] at hd
      rw [countP_set_gain hj rfl rfl]
      simp only
      omega
    · rw [List.length_set, h.threads]
    · intro s
      simp only [List.count_append, List.count_singleton, h.taken s]
      by_cases hs : t = s
      · subst s
        rw [countP_set_gain hj rfl (by simp [fetching])]
        simp
        omega
      · rw [countP_set_same hj (by simp [fetching, hs])]
        simp [hs]
    · simpa only [hr, hn] using h.batch
    · simpa only [hr, hn] using h.known

theorem batch_of_fetching (h : Inv threads depth c p pending) {t : Task}
    (ht : Worker.taken t ∈ c.workers) : ∃ x, c.batches[t.batch]? = some x := by
  have hpos : 0 < c.workers.countP (fetching t) :=
    List.countP_pos_iff.mpr ⟨_, ht, by simp [fetching]⟩
  obtain ⟨x, hx, -⟩ := (h.added t).mp (h.mem_added (Nat.add_pos_right _ hpos))
  exact ⟨x, hx⟩

theorem execute_inv (h : Inv threads depth c p pending) {j : Nat} {t : Task}
    (hj : c.workers[j]? = some (.taken t)) :
    Inv threads depth
      { c with workers := c.workers.set j (.read t), executed := c.executed ++ [t] } p
      pending where
  fault := h.fault
  pool := h.pool
  running := h.running
  size := h.size
  holds := h.holds
  order := h.order
  permits := by
    have hb : (c.workers.set j (.read t)).countP busy = c.workers.countP busy :=
      countP_set_same hj rfl
    simpa only [hb] using h.permits
  threads := by rw [List.length_set, h.threads]
  alive := not_stopped_set h.alive (by simp)
  taken := by
    intro s
    simp only [List.count_append, List.count_singleton, h.taken s]
    by_cases hs : t = s
    · subst s
      have hl := countP_set_loss (b := .read t) (f := fetching t) hj (by simp [fetching])
        (by simp [fetching])
      simp
      omega
    · rw [countP_set_same hj (by simp [fetching, hs])]
      simp [hs]
  distinct := h.distinct
  added := h.added
  batch := by
    intro b x hx
    have ha := h.batch b x hx
    have hn : (c.workers.set j (.read t)).countP (notifying b) =
        c.workers.countP (notifying b) := countP_set_same hj (by simp [notifying])
    simp only [hn, List.countP_append, List.countP_singleton]
    refine ⟨ha.num_pos, ha.submitted_le, ha.permitted, ?_, ha.notify, ha.ready, ha.returned⟩
    have hc := ha.cnt
    by_cases hb : t.batch = b
    · rw [countP_set_gain hj rfl (by simp [reading, hb]), inBatch, hb]
      simp only [decide_true, if_true]
      omega
    · rw [countP_set_same hj (by simp [reading, hb])]
      simpa [inBatch, hb] using hc
  known := by
    intro b hb
    obtain ⟨x, hx⟩ := batch_of_fetching h (List.mem_of_getElem? hj)
    have hlt := (List.getElem?_eq_some_iff.mp hx).1
    have hne : t.batch ≠ b := Nat.ne_of_lt (hlt.trans_le hb)
    rw [countP_set_same hj (by simp [reading, hne]), countP_set_same hj (by simp [notifying])]
    exact h.known b hb

theorem cnt_lt (h : Inv threads depth c p pending) {t : Task} {x : Batch}
    (ht : Worker.read t ∈ c.workers) (hx : c.batches[t.batch]? = some x) : x.cnt < x.num := by
  have hpos : 0 < c.workers.countP (reading t.batch) :=
    List.countP_pos_iff.mpr ⟨_, ht, by simp [reading]⟩
  have ha := h.batch t.batch x hx
  have hc := ha.cnt
  have hs := ha.submitted_le
  have he := h.executed_le hx
  omega

theorem callback_inv (h : Inv threads depth c p pending) {j : Nat} {t : Task} {x : Batch}
    (hj : c.workers[j]? = some (.read t)) (hx : c.batches[t.batch]? = some x) :
    Inv threads depth { c with
      batches := c.batches.set t.batch { x with cnt := x.cnt + 1 }
      workers := c.workers.set j (if x.cnt + 1 = x.num then .last t.batch else .finished) } p
      pending := by
  have hlt := cnt_lt h (List.mem_of_getElem? hj) hx
  have hknown := (List.getElem?_eq_some_iff.mp hx).1
  generalize hw : (if x.cnt + 1 = x.num then Worker.last t.batch else .finished) = w
  have hcase : w = .last t.batch ∨ w = .finished := by
    rw [← hw]
    split
    · exact Or.inl rfl
    · exact Or.inr rfl
  have hb : (c.workers.set j w).countP busy = c.workers.countP busy := by
    apply countP_set_same hj
    obtain rfl | rfl := hcase
    · rfl
    · rfl
  have hf : ∀ s, (c.workers.set j w).countP (fetching s) = c.workers.countP (fetching s) := by
    intro s
    apply countP_set_same hj
    obtain rfl | rfl := hcase
    · simp [fetching]
    · simp [fetching]
  have hother : ∀ b, b ≠ t.batch → (c.workers.set j w).countP (reading b) =
      c.workers.countP (reading b) ∧ (c.workers.set j w).countP (notifying b) =
      c.workers.countP (notifying b) := by
    intro b hne
    constructor
    · apply countP_set_same hj
      obtain rfl | rfl := hcase
      · simp [reading, Ne.symm hne]
      · simp [reading, Ne.symm hne]
    · apply countP_set_same hj
      obtain rfl | rfl := hcase
      · simp [notifying, Ne.symm hne]
      · simp [notifying]
  refine ⟨h.fault, h.pool, h.running, h.size, h.holds, h.order, ?_, ?_, ?_, ?_, h.distinct,
    added_set h.added hx rfl, ?_, ?_⟩
  · have hh : (c.batches.set t.batch { x with cnt := x.cnt + 1 }).countP holding =
        c.batches.countP holding := countP_set_same hx rfl
    simpa only [hb, hh] using h.permits
  · rw [List.length_set, h.threads]
  · refine not_stopped_set h.alive ?_
    obtain rfl | rfl := hcase
    · simp
    · simp
  · simpa only [hf] using h.taken
  · refine forall_set ?_ ?_
    · intro b y hne hy
      rw [(hother b hne).1, (hother b hne).2]
      exact h.batch b y hy
    · have ha := h.batch t.batch x hx
      have hr : (c.workers.set j w).countP (reading t.batch) + 1 =
          c.workers.countP (reading t.batch) := by
        apply countP_set_loss hj (by simp [reading])
        obtain rfl | rfl := hcase
        · rfl
        · rfl
      have hc := ha.cnt
      have hn := ha.notify
      rw [if_neg (Nat.ne_of_lt hlt)] at hn
      refine ⟨ha.num_pos, ha.submitted_le, ha.permitted, ?_, ?_, ha.ready, ha.returned⟩
      · simp only
        omega
      · simp only
        by_cases hfull : x.cnt + 1 = x.num
        · rw [if_pos hfull] at hw ⊢
          subst w
          rw [countP_set_gain hj (by simp [notifying]) (by simp [notifying])]
          omega
        · rw [if_neg hfull] at hw ⊢
          subst w
          rw [countP_set_same hj (by simp [notifying])]
          omega
  · intro b hb
    rw [List.length_set] at hb
    have hne : b ≠ t.batch := Nat.ne_of_gt (hknown.trans_le hb)
    rw [(hother b hne).1, (hother b hne).2]
    exact h.known b hb

theorem notify_pending (h : Inv threads depth c p pending) {b : Nat}
    (hb : Worker.last b ∈ c.workers) : ∃ x, c.batches[b]? = some x ∧ x.ready = false := by
  have hpos : 0 < c.workers.countP (notifying b) :=
    List.countP_pos_iff.mpr ⟨_, hb, by simp [notifying]⟩
  cases hx : c.batches[b]? with
  | none =>
    have hk := h.known b (List.getElem?_eq_none_iff.mp hx)
    omega
  | some x =>
    refine ⟨x, rfl, ?_⟩
    have ha := h.batch b x hx
    have hn := ha.notify
    cases hr : x.ready with
    | false => rfl
    | true =>
      have hp := ha.ready.mp hr
      split at hn
      · omega
      · omega

theorem notify_inv (h : Inv threads depth c p pending) {j b : Nat} {x : Batch}
    (hj : c.workers[j]? = some (.last b)) (hx : c.batches[b]? = some x) :
    Inv threads depth { c with
      batches := c.batches.set b { x with ready := true }
      workers := c.workers.set j .finished
      notified := c.notified ++ [b] } p pending := by
  have hknown := (List.getElem?_eq_some_iff.mp hx).1
  have hr : ∀ a, (c.workers.set j .finished).countP (reading a) = c.workers.countP (reading a) :=
    fun a => countP_set_same hj rfl
  have hother : ∀ a, a ≠ b → (c.workers.set j .finished).countP (notifying a) =
      c.workers.countP (notifying a) := fun a hne =>
    countP_set_same hj (by simp [notifying, Ne.symm hne])
  have hcount : ∀ a, a ≠ b → (c.notified ++ [b]).count a = c.notified.count a := by
    intro a hne
    rw [List.count_append, List.count_singleton]
    simp [Ne.symm hne]
  refine ⟨h.fault, h.pool, h.running, h.size, h.holds, h.order, ?_, ?_,
    not_stopped_set h.alive (by simp), ?_, h.distinct, added_set h.added hx rfl, ?_, ?_⟩
  · have hb : (c.workers.set j .finished).countP busy = c.workers.countP busy :=
      countP_set_same hj rfl
    have hh : (c.batches.set b { x with ready := true }).countP holding =
        c.batches.countP holding := countP_set_same hx rfl
    simpa only [hb, hh] using h.permits
  · rw [List.length_set, h.threads]
  · have hf : ∀ s, (c.workers.set j .finished).countP (fetching s) =
        c.workers.countP (fetching s) := fun s => countP_set_same hj (by simp [fetching])
    simpa only [hf] using h.taken
  · refine forall_set ?_ ?_
    · intro a y hne hy
      simp only [hr, hother a hne, hcount a hne]
      exact h.batch a y hy
    · have ha := h.batch b x hx
      have hl := countP_set_loss (b := .finished) (f := notifying b) hj (by simp [notifying])
        (by simp [notifying])
      have hn := ha.notify
      simp only [hr, List.count_append, List.count_singleton_self]
      refine ⟨ha.num_pos, ha.submitted_le, ha.permitted, ha.cnt, ?_, by simp, fun _ => rfl⟩
      simp only
      omega
  · intro a hlen
    rw [List.length_set] at hlen
    have hne : a ≠ b := Nat.ne_of_gt (hknown.trans_le hlen)
    simp only [hr, hother a hne, hcount a hne]
    exact h.known a hlen

theorem post_inv (h : Inv threads depth c p pending) {j : Nat}
    (hj : c.workers[j]? = some .finished) :
    Inv threads depth { c with workers := c.workers.set j .idle, permits := c.permits + 1 } p
      pending := by
  have hr : ∀ b, (c.workers.set j .idle).countP (reading b) = c.workers.countP (reading b) :=
    fun b => countP_set_same hj rfl
  have hn : ∀ b, (c.workers.set j .idle).countP (notifying b) = c.workers.countP (notifying b) :=
    fun b => countP_set_same hj (by simp [notifying])
  have hf : ∀ t, (c.workers.set j .idle).countP (fetching t) = c.workers.countP (fetching t) :=
    fun t => countP_set_same hj (by simp [fetching])
  refine ⟨h.fault, h.pool, h.running, h.size, h.holds, h.order, ?_, ?_,
    not_stopped_set h.alive (by simp), ?_, h.distinct, h.added, ?_, ?_⟩
  · have hd := h.permits
    have hb := countP_set_loss (b := .idle) (f := busy) hj rfl rfl
    simp only
    omega
  · rw [List.length_set, h.threads]
  · simpa only [hf] using h.taken
  · simpa only [hr, hn] using h.batch
  · simpa only [hr, hn] using h.known

theorem moved_inv {m : Move} (h : Inv threads depth c p pending) (hm : Moved c m c') :
    ∃ p' pending', Inv threads depth c' p' pending' := by
  cases hm with
  | call hn => exact ⟨p, pending, call_inv h hn⟩
  | semWait hb hc hi hp => exact ⟨p, pending, semWait_inv h hb hc hi hp⟩
  | wait hb hc hi hr => exact ⟨p, pending, wait_inv h hb hc hi hr⟩
  | add hb hc ha =>
    rw [threadpoolAdd_eq h hb hc] at ha
    cases ha
    exact ⟨_, _, add_inv h hb hc⟩
  | refused hb hc ha =>
    rw [threadpoolAdd_eq h hb hc] at ha
    cases ha
  | take hj hp ht hc =>
    rw [h.pool] at hp
    cases hp
    obtain ⟨rest, -, hi⟩ := take_inv h hj ht (fun h0 => hc ⟨h0, h.running⟩)
    exact ⟨_, rest, hi⟩
  | stop hj hp hs =>
    rw [h.pool] at hp
    cases hp
    exact absurd h.running hs
  | execute hj => exact ⟨p, pending, execute_inv h hj⟩
  | callback hj hx _ => exact ⟨p, pending, callback_inv h hj hx⟩
  | notify hj hx _ => exact ⟨p, pending, notify_inv h hj hx⟩
  | freed hj hw hx hr =>
    exfalso
    have ha := h.batch _ _ hx
    have hready := ha.returned hr
    obtain rfl | ⟨t, rfl, rfl⟩ := hw
    · obtain ⟨y, hy, hno⟩ := notify_pending h (List.mem_of_getElem? hj)
      rw [hx] at hy
      cases hy
      rw [hready] at hno
      cases hno
    · have hlt := cnt_lt h (List.mem_of_getElem? hj) hx
      have hn := ha.notify
      have hpos := ha.ready.mp hready
      rw [if_neg (Nat.ne_of_lt hlt)] at hn
      omega
  | post hj => exact ⟨p, pending, post_inv h hj⟩

end WiscKey.PrefetchWorkers
