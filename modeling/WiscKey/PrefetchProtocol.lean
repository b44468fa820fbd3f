import WiscKey.PrefetchWorkers

namespace WiscKey.PrefetchProtocol

open WiscKey.RingBuffer WiscKey.ThreadPool WiscKey.Runs WiscKey.PrefetchAccounts
open WiscKey.PrefetchCallers WiscKey.PrefetchWorkers

variable {threads depth : Nat} {c c' : System} {p : Pool} {pending : List Task}

theorem move_worker (h : Inv threads depth c p pending) {j : Nat} {w : Worker}
    (hj : c.workers[j]? = some w) : move c (.worker j) = work c j w := by
  simp [move, h.fault, hj]

theorem stuck_idle (h : Inv threads depth c p pending)
    (hs : ∀ j, move c (.worker j) = none) : ∀ w ∈ c.workers, w = .idle := by
  intro w hw
  obtain ⟨j, hj⟩ := List.mem_iff_getElem?.mp hw
  have hn := hs j
  rw [move_worker h hj] at hn
  cases w with
  | idle => rfl
  | taken t => cases hn
  | read t =>
    have hpos : 0 < c.workers.countP (reading t.batch) :=
      List.countP_pos_iff.mpr ⟨_, hw, by simp [reading]⟩
    cases hx : c.batches[t.batch]? with
    | none =>
      have hk := (h.known _ (List.getElem?_eq_none_iff.mp hx)).1
      omega
    | some x =>
      simp only [work, hx] at hn
      split at hn
      · cases hn
      · cases hn
  | last b =>
    obtain ⟨x, hx, -⟩ := notify_pending h hw
    simp only [work, hx] at hn
    split at hn
    · cases hn
    · cases hn
  | finished => cases hn
  | stopped => exact absurd hw h.alive

theorem stuck_empty (h : Inv threads depth c p pending) (ht : 0 < threads)
    (hs : ∀ j, move c (.worker j) = none) : pending = [] := by
  cases hp : pending with
  | nil => rfl
  | cons a rest =>
    subst hp
    have hlen : 0 < c.workers.length := h.threads ▸ ht
    have hj := List.getElem?_eq_getElem hlen
    have hidle := stuck_idle h hs _ (List.getElem_mem hlen)
    have hn := hs 0
    rw [move_worker h hj, hidle] at hn
    have hc : p.queue.count ≠ 0 := by
      rw [h.holds.count_eq]
      simp
    simp [work, h.pool, h.running, hc, h.holds.front] at hn

theorem stuck_executed (h : Inv threads depth c p pending) (ht : 0 < threads)
    (hs : ∀ j, move c (.worker j) = none) {t : Task} (hm : t ∈ c.added) :
    c.executed.count t = 1 := by
  have hf : c.workers.countP (fetching t) = 0 := by
    apply List.countP_eq_zero.mpr
    intro w hw
    rw [stuck_idle h hs w hw]
    simp [fetching]
  have ho := h.order
  rw [stuck_empty h ht hs, List.append_nil] at ho
  have hc := h.taken t
  rw [← ho, List.count_eq_one_of_mem h.distinct hm, hf] at hc
  omega

theorem stuck_notified (h : Inv threads depth c p pending) (ht : 0 < threads)
    (hs : ∀ j, move c (.worker j) = none) {b : Nat} {x : Batch} (hx : c.batches[b]? = some x)
    (hn : submitted x = x.num) : c.notified.count b = 1 := by
  have ha := h.batch b x hx
  have hr : c.workers.countP (reading b) = 0 := by
    apply List.countP_eq_zero.mpr
    intro w hw
    rw [stuck_idle h hs w hw]
    simp [reading]
  have hl : c.workers.countP (notifying b) = 0 := by
    apply List.countP_eq_zero.mpr
    intro w hw
    rw [stuck_idle h hs w hw]
    simp [notifying]
  have hsub : List.range x.num ⊆ positions c b := by
    intro i hi
    have hm := (h.added ⟨b, i⟩).mpr ⟨x, hx, hn ▸ List.mem_range.mp hi⟩
    have hc := stuck_executed h ht hs hm
    exact mem_positions.mpr (List.count_pos_iff.mp (by omega))
  have hge := (List.nodup_range.subperm hsub).length_le
  rw [List.length_range, length_positions] at hge
  have hle := h.executed_le hx
  have hc := ha.cnt
  have hnum : x.cnt = x.num := by omega
  have hnotify := ha.notify
  rw [if_pos hnum] at hnotify
  omega

def weight : Worker → Nat
  | .idle => 0
  | .taken _ => 4
  | .read _ => 3
  | .last _ => 2
  | .finished => 1
  | .stopped => 0

def remaining (c : System) : Nat :=
  5 * (c.added.length - c.taken.length) + (c.workers.map weight).sum

theorem weight_sum_le (l : List Worker) : (l.map weight).sum ≤ 4 * l.countP busy := by
  induction l with
  | nil => exact Nat.le_refl _
  | cons w l ih =>
    rw [List.map_cons, List.sum_cons, List.countP_cons]
    have hw : weight w ≤ 4 * if busy w = true then 1 else 0 := by
      cases w with
      | idle => decide
      | taken t => exact Nat.le_refl 4
      | read t => exact Nat.le_succ 3
      | last b => exact Nat.le_of_ble_eq_true rfl
      | finished => exact Nat.le_of_ble_eq_true rfl
      | stopped => exact Nat.zero_le _
    omega

theorem length_pending (h : Inv threads depth c p pending) :
    c.added.length - c.taken.length = pending.length := by
  rw [h.order, List.length_append, Nat.add_sub_cancel_left]

theorem remaining_lt {j : Nat} (h : Inv threads depth c p pending)
    (hm : Moved c (.worker j) c') : remaining c' < remaining c := by
  obtain ⟨p', pending', h'⟩ := moved_inv h hm
  cases hm with
  | take hj hp ht hc =>
    rename_i t
    rw [h.pool] at hp
    cases hp
    obtain ⟨rest, rfl, -⟩ := take_inv h hj ht (fun h0 => hc ⟨h0, h.running⟩)
    have hl := length_pending h
    have hs := sum_set weight hj (.taken t)
    simp only [remaining, weight, List.length_append, List.length_cons, List.length_nil] at hl hs ⊢
    omega
  | stop hj hp hs =>
    rw [h.pool] at hp
    cases hp
    exact absurd h.running hs
  | execute hj =>
    rename_i t
    have hs := sum_set weight hj (.read t)
    simp only [remaining, weight] at hs ⊢
    omega
  | callback hj hx hr =>
    rename_i t x
    generalize hw : (if x.cnt + 1 = x.num then Worker.last t.batch else .finished) = w
    have hs := sum_set weight hj w
    have hle : weight w ≤ 2 := by
      rw [← hw]
      split
      · exact Nat.le_refl 2
      · exact Nat.le_succ 1
    have h3 : weight (.read t) = 3 := rfl
    simp only [remaining]
    omega
  | notify hj hx _ =>
    have hs := sum_set weight hj .finished
    simp only [remaining, weight] at hs ⊢
    omega
  | freed => exact absurd h'.fault (by simp)
  | post hj =>
    have hs := sum_set weight hj .idle
    simp only [remaining, weight] at hs ⊢
    omega

/-- What is promised of every state that the protocol reaches. The pool never
refuses a task, and no context is used once it is deleted. -/
structure Sound (depth : Nat) (c : System) : Prop where
  fault : c.fault = none
  accepts : ∀ t, ∃ q, threadpoolAdd c.pool t = .ok q
  pool : ∃ p, c.pool = some p ∧ p.queue.count ≤ depth - 1 ∧
    p.queue.tail = (p.queue.head + p.queue.count) % depth ∧
    p.queue.contents = (c.added.drop c.taken.length).map some
  order : c.taken <+: c.added
  distinct : c.added.Nodup
  once : ∀ t, c.executed.count t ≤ c.added.count t
  returned : ∀ b x, c.batches[b]? = some x → x.caller = .returned →
    (∀ i, i < x.num → (⟨b, i⟩ : Task) ∈ c.executed) ∧ c.notified.count b = 1
  notified : ∀ b, c.notified.count b ≤ 1

theorem notified_le (h : Inv threads depth c p pending) (b : Nat) :
    c.notified.count b ≤ 1 := by
  cases hx : c.batches[b]? with
  | none =>
    have hk := h.known b (List.getElem?_eq_none_iff.mp hx)
    omega
  | some x =>
    have hn := (h.batch b x hx).notify
    split at hn
    · omega
    · omega

theorem returned_executed (h : Inv threads depth c p pending) {b : Nat} {x : Batch}
    (hx : c.batches[b]? = some x) (hr : x.caller = .returned) :
    (∀ i, i < x.num → (⟨b, i⟩ : Task) ∈ c.executed) ∧ c.notified.count b = 1 := by
  have ha := h.batch b x hx
  have hpos := ha.ready.mp (ha.returned hr)
  have hle := notified_le h b
  have hn := ha.notify
  have hc := ha.cnt
  have hnum : x.cnt = x.num := by
    by_contra hne
    rw [if_neg hne] at hn
    omega
  refine ⟨?_, by omega⟩
  intro i hi
  exact h.mem_executed hx (by omega) hi

theorem sound_of_inv (h : Inv threads depth c p pending) : Sound depth c where
  fault := h.fault
  accepts := by
    intro t
    have hd := h.permits
    have hne : p.queue.count ≠ p.queue.size := by
      rw [h.holds.count_eq, h.size]
      omega
    refine ⟨{ p with queue := p.queue.push t }, ?_⟩
    rw [h.pool]
    simp only [threadpoolAdd, if_neg hne, h.running, ne_eq, not_true_eq_false, if_false]
  pool := by
    have hd := h.permits
    refine ⟨p, h.pool, ?_, ?_, ?_⟩
    · rw [h.holds.count_eq]
      omega
    · rw [h.holds.count_eq, h.holds.tail_eq, h.size]
    · rw [h.holds.contents_eq, h.order, List.drop_left]
  order := by
    rw [h.order]
    exact List.prefix_append _ _
  distinct := h.distinct
  once := by
    intro t
    have hc := h.taken t
    rw [h.order, List.count_append]
    omega
  returned := fun _ _ hx hr => returned_executed h hx hr
  notified := notified_le h

end WiscKey.PrefetchProtocol
