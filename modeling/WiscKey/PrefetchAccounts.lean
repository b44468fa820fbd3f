import WiscKey.Runs
import WiscKey.ThreadPool

namespace WiscKey.PrefetchAccounts

open WiscKey.RingBuffer WiscKey.ThreadPool WiscKey.Runs

def busy (w : Worker) : Bool := decide (w ≠ .idle)

def fetching (t : Task) (w : Worker) : Bool := decide (w = .taken t)

def reading (b : Nat) : Worker → Bool
  | .read t => decide (t.batch = b)
  | _ => false

def notifying (b : Nat) (w : Worker) : Bool := decide (w = .last b)

def holding (x : Batch) : Bool :=
  match x.caller with
  | .permitted _ => true
  | _ => false

def submitted (x : Batch) : Nat :=
  match x.caller with
  | .loop i => i
  | .permitted i => i
  | .returned => x.num

def inBatch (b : Nat) (t : Task) : Bool := decide (t.batch = b)

/-- The counter of a batch is behind its executed reads by the callbacks that
are still to come, and the batch is notified by the callback that fills the
counter. -/
structure Accounted (x : Batch) (executed reading notified notifying : Nat) : Prop where
  num_pos : 0 < x.num
  submitted_le : submitted x ≤ x.num
  permitted : ∀ i, x.caller = .permitted i → i < x.num
  cnt : x.cnt + reading = executed
  notify : notified + notifying = if x.cnt = x.num then 1 else 0
  ready : x.ready = true ↔ 0 < notified
  returned : x.caller = .returned → x.ready = true

/-- Every permit is in the semaphore, with a caller, with a task of the queue or
with a worker; every task that was taken is executed or with a worker. -/
structure Inv (threads depth : Nat) (c : System) (p : Pool) (pending : List Task) : Prop where
  fault : c.fault = none
  pool : c.pool = some p
  running : p.shutdown = .running
  size : p.queue.size = depth
  holds : p.queue.Holds pending
  order : c.added = c.taken ++ pending
  permits : c.permits + c.batches.countP holding + pending.length + c.workers.countP busy + 1 =
    depth
  threads : c.workers.length = threads
  alive : Worker.stopped ∉ c.workers
  taken : ∀ t, c.taken.count t = c.executed.count t + c.workers.countP (fetching t)
  distinct : c.added.Nodup
  added : ∀ t, t ∈ c.added ↔ ∃ x, c.batches[t.batch]? = some x ∧ t.index < submitted x
  batch : ∀ b x, c.batches[b]? = some x →
    Accounted x (c.executed.countP (inBatch b)) (c.workers.countP (reading b))
      (c.notified.count b) (c.workers.countP (notifying b))
  known : ∀ b, c.batches.length ≤ b → c.workers.countP (reading b) = 0 ∧
    c.notified.count b = 0 ∧ c.workers.countP (notifying b) = 0

variable {threads depth : Nat} {c c' : System} {p : Pool} {pending : List Task}

theorem start_inv {pool : Pool} (hd : 2 ≤ depth)
    (hp : threadpoolCreate threads depth = some pool) :
    Inv threads depth (start threads depth) pool [] := by
  have hpool : pool = ⟨Circular.empty depth, .running⟩ := by
    rw [threadpoolCreate] at hp
    split at hp
    · cases hp
    · cases hp
      rfl
  subst pool
  have hw : (start threads depth).workers = List.replicate threads .idle := by
    simp [start, hp]
  refine ⟨rfl, hp, rfl, size_empty depth, holds_empty (by omega), rfl, ?_, ?_, ?_, ?_,
    List.nodup_nil, ?_, ?_, ?_⟩
  · rw [hw]
    simp [start, busy, List.countP_replicate]
    omega
  · rw [hw, List.length_replicate]
  · rw [hw]
    simp
  · intro t
    rw [hw]
    simp [start, fetching, List.countP_replicate]
  · intro t
    simp [start]
  · intro b x hx
    cases hx
  · intro b _
    rw [hw]
    simp [start, reading, notifying, List.countP_replicate]

theorem Inv.mem_added (h : Inv threads depth c p pending) {t : Task}
    (ht : 0 < c.executed.count t + c.workers.countP (fetching t)) : t ∈ c.added := by
  rw [← h.taken t] at ht
  rw [h.order]
  exact List.mem_append_left _ (List.count_pos_iff.mp ht)

theorem Inv.executed_nodup (h : Inv threads depth c p pending) : c.executed.Nodup := by
  apply List.nodup_iff_count_le_one.mpr
  intro t
  have hn := List.nodup_iff_count_le_one.mp h.distinct t
  rw [h.order, List.count_append, h.taken t] at hn
  omega

def positions (c : System) (b : Nat) : List Nat :=
  (c.executed.filter (inBatch b)).map Task.index

theorem length_positions (c : System) (b : Nat) :
    (positions c b).length = c.executed.countP (inBatch b) := by
  rw [positions, List.length_map, ← List.countP_eq_length_filter]

theorem mem_positions {b i : Nat} : i ∈ positions c b ↔ (⟨b, i⟩ : Task) ∈ c.executed := by
  simp only [positions, List.mem_map, List.mem_filter, inBatch, decide_eq_true_eq]
  constructor
  · rintro ⟨⟨a, j⟩, ⟨hm, rfl⟩, rfl⟩
    exact hm
  · intro hm
    exact ⟨⟨b, i⟩, ⟨hm, rfl⟩, rfl⟩

theorem Inv.positions_nodup (h : Inv threads depth c p pending) (b : Nat) :
    (positions c b).Nodup := by
  apply List.Nodup.map_on _ (h.executed_nodup.filter _)
  rintro ⟨a, i⟩ ha ⟨a', j⟩ ha' hij
  simp only [List.mem_filter, inBatch, decide_eq_true_eq] at ha ha'
  obtain ⟨-, rfl⟩ := ha
  obtain ⟨-, rfl⟩ := ha'
  exact congrArg _ hij

theorem Inv.positions_subset (h : Inv threads depth c p pending) {b : Nat} {x : Batch}
    (hx : c.batches[b]? = some x) : positions c b ⊆ List.range (submitted x) := by
  intro i hi
  have hc := List.count_pos_iff.mpr (mem_positions.mp hi)
  obtain ⟨y, hy, hlt⟩ := (h.added ⟨b, i⟩).mp (h.mem_added (Nat.add_pos_left hc _))
  obtain rfl : y = x := Option.some.inj (hy.symm.trans hx)
  exact List.mem_range.mpr hlt

theorem Inv.executed_le (h : Inv threads depth c p pending) {b : Nat} {x : Batch}
    (hx : c.batches[b]? = some x) : c.executed.countP (inBatch b) ≤ submitted x := by
  have hl := ((h.positions_nodup b).subperm (h.positions_subset hx)).length_le
  rwa [length_positions, List.length_range] at hl

theorem Inv.mem_executed (h : Inv threads depth c p pending) {b : Nat} {x : Batch}
    (hx : c.batches[b]? = some x) (hn : x.num ≤ c.executed.countP (inBatch b)) {i : Nat}
    (hi : i < x.num) : (⟨b, i⟩ : Task) ∈ c.executed := by
  have hle := (h.batch b x hx).submitted_le
  have hperm := ((h.positions_nodup b).subperm (h.positions_subset hx)).perm_of_length_le (by
    rw [length_positions, List.length_range]
    exact hle.trans hn)
  have hge := h.executed_le hx
  apply mem_positions.mp
  apply hperm.mem_iff.mpr
  exact List.mem_range.mpr (by omega)

theorem forall_set {P : Nat → Batch → Prop} {l : List Batch} {b : Nat} {x : Batch}
    (hne : ∀ a y, a ≠ b → l[a]? = some y → P a y) (hx : P b x) :
    ∀ a y, (l.set b x)[a]? = some y → P a y := by
  intro a y hy
  by_cases ha : a = b
  · subst a
    rw [List.getElem?_set_self'] at hy
    obtain ⟨_, -, rfl⟩ := Option.map_eq_some_iff.mp hy
    exact hx
  · rw [List.getElem?_set_ne (Ne.symm ha)] at hy
    exact hne a y ha hy

theorem added_set {l : List Task} {bs : List Batch} {b : Nat} {x x' : Batch}
    (hl : ∀ t : Task, t ∈ l ↔ ∃ y, bs[t.batch]? = some y ∧ t.index < submitted y)
    (hb : bs[b]? = some x) (hs : submitted x' = submitted x) (t : Task) :
    t ∈ l ↔ ∃ y, (bs.set b x')[t.batch]? = some y ∧ t.index < submitted y := by
  rw [hl t]
  by_cases ht : t.batch = b
  · rw [ht, hb, List.getElem?_set_self (List.getElem?_eq_some_iff.mp hb).1]
    simp [hs]
  · rw [List.getElem?_set_ne (Ne.symm ht)]

theorem concat_cases {l : List Batch} {x y : Batch} {b : Nat} (h : (l ++ [x])[b]? = some y) :
    l[b]? = some y ∨ l.length ≤ b ∧ y = x := by
  by_cases hb : b < l.length
  · rw [List.getElem?_append_left hb] at h
    exact Or.inl h
  · have hlt := (List.getElem?_eq_some_iff.mp h).1
    rw [List.length_append, List.length_singleton] at hlt
    obtain rfl : b = l.length := by omega
    rw [List.getElem?_concat_length] at h
    exact Or.inr ⟨Nat.le_refl _, (Option.some.inj h).symm⟩

theorem Inv.executed_unknown (h : Inv threads depth c p pending) {b : Nat}
    (hb : c.batches.length ≤ b) : c.executed.countP (inBatch b) = 0 := by
  apply List.countP_eq_zero.mpr
  intro t ht he
  have hc := List.count_pos_iff.mpr ht
  obtain ⟨x, hx, -⟩ := (h.added t).mp (h.mem_added (Nat.add_pos_left hc _))
  rw [of_decide_eq_true he] at hx
  exact absurd (List.getElem?_eq_some_iff.mp hx).1 (Nat.not_lt.mpr hb)

end WiscKey.PrefetchAccounts
