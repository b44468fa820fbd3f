import WiscKey.PrefetchRace

namespace WiscKey.PrefetchCorrect

open WiscKey.Runs WiscKey.PrefetchAccounts WiscKey.PrefetchWorkers WiscKey.PrefetchProtocol
open WiscKey.PrefetchRace
open WiscKey.ThreadPool hiding start

def ofWorker : Step → Bool
  | .move (.worker _) => true
  | .move _ => false
  | .load _ => true

/-- What is promised of the protocol in every state it reaches. The workers, when
nothing new comes, stop after a bounded number of steps, and where they stop every
read has been executed and every batch that is waited for was notified. -/
structure Correct (e : Evaluation) (depth : Nat) (c : Racing) : Prop where
  sound : Sound depth c.system
  stops : ∀ (steps : List Step) d, (∀ a ∈ steps, ofWorker a = true) →
    steps.foldlM (step e) c = some d → steps.length ≤ 6 * (depth - 1)
  executed : (∀ a, ofWorker a = true → step e c a = none) →
    (∀ t ∈ c.system.added, c.system.executed.count t = 1) ∧
      ∀ b x, c.system.batches[b]? = some x → x.caller = .loop x.num →
        c.system.notified.count b = 1

variable {e : Evaluation} {threads depth : Nat} {c c' : Racing} {s' : System} {p : Pool}
  {pending : List Task} {j b : Nat}

/-- Whether a worker has `prefetch_num` still to load for its task. -/
def toLoad (e : Evaluation) (w : Option Worker) (loading : Option Nat) : Nat :=
  match w with
  | some (.taken _) => 1
  | some (.read _) => if e = .loadFirst ∧ loading.isSome then 0 else 1
  | _ => if e = .addFirst ∧ loading.isSome then 1 else 0

def loads (e : Evaluation) (c : Racing) : Nat :=
  ∑ j ∈ Finset.range c.system.workers.length, toLoad e c.system.workers[j]? (c.loading j)

def rank (e : Evaluation) (c : Racing) : Nat :=
  remaining c.system + (c.system.added.length - c.system.taken.length) + loads e c

theorem toLoad_le_one (e : Evaluation) (w : Option Worker) (l : Option Nat) :
    toLoad e w l ≤ 1 := by
  unfold toLoad
  split
  · exact Nat.le_refl _
  · exact ite_le_one (Nat.zero_le _) (Nat.le_refl _)
  · exact ite_le_one (Nat.le_refl _) (Nat.zero_le _)

theorem toLoad_le (h : Safe e threads depth c) (j : Nat) :
    toLoad e c.system.workers[j]? (c.loading j) ≤
      if c.system.workers[j]?.any busy then 1 else 0 := by
  by_cases hb : c.system.workers[j]?.any busy = true
  · rw [if_pos hb]
    exact toLoad_le_one e _ _
  · rw [if_neg hb]
    have hl : ¬ (e = .addFirst ∧ (c.loading j).isSome) := by
      rintro ⟨he, hl⟩
      obtain ⟨b, hl⟩ := Option.isSome_iff_exists.mp hl
      obtain ⟨w, hw, hbusy⟩ := (h.waiting he j b hl).busy
      exact hb (by rw [hw]; exact hbusy)
    unfold toLoad
    split
    · rename_i hw
      exact absurd (by rw [hw]; rfl) hb
    · rename_i hw
      exact absurd (by rw [hw]; rfl) hb
    · rw [if_neg hl]

theorem rank_le (h : Safe e threads depth c) : rank e c ≤ 6 * (depth - 1) := by
  obtain ⟨p, pending, hi⟩ := h.inv
  have hw := weight_sum_le c.system.workers
  have hl : loads e c ≤ c.system.workers.countP busy := sum_range_le_countP _ _ (toLoad_le h)
  have hd := hi.permits
  rw [rank, remaining, length_pending hi]
  omega

theorem rank_update {after : Option Nat} (hj : j < c.system.workers.length)
    (hold : toLoad e c.system.workers[j]? (c.loading j) = 1)
    (hnew : toLoad e c.system.workers[j]? after = 0) :
    rank e { c with loading := Function.update c.loading j after } < rank e c := by
  have hsum := sum_range_change (f := fun i => toLoad e c.system.workers[i]?
      (Function.update c.loading j after i))
    (g := fun i => toLoad e c.system.workers[i]? (c.loading i)) hj
    fun i hi => by rw [Function.update_of_ne hi]
  simp only [Function.update_self, hold, hnew] at hsum
  simp only [rank, loads]
  omega

theorem toLoad_of_waiting {s : System} (h : Waiting s j b) (l : Option Nat) :
    toLoad .addFirst s.workers[j]? l = if l.isSome then 1 else 0 := by
  obtain hj | ⟨hj, -⟩ := h
  · simp [hj, toLoad]
  · simp [hj, toLoad]

theorem load_rank (h : Safe e threads depth c) (hs : step e c (.load j) = some c') :
    rank e c' < rank e c := by
  obtain ⟨rfl, t, hj, hl, rfl⟩ | ⟨rfl, hl, rfl⟩ := load_eq h hs
  · refine rank_update (List.getElem?_eq_some_iff.mp hj).1 ?_ ?_
    · rw [hj, hl]
      rfl
    · rw [hj]
      rfl
  · obtain ⟨b, hb⟩ := Option.isSome_iff_exists.mp hl
    have hw := h.waiting rfl j b hb
    obtain ⟨w, hj, -⟩ := hw.busy
    refine rank_update (List.getElem?_eq_some_iff.mp hj).1 ?_ ?_
    · rw [toLoad_of_waiting hw, if_pos hl]
    · rw [toLoad_of_waiting hw]
      rfl

theorem pass_loaded {l : Nat → Option Nat} (hp : pass e c j = some l) {w : Worker}
    (hw : c.system.workers[j]? = some w) (hr : ∀ t, w ≠ .read t) :
    ¬ (e = .addFirst ∧ (l j).isSome) := by
  rintro ⟨rfl, hl⟩
  obtain ⟨hnone, ⟨t, ht, -⟩ | ⟨-, rfl⟩⟩ := pass_addFirst hp
  · rw [hw] at ht
    exact hr t (Option.some.inj ht)
  · rw [hnone] at hl
    cases hl

/-- The loads that a task needs do not grow in number with a step of its worker. A
task that waits in the queue needs one. -/
theorem toLoad_moved (h : Inv threads depth c.system p pending) {l : Nat → Option Nat}
    (hp : pass e c j = some l) (hm : Moved c.system (.worker j) s') :
    toLoad e s'.workers[j]? (l j) + (s'.added.length - s'.taken.length) ≤
      toLoad e c.system.workers[j]? (c.loading j) +
        (c.system.added.length - c.system.taken.length) := by
  have hset : ∀ {w w' : Worker}, c.system.workers[j]? = some w →
      (c.system.workers.set j w')[j]? = some w' := by
    intro w w' hw
    exact List.getElem?_set_self (List.getElem?_eq_some_iff.mp hw).1
  obtain ⟨p', pending', h'⟩ := moved_inv h hm
  have hone := toLoad_le_one e s'.workers[j]? (l j)
  cases hm with
  | take hj hq ht hc =>
    rw [h.pool] at hq
    cases hq
    obtain ⟨rest, rfl, -⟩ := take_inv h hj ht (fun h0 => hc ⟨h0, h.running⟩)
    have hl := length_pending h
    simp only [List.length_append, List.length_cons, List.length_nil] at hl hone ⊢
    omega
  | stop hj hq hs =>
    rw [h.pool] at hq
    cases hq
    exact absurd h.running hs
  | execute hj =>
    have hold : toLoad e c.system.workers[j]? (c.loading j) = 1 := by
      rw [hj]
      rfl
    rw [hold]
    exact Nat.add_le_add_right hone _
  | @callback _ t x hj hx hr =>
    refine Nat.add_le_add_right ?_ _
    cases e with
    | addFirst =>
      have hold : toLoad .addFirst c.system.workers[j]? (c.loading j) = 1 := by
        rw [hj]
        rfl
      rw [hold]
      exact hone
    | loadFirst =>
      have hnew : toLoad .loadFirst (c.system.workers.set j
          (if x.cnt + 1 = x.num then .last t.batch else .finished))[j]? (l j) = 0 := by
        rw [hset hj]
        split <;> rfl
      rw [hnew]
      exact Nat.zero_le _
  | notify hj hx hr =>
    refine Nat.add_le_add_right ?_ _
    rw [hset hj, show toLoad e (some .finished) (l j) = 0 from
      if_neg (pass_loaded hp hj fun _ => by simp)]
    exact Nat.zero_le _
  | freed => exact absurd h'.fault (by simp)
  | post hj =>
    refine Nat.add_le_add_right ?_ _
    rw [hset hj, show toLoad e (some .idle) (l j) = 0 from
      if_neg (pass_loaded hp hj fun _ => by simp)]
    exact Nat.zero_le _

theorem worker_rank (h : Safe e threads depth c)
    (hs : step e c (.move (.worker j)) = some c') : rank e c' < rank e c := by
  obtain ⟨p, pending, hi⟩ := h.inv
  obtain ⟨l, hp, hs⟩ := Option.bind_eq_some_iff.mp hs
  obtain ⟨s', hm, rfl⟩ := Option.map_eq_some_iff.mp hs
  have hmoved := (moved_of_move hm).2
  obtain ⟨p', pending', hi'⟩ := moved_inv hi hmoved
  have hj : j < c.system.workers.length := by
    by_contra hj
    rw [move, if_neg (by simp [hi.fault]), List.getElem?_eq_none (by omega)] at hm
    cases hm
  have hsum := sum_range_change (f := fun i => toLoad e s'.workers[i]? (l i))
    (g := fun i => toLoad e c.system.workers[i]? (c.loading i)) hj
    fun i hi => by
      rw [moved_workers hmoved (by simpa using Ne.symm hi), pass_ne hp hi]
  have hlen : s'.workers.length = c.system.workers.length := hi'.threads.trans hi.threads.symm
  have hlt := remaining_lt hi hmoved
  have hle := toLoad_moved hi hp hmoved
  simp only [rank, loads, hlen]
  omega

theorem step_rank {a : Step} (ha : ofWorker a = true) (h : Safe e threads depth c)
    (hs : step e c a = some c') : rank e c' < rank e c := by
  cases a with
  | load j => exact load_rank h hs
  | move m =>
    cases m with
    | worker j => exact worker_rank h hs
    | call | caller => cases ha

theorem workers_stop (hno : ¬ (e = .addFirst ∧ 2 ≤ threads ∧ 3 ≤ depth)) {steps : List Step}
    (h : Safe e threads depth c) (hw : ∀ a ∈ steps, ofWorker a = true)
    (hrun : steps.foldlM (step e) c = some c') : steps.length ≤ rank e c := by
  induction steps generalizing c with
  | nil => exact Nat.zero_le _
  | cons a steps ih =>
    obtain ⟨ha, hw⟩ := List.forall_mem_cons.mp hw
    rw [List.foldlM_cons] at hrun
    obtain ⟨d, hd, hrun⟩ := Option.bind_eq_some_iff.mp hrun
    have hlt := step_rank ha h hd
    have hle := ih (step_safe hno h hd) hw hrun
    rw [List.length_cons]
    omega

theorem pass_none (h : pass e c j = none) :
    (e = .addFirst ∧ ∃ b, c.loading j = some b) ∨
      e = .loadFirst ∧ (∃ t, c.system.workers[j]? = some (.read t)) ∧ c.loading j = none := by
  unfold PrefetchRace.pass at h
  split at h
  · cases h
  · cases h
  · rename_i hl
    exact Or.inl ⟨rfl, _, hl⟩
  · cases h
  · rename_i hw hl
    exact Or.inr ⟨rfl, ⟨_, hw⟩, hl⟩
  · cases h

theorem stuck_workers (h : Safe e threads depth c)
    (hs : ∀ a, ofWorker a = true → step e c a = none) (j : Nat) :
    move c.system (.worker j) = none := by
  obtain ⟨p, pending, hi⟩ := h.inv
  by_contra hm
  obtain ⟨s', hm⟩ := Option.ne_none_iff_exists'.mp hm
  have hload := hs (.load j) rfl
  have hpass : pass e c j = none := by
    have hmove := hs (.move (.worker j)) rfl
    rw [step, hm] at hmove
    cases hp : pass e c j with
    | none => rfl
    | some l =>
      rw [hp] at hmove
      cases hmove
  have hfault : ¬ c.system.fault.isSome := by simp [hi.fault]
  obtain ⟨rfl, b, hl⟩ | ⟨rfl, ⟨t, ht⟩, hl⟩ := pass_none hpass
  · obtain ⟨x, hx, hr⟩ := (h.waiting rfl j b hl).not_returned hi
    simp only [step, if_neg hfault, hl, loadNum_eq hx hr] at hload
    cases hload
  · rw [move_worker hi ht] at hm
    simp only [step, if_neg hfault, ht, hl, loadNum] at hload
    simp only [work] at hm
    split at hm
    · cases hm
    · rename_i x hx
      simp only [hx] at hload
      split at hload
      · cases hload
      · cases hload

theorem correct_of_safe (hno : ¬ (e = .addFirst ∧ 2 ≤ threads ∧ 3 ≤ depth)) (ht : 1 ≤ threads)
    (h : Safe e threads depth c) : Correct e depth c := by
  obtain ⟨p, pending, hi⟩ := h.inv
  refine ⟨sound_of_inv hi, ?_, ?_⟩
  · intro steps d hw hrun
    exact (workers_stop hno h hw hrun).trans (rank_le h)
  · intro hs
    have hstuck := stuck_workers h hs
    refine ⟨fun t hm => stuck_executed hi ht hstuck hm, ?_⟩
    intro b x hx hc
    exact stuck_notified hi ht hstuck hx (by simp [submitted, hc])

/-- `threadpool_create` makes no pool with more than `MAX_THREADS` workers, and the
first read then ends the process. -/
def unpooled : List Step := [.move (.call 1), .move (.caller 0), .move (.caller 0)]

theorem unpooled_exits (n d : Nat) : ∃ c,
    unpooled.foldlM (step e) (start (n + 129) (d + 2)) = some c ∧
      c.system.fault = some (.exited .invalid) := by
  have hp : threadpoolCreate (n + 129) (d + 2) = none := by
    rw [threadpoolCreate, if_pos (by simp [maxThreads])]
  have hstart : start (n + 129) (d + 2) =
      ⟨⟨none, d + 1, [], [], none, [], [], [], []⟩, fun _ => none⟩ := by
    simp [start, ThreadPool.start, hp]
  have hrun : (unpooled.foldlM (step e) (start (n + 129) (d + 2))).bind
      (fun c => c.system.fault) = some (.exited .invalid) := by
    rw [hstart]
    rfl
  exact Option.bind_eq_some_iff.mp hrun

/-- The protocol keeps its promise in every run just when there is a pool, and either
`prefetch_num` is loaded first or no two reads are in progress at the same time. -/
theorem prefetch_correct_iff (e : Evaluation) (threads depth : Nat) (ht : 1 ≤ threads)
    (hd : 2 ≤ depth ∧ depth ≤ maxQueue) :
    (∀ (steps : List Step) c, steps.foldlM (step e) (start threads depth) = some c →
      Correct e depth c) ↔
    threads ≤ maxThreads ∧ (e = .loadFirst ∨ threads = 1 ∨ depth = 2) := by
  constructor
  · intro h
    have hthreads : threads ≤ maxThreads := by
      by_contra hlt
      obtain ⟨n, rfl⟩ := Nat.exists_eq_add_of_le' (show 129 ≤ threads from Nat.lt_of_not_le hlt)
      obtain ⟨d, rfl⟩ := Nat.exists_eq_add_of_le' hd.1
      obtain ⟨c, hrun, hfault⟩ := unpooled_exits (e := e) n d
      rw [(h _ c hrun).sound.fault] at hfault
      cases hfault
    refine ⟨hthreads, ?_⟩
    cases e with
    | loadFirst => exact Or.inl rfl
    | addFirst =>
      by_contra hno
      obtain ⟨n, rfl⟩ := Nat.exists_eq_add_of_le' (show 2 ≤ threads by omega)
      obtain ⟨d, rfl⟩ := Nat.exists_eq_add_of_le' (show 3 ≤ depth by omega)
      obtain ⟨steps, c, hrun, hfault⟩ := races_of_two n d hthreads hd.2
      rw [(h steps c hrun).sound.fault] at hfault
      cases hfault
  · rintro ⟨hthreads, hcond⟩ steps c hrun
    have hno : ¬ (e = .addFirst ∧ 2 ≤ threads ∧ 3 ≤ depth) := by
      rintro ⟨rfl, h2, h3⟩
      obtain he | he | he := hcond
      · cases he
      · omega
      · omega
    have hsafe : Safe e threads depth c := foldlM_invariant
      (fun _ _ _ _ h hs => step_safe hno h hs) (start_safe hthreads ht hd.1 hd.2) hrun
    exact correct_of_safe hno ht hsafe

/-- Two workers with the reads of two callers, each with its load before its
`fetch_add`. -/
def shared : List Step :=
  [.move (.call 1), .move (.call 2), .move (.caller 0), .move (.caller 0), .move (.caller 1),
    .move (.caller 1), .move (.worker 0), .move (.worker 1), .move (.worker 1), .move (.worker 0),
    .load 0, .load 1, .move (.worker 0), .move (.worker 1), .move (.worker 0), .move (.caller 0),
    .move (.worker 0), .move (.caller 1), .move (.caller 1)]

theorem prefetch_correct_shared : ∃ c,
    shared.foldlM (step .loadFirst) (start 2 3) = some c ∧
      c.system.batches.map Batch.caller = [.returned, .loop 2] ∧ c.system.notified = [0] ∧
      Correct .loadFirst 3 c := by
  have hrun : ∃ c ∈ shared.foldlM (step .loadFirst) (start 2 3),
      c.system.batches.map Batch.caller = [.returned, .loop 2] ∧ c.system.notified = [0] := by
    decide +kernel
  obtain ⟨c, hc, hcaller, hnotified⟩ := hrun
  refine ⟨c, hc, hcaller, hnotified, ?_⟩
  exact (prefetch_correct_iff .loadFirst 2 3 (by decide) (by decide)).mpr (by decide) shared c hc

/-- With two workers and two permits a worker loads `prefetch_num` of a context that
is deleted. With too many threads there is no pool to add to. -/
theorem prefetch_fails :
    (∃ c, racing.foldlM (step .addFirst) (start 2 3) = some c ∧
      c.system.batches.map Batch.caller = [.returned] ∧
      c.system.fault = some .freedContext ∧ ¬ Correct .addFirst 3 c) ∧
    ∃ c, unpooled.foldlM (step .loadFirst) (start 129 2) = some c ∧
      c.system.fault = some (.exited .invalid) ∧ ¬ Correct .loadFirst 2 c := by
  have hrace : ∃ c ∈ racing.foldlM (step .addFirst) (start 2 3),
      c.system.batches.map Batch.caller = [.returned] ∧
      c.system.fault = some .freedContext := by
    decide +kernel
  obtain ⟨c, hc, hcaller, hfault⟩ := hrace
  obtain ⟨d, hd, hexit⟩ := unpooled_exits (e := .loadFirst) 0 0
  refine ⟨⟨c, hc, hcaller, hfault, ?_⟩, d, hd, hexit, ?_⟩
  · intro h
    rw [h.sound.fault] at hfault
    cases hfault
  · intro h
    rw [h.sound.fault] at hexit
    cases hexit

end WiscKey.PrefetchCorrect
