import WiscKey.PrefetchProtocol

namespace WiscKey.PrefetchRace

open WiscKey.RingBuffer WiscKey.ThreadPool WiscKey.Runs WiscKey.PrefetchAccounts
  WiscKey.PrefetchWorkers

/-- The order in which the comparison of `on_prefetch_complete` evaluates its
operands, which C++ leaves open. -/
inductive Evaluation where
  | loadFirst
  | addFirst
deriving DecidableEq

/-- The prefetch system with the load of `prefetch_num` as a step of its own:
for each worker the batch whose `prefetch_num` it has loaded before its
`fetch_add`, or is about to load after it. -/
structure Racing where
  system : System
  loading : Nat → Option Nat

def start (threads queueDepth : Nat) : Racing :=
  ⟨ThreadPool.start threads queueDepth, fun _ => none⟩

inductive Step where
  | move (m : Move)
  | load (j : Nat)

def loadNum (c : Racing) (j b : Nat) (after : Option Nat) : Option Racing :=
  match c.system.batches[b]? with
  | none => none
  | some x =>
    if x.caller = .returned then
      some { c with system := { c.system with fault := some .freedContext } }
    else some { c with loading := Function.update c.loading j after }

/-- What a worker has to load once it has taken a step, if it may take one. -/
def pass (e : Evaluation) (c : Racing) (j : Nat) : Option (Nat → Option Nat) :=
  match e, c.system.workers[j]?, c.loading j with
  | .addFirst, some (.read t), none => some (Function.update c.loading j (some t.batch))
  | .addFirst, _, none => some c.loading
  | .addFirst, _, some _ => none
  | .loadFirst, some (.read _), some _ => some (Function.update c.loading j none)
  | .loadFirst, some (.read _), none => none
  | .loadFirst, _, _ => some c.loading

def step (e : Evaluation) (c : Racing) : Step → Option Racing
  | .move (.worker j) => (pass e c j).bind fun l =>
      (move c.system (.worker j)).map fun s => ⟨s, l⟩
  | .move m => (move c.system m).map fun s => ⟨s, c.loading⟩
  | .load j =>
    if c.system.fault.isSome then none
    else
      match e, c.system.workers[j]?, c.loading j with
      | .loadFirst, some (.read t), none => loadNum c j t.batch (some t.batch)
      | .addFirst, _, some b => loadNum c j b none
      | _, _, _ => none

/-- A run deletes the context of a batch before the last load of it. -/
def Races (e : Evaluation) (threads depth : Nat) : Prop :=
  ∃ (steps : List Step) (c : Racing), steps.foldlM (step e) (start threads depth) = some c ∧
    c.system.fault = some .freedContext

variable {e : Evaluation} {threads depth : Nat} {c c' : Racing} {s s' : System} {p : Pool}
  {pending : List Task} {j k b : Nat} {w w' : Worker}

/-- The batch of a worker that has counted its read and not yet loaded
`prefetch_num` is still waited for. -/
def Waiting (s : System) (j b : Nat) : Prop :=
  s.workers[j]? = some (.last b) ∨
    s.workers[j]? = some .finished ∧ ∃ x, s.batches[b]? = some x ∧ x.cnt < x.num

theorem returned_full (h : Inv threads depth s p pending) {x : Batch}
    (hx : s.batches[b]? = some x) (hr : x.caller = .returned) : x.cnt = x.num ∧ x.ready = true := by
  have ha := h.batch b x hx
  have hready := ha.returned hr
  refine ⟨?_, hready⟩
  by_contra hne
  have hn := ha.notify
  rw [if_neg hne] at hn
  have hpos := ha.ready.mp hready
  omega

theorem Waiting.not_returned (h : Inv threads depth s p pending) (hw : Waiting s j b) :
    ∃ x, s.batches[b]? = some x ∧ x.caller ≠ .returned := by
  obtain hj | ⟨-, x, hx, hlt⟩ := hw
  · obtain ⟨x, hx, hready⟩ := notify_pending h (List.mem_of_getElem? hj)
    refine ⟨x, hx, fun hr => ?_⟩
    rw [(returned_full h hx hr).2] at hready
    cases hready
  · refine ⟨x, hx, fun hr => ?_⟩
    rw [(returned_full h hx hr).1] at hlt
    exact Nat.lt_irrefl _ hlt

theorem two_busy (h : Inv threads depth s p pending) (hj : s.workers[j]? = some w)
    (hk : s.workers[k]? = some w') (hne : j ≠ k) (hw : busy w = true) (hw' : busy w' = true) :
    2 ≤ threads ∧ 3 ≤ depth := by
  have htwo : 2 ≤ s.workers.countP busy := by
    have hloss := countP_set_loss (b := Worker.idle) hj hw (by simp [busy])
    have hk' : (s.workers.set j .idle)[k]? = some w' := (List.getElem?_set_ne hne).trans hk
    have hpos : 0 < (s.workers.set j .idle).countP busy :=
      List.countP_pos_iff.mpr ⟨w', List.mem_of_getElem? hk', hw'⟩
    omega
  have hle := List.countP_le_length (p := busy) (l := s.workers)
  have hperm := h.permits
  have hthreads := h.threads
  omega

theorem moved_workers {m : Move} (hm : Moved s m s') (hne : m ≠ .worker j) :
    s'.workers[j]? = s.workers[j]? := by
  have hset : ∀ {k : Nat} {w : Worker}, m = .worker k →
      (s.workers.set k w)[j]? = s.workers[j]? := by
    intro k w hk
    refine List.getElem?_set_ne ?_
    rintro rfl
    exact hne hk
  cases hm with
  | call | semWait | wait | add | refused | freed => rfl
  | take | stop | execute | callback | notify | post => exact hset rfl

theorem moved_batches {m : Move} (hm : Moved s m s') {x : Batch} (hx : s.batches[b]? = some x)
    (hread : ∀ k t, m = .worker k → s.workers[k]? = some (.read t) → t.batch ≠ b) :
    ∃ x', s'.batches[b]? = some x' ∧ x'.cnt = x.cnt ∧ x'.num = x.num := by
  have hset : ∀ {a : Nat} {y y' : Batch}, s.batches[a]? = some y →
      (a = b → y'.cnt = y.cnt ∧ y'.num = y.num) →
      ∃ x', (s.batches.set a y')[b]? = some x' ∧ x'.cnt = x.cnt ∧ x'.num = x.num := by
    intro a y y' hy hsame
    by_cases ha : a = b
    · subst a
      rw [hx] at hy
      cases hy
      exact ⟨y', List.getElem?_set_self (List.getElem?_eq_some_iff.mp hx).1, hsame rfl⟩
    · exact ⟨x, (List.getElem?_set_ne ha).trans hx, rfl, rfl⟩
  cases hm with
  | call hn =>
    refine ⟨x, ?_, rfl, rfl⟩
    exact (List.getElem?_append_left (List.getElem?_eq_some_iff.mp hx).1).trans hx
  | semWait hy | wait hy | add hy => exact hset hy fun _ => ⟨rfl, rfl⟩
  | notify hj hy => exact hset hy fun _ => ⟨rfl, rfl⟩
  | callback hj hy => exact hset hy fun ha => absurd ha (hread _ _ rfl hj)
  | refused | take | stop | execute | freed | post => exact ⟨x, hx, rfl, rfl⟩

theorem Waiting.moved {m : Move} (hw : Waiting s j b) (hm : Moved s m s') (hne : m ≠ .worker j)
    (hread : ∀ k t, m = .worker k → s.workers[k]? = some (.read t) → t.batch ≠ b) :
    Waiting s' j b := by
  have hj := moved_workers hm hne
  obtain hl | ⟨hf, x, hx, hlt⟩ := hw
  · exact Or.inl (hj.trans hl)
  · obtain ⟨x', hx', hc, hn⟩ := moved_batches hm hx hread
    refine Or.inr ⟨hj.trans hf, x', hx', ?_⟩
    rw [hc, hn]
    exact hlt

theorem callback_waiting (h : Inv threads depth s p pending) {t : Task}
    (hj : s.workers[j]? = some (.read t)) (hm : Moved s (.worker j) s') :
    Waiting s' j t.batch := by
  have hlt : ∀ {l : List Worker} {w : Worker}, l[j]? = some w → j < l.length :=
    fun h => (List.getElem?_eq_some_iff.mp h).1
  cases hm with
  | take hj' | stop hj' | execute hj' | notify hj' | post hj' =>
    rw [hj] at hj'
    cases hj'
  | @callback _ t' x hj' hx hc =>
    rw [hj] at hj'
    cases hj'
    have hcnt := cnt_lt h (List.mem_of_getElem? hj) hx
    by_cases hlast : x.cnt + 1 = x.num
    · refine Or.inl ?_
      rw [if_pos hlast]
      exact List.getElem?_set_self (hlt hj)
    · refine Or.inr ⟨?_, { x with cnt := x.cnt + 1 }, ?_, ?_⟩
      · rw [if_neg hlast]
        exact List.getElem?_set_self (hlt hj)
      · exact List.getElem?_set_self (List.getElem?_eq_some_iff.mp hx).1
      · change x.cnt + 1 < x.num
        omega
  | @freed _ w a x hj' hw hx hr =>
    rw [hj] at hj'
    cases hj'
    obtain hw | ⟨t', ht, rfl⟩ := hw
    · cases hw
    · cases ht
      have hcnt := cnt_lt h (List.mem_of_getElem? hj) hx
      rw [(returned_full h hx hr).1] at hcnt
      exact absurd hcnt (Nat.lt_irrefl _)

structure Safe (e : Evaluation) (threads depth : Nat) (c : Racing) : Prop where
  inv : ∃ p pending, Inv threads depth c.system p pending
  waiting : e = .addFirst → ∀ j b, c.loading j = some b → Waiting c.system j b

theorem loadNum_eq {after : Option Nat} {x : Batch} (hx : c.system.batches[b]? = some x)
    (hr : x.caller ≠ .returned) :
    loadNum c j b after = some { c with loading := Function.update c.loading j after } := by
  simp only [loadNum, hx, if_neg hr]

theorem load_eq (h : Safe e threads depth c) (hs : step e c (.load j) = some c') :
    (e = .loadFirst ∧ ∃ t, c.system.workers[j]? = some (.read t) ∧ c.loading j = none ∧
      c' = { c with loading := Function.update c.loading j (some t.batch) }) ∨
    (e = .addFirst ∧ (c.loading j).isSome ∧
      c' = { c with loading := Function.update c.loading j none }) := by
  obtain ⟨p, pending, hi⟩ := h.inv
  simp only [step] at hs
  split at hs
  · cases hs
  · split at hs
    · rename_i t hj hl
      cases hx : c.system.batches[t.batch]? with
      | none =>
        rw [loadNum, hx] at hs
        cases hs
      | some x =>
        have hr : x.caller ≠ .returned := by
          intro hr
          have hlt := cnt_lt hi (List.mem_of_getElem? hj) hx
          rw [(returned_full hi hx hr).1] at hlt
          exact Nat.lt_irrefl _ hlt
        rw [loadNum_eq hx hr] at hs
        cases hs
        exact Or.inl ⟨rfl, t, hj, hl, rfl⟩
    · rename_i b hl
      obtain ⟨x, hx, hr⟩ := (h.waiting rfl j b hl).not_returned hi
      rw [loadNum_eq hx hr] at hs
      cases hs
      exact Or.inr ⟨rfl, hl ▸ rfl, rfl⟩
    · cases hs

theorem load_safe (h : Safe e threads depth c) (hs : step e c (.load j) = some c') :
    Safe e threads depth c' := by
  obtain ⟨rfl, t, -, -, rfl⟩ | ⟨rfl, -, rfl⟩ := load_eq h hs
  · exact ⟨h.inv, fun he => by cases he⟩
  · refine ⟨h.inv, fun he i a hi => ?_⟩
    have hi : Function.update c.loading j none i = some a := hi
    by_cases hij : i = j
    · subst i
      rw [Function.update_self] at hi
      cases hi
    · rw [Function.update_of_ne hij] at hi
      exact h.waiting he i a hi

theorem pass_addFirst {l : Nat → Option Nat} (h : pass .addFirst c j = some l) :
    c.loading j = none ∧ ((∃ t, c.system.workers[j]? = some (.read t) ∧
      l = Function.update c.loading j (some t.batch)) ∨
      (∀ t, c.system.workers[j]? ≠ some (.read t)) ∧ l = c.loading) := by
  cases hl : c.loading j with
  | some b =>
    unfold pass at h
    rw [hl] at h
    split at h <;> simp_all
  | none =>
    refine ⟨rfl, ?_⟩
    unfold pass at h
    rw [hl] at h
    split at h <;> simp_all

theorem pass_ne {l : Nat → Option Nat} (h : pass e c j = some l) {i : Nat} (hi : i ≠ j) :
    l i = c.loading i := by
  unfold pass at h
  split at h <;> cases h <;> first | rfl | exact Function.update_of_ne hi _ _

theorem Waiting.busy (h : Waiting s j b) : ∃ w, s.workers[j]? = some w ∧ busy w = true := by
  obtain hj | ⟨hj, -⟩ := h
  · exact ⟨_, hj, by simp [PrefetchAccounts.busy]⟩
  · exact ⟨_, hj, by simp [PrefetchAccounts.busy]⟩

theorem worker_safe (hno : ¬ (e = .addFirst ∧ 2 ≤ threads ∧ 3 ≤ depth))
    (h : Safe e threads depth c) (hs : step e c (.move (.worker k)) = some c') :
    Safe e threads depth c' := by
  obtain ⟨p, pending, hi⟩ := h.inv
  obtain ⟨l, hp, hs⟩ := Option.bind_eq_some_iff.mp hs
  obtain ⟨s', hm, rfl⟩ := Option.map_eq_some_iff.mp hs
  have hmoved := (moved_of_move hm).2
  refine ⟨moved_inv hi hmoved, fun he j b hl => ?_⟩
  subst e
  have hl : l j = some b := hl
  obtain ⟨hnone, ⟨t, ht, rfl⟩ | ⟨hread, rfl⟩⟩ := pass_addFirst hp
  · by_cases hjk : j = k
    · subst j
      rw [Function.update_self] at hl
      cases hl
      exact callback_waiting hi ht hmoved
    · -- another worker in progress would leave this one no permit
      rw [Function.update_of_ne hjk] at hl
      obtain ⟨w, hw, hbusy⟩ := (h.waiting rfl j b hl).busy
      have htwo := two_busy hi hw ht hjk hbusy (by simp [busy])
      exact absurd ⟨rfl, htwo⟩ hno
  · have hjk : j ≠ k := by
      rintro rfl
      rw [hnone] at hl
      cases hl
    refine (h.waiting rfl j b hl).moved hmoved ?_ ?_
    · rintro ⟨⟩
      exact hjk rfl
    · rintro i t ⟨⟩ ht
      exact absurd ht (hread t)

theorem step_safe (hno : ¬ (e = .addFirst ∧ 2 ≤ threads ∧ 3 ≤ depth)) {a : Step}
    (h : Safe e threads depth c) (hs : step e c a = some c') : Safe e threads depth c' := by
  cases a with
  | load j => exact load_safe h hs
  | move m =>
    obtain ⟨p, pending, hi⟩ := h.inv
    cases m with
    | worker k => exact worker_safe hno h hs
    | call num | caller b =>
      obtain ⟨s', hm, rfl⟩ := Option.map_eq_some_iff.mp hs
      have hmoved := (moved_of_move hm).2
      refine ⟨moved_inv hi hmoved, fun he j b hl => ?_⟩
      refine (h.waiting he j b hl).moved hmoved (by simp) ?_
      rintro i t ⟨⟩

theorem start_safe (ht : threads ≤ maxThreads) (ht' : 1 ≤ threads) (hd : 2 ≤ depth)
    (hd' : depth ≤ maxQueue) : Safe e threads depth (start threads depth) where
  inv := by
    have hp : threadpoolCreate threads depth = some ⟨Circular.empty depth, .running⟩ := by
      rw [threadpoolCreate, if_neg (by omega)]
    exact ⟨_, _, start_inv hd hp⟩
  waiting := by
    rintro - j b ⟨⟩

/-- Two workers each have a read of the same batch. The second one counts last,
notifies and lets the caller delete the context before the first one loads
`prefetch_num`. -/
def racing : List Step :=
  [.move (.call 2), .move (.caller 0), .move (.caller 0), .move (.caller 0), .move (.caller 0),
    .move (.worker 0), .move (.worker 0), .move (.worker 0), .move (.worker 1), .move (.worker 1),
    .move (.worker 1), .load 1, .move (.worker 1), .move (.caller 0), .load 0]

theorem races_of_two (n d : Nat) (hn : n + 2 ≤ maxThreads) (hd : d + 3 ≤ maxQueue) :
    Races .addFirst (n + 2) (d + 3) := by
  have hp : threadpoolCreate (n + 2) (d + 3) = some ⟨Circular.empty (d + 3), .running⟩ := by
    rw [threadpoolCreate, if_neg (by omega)]
  have hstart : start (n + 2) (d + 3) = ⟨⟨some ⟨Circular.empty (d + 3), .running⟩, d + 2,
      List.replicate (n + 2) .idle, [], none, [], [], [], []⟩, fun _ => none⟩ := by
    simp [start, ThreadPool.start, hp]
  have hrun : (racing.foldlM (step .addFirst) (start (n + 2) (d + 3))).bind
      (fun c => c.system.fault) = some .freedContext := by
    rw [hstart]
    rfl
  obtain ⟨c, hc, hf⟩ := Option.bind_eq_some_iff.mp hrun
  exact ⟨racing, c, hc, hf⟩

/-- A worker uses the context of a batch after `prefetch_value` has deleted it
in some run just when the callback loads `prefetch_num` after its `fetch_add`
and two reads can be in progress at the same time. -/
theorem races_iff (e : Evaluation) (threads depth : Nat)
    (ht : 1 ≤ threads ∧ threads ≤ maxThreads) (hd : 2 ≤ depth ∧ depth ≤ maxQueue) :
    Races e threads depth ↔ e = .addFirst ∧ 2 ≤ threads ∧ 3 ≤ depth := by
  constructor
  · rintro ⟨steps, c, hrun, hfault⟩
    by_contra hno
    have hsafe : Safe e threads depth c := foldlM_invariant
      (fun _ _ _ _ h hs => step_safe hno h hs) (start_safe ht.2 ht.1 hd.1 hd.2) hrun
    obtain ⟨p, pending, hi⟩ := hsafe.inv
    rw [hi.fault] at hfault
    cases hfault
  · rintro ⟨rfl, h₁, h₂⟩
    obtain ⟨n, rfl⟩ := Nat.exists_eq_add_of_le' h₁
    obtain ⟨d, rfl⟩ := Nat.exists_eq_add_of_le' h₂
    exact races_of_two n d ht.2 hd.2

theorem races_iff_two : Races .addFirst 2 3 ∧ ¬ Races .loadFirst 2 3 := by
  constructor
  · exact (races_iff .addFirst 2 3 (by decide) (by decide)).mpr (by decide)
  · exact fun h => absurd ((races_iff .loadFirst 2 3 (by decide) (by decide)).mp h) (by decide)

end WiscKey.PrefetchRace
