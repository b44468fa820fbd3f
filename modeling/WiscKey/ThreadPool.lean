import WiscKey.RingBuffer

namespace WiscKey.ThreadPool

open WiscKey.RingBuffer

/-- A read that was handed to the pool, known by the `prefetch_value` call it
belongs to and its position there. -/
structure Task where
  batch : Nat
  index : Nat
deriving DecidableEq

inductive Shutdown where
  | running
  | immediate
  | graceful
deriving DecidableEq

inductive AddError where
  | invalid
  | queueFull
  | shutdown
deriving DecidableEq

/-- The queue of `threadpool_t` with its `head`, `tail` and `count`, and the
shutdown flag. -/
structure Pool where
  queue : Circular Task
  shutdown : Shutdown
deriving DecidableEq

def maxThreads : Nat := 128

def maxQueue : Nat := 65536

def threadpoolCreate (threadCount queueSize : Nat) : Option Pool :=
  if threadCount = 0 ∨ threadCount > maxThreads ∨ queueSize = 0 ∨ queueSize > maxQueue then none
  else some ⟨Circular.empty queueSize, .running⟩

def threadpoolAdd (pool : Option Pool) (task : Task) : Except AddError Pool :=
  match pool with
  | none => .error .invalid
  | some p =>
    if p.queue.count = p.queue.size then .error .queueFull
    else if p.shutdown ≠ .running then .error .shutdown
    else .ok { p with queue := p.queue.push task }

/-- Where a worker is in `threadpool_thread`: before it takes a task, with a
task whose `pread` is still to come, between `pread` and the callback, before
`notify`, before `sem_post`, or out of its loop. -/
inductive Worker where
  | idle
  | taken (task : Task)
  | read (task : Task)
  | last (batch : Nat)
  | finished
  | stopped
deriving DecidableEq

/-- Where `prefetch_value` is: at the head of its loop, between `sem_wait` and
`threadpool_add`, or behind `mon.wait()`. -/
inductive Caller where
  | loop (i : Nat)
  | permitted (i : Nat)
  | returned
deriving DecidableEq

/-- One call of `prefetch_value` with its `Prefetch_context` and `Monitor`. -/
structure Batch where
  num : Nat
  caller : Caller
  cnt : Nat
  ready : Bool
deriving DecidableEq

/-- What ends the process: `async_pread` exits when the pool refuses a task. A
context that is used after `delete ctx` is a fault as well. -/
inductive Fault where
  | exited (error : AddError)
  | freedContext
deriving DecidableEq

/-- The pool with all the threads that use it. The last four components are
histories. -/
structure System where
  pool : Option Pool
  permits : Nat
  workers : List Worker
  batches : List Batch
  fault : Option Fault
  added : List Task
  taken : List Task
  executed : List Task
  notified : List Nat
deriving DecidableEq

/-- `threadpool_create` and `sem_init` in the constructor of the database. -/
def start (threads queueDepth : Nat) : System where
  pool := threadpoolCreate threads queueDepth
  permits := queueDepth - 1
  workers := if (threadpoolCreate threads queueDepth).isSome then List.replicate threads .idle
    else []
  batches := []
  fault := none
  added := []
  taken := []
  executed := []
  notified := []

/-- What a worker does next. There is no result while it waits for a task. The
callback is the `fetch_add` of `on_prefetch_complete`; the load of `prefetch_num`
that it is compared with is a step of its own in `PrefetchRace.step`. -/
def work (c : System) (j : Nat) : Worker → Option System
  | .idle =>
    match c.pool with
    | none => none
    | some p =>
      if p.queue.count = 0 ∧ p.shutdown = .running then none
      else if p.shutdown = .immediate ∨ p.shutdown = .graceful ∧ p.queue.count = 0 then
        some { c with workers := c.workers.set j .stopped }
      else
        p.queue.front.map (fun t =>
          { c with
            pool := some { p with queue := p.queue.pop }
            workers := c.workers.set j (.taken t)
            taken := c.taken ++ [t] })
  | .taken t =>
    some { c with workers := c.workers.set j (.read t), executed := c.executed ++ [t] }
  | .read t =>
    match c.batches[t.batch]? with
    | none => none
    | some x =>
      if x.caller = .returned then some { c with fault := some .freedContext }
      else
        some { c with
          batches := c.batches.set t.batch { x with cnt := x.cnt + 1 }
          workers := c.workers.set j (if x.cnt + 1 = x.num then .last t.batch else .finished) }
  | .last b =>
    match c.batches[b]? with
    | none => none
    | some x =>
      if x.caller = .returned then some { c with fault := some .freedContext }
      else
        some { c with
          batches := c.batches.set b { x with ready := true }
          workers := c.workers.set j .finished
          notified := c.notified ++ [b] }
  | .finished => some { c with workers := c.workers.set j .idle, permits := c.permits + 1 }
  | .stopped => none

/-- What a call of `prefetch_value` does next. There is no result while it waits
for a permit or for its monitor. -/
def prefetchValue (c : System) (b : Nat) (x : Batch) : Option System :=
  match x.caller with
  | .loop i =>
    if i < x.num then
      if 0 < c.permits then
        some { c with
          permits := c.permits - 1
          batches := c.batches.set b { x with caller := .permitted i } }
      else none
    else if x.ready then some { c with batches := c.batches.set b { x with caller := .returned } }
    else none
  | .permitted i =>
    match threadpoolAdd c.pool ⟨b, i⟩ with
    | .ok p =>
      some { c with
        pool := some p
        batches := c.batches.set b { x with caller := .loop (i + 1) }
        added := c.added ++ [⟨b, i⟩] }
    | .error e => some { c with fault := some (.exited e) }
  | .returned => none

inductive Move where
  | call (num : Nat)
  | caller (batch : Nat)
  | worker (j : Nat)

/-- One step of one thread. A batch is not empty. -/
def move (c : System) (m : Move) : Option System :=
  if c.fault.isSome then none
  else
    match m with
    | .call num =>
      if 0 < num then some { c with batches := c.batches ++ [⟨num, .loop 0, 0, false⟩] } else none
    | .caller b => c.batches[b]?.bind (prefetchValue c b)
    | .worker j => c.workers[j]?.bind (work c j)

inductive Moved (c : System) : Move → System → Prop
  | call {num} : 0 < num →
      Moved c (.call num) { c with batches := c.batches ++ [⟨num, .loop 0, 0, false⟩] }
  | semWait {b x i} : c.batches[b]? = some x → x.caller = .loop i → i < x.num → 0 < c.permits →
      Moved c (.caller b) { c with
        permits := c.permits - 1
        batches := c.batches.set b { x with caller := .permitted i } }
  | wait {b x i} : c.batches[b]? = some x → x.caller = .loop i → ¬ i < x.num → x.ready = true →
      Moved c (.caller b) { c with batches := c.batches.set b { x with caller := .returned } }
  | add {b x i p} : c.batches[b]? = some x → x.caller = .permitted i →
      threadpoolAdd c.pool ⟨b, i⟩ = .ok p →
      Moved c (.caller b) { c with
        pool := some p
        batches := c.batches.set b { x with caller := .loop (i + 1) }
        added := c.added ++ [⟨b, i⟩] }
  | refused {b x i e} : c.batches[b]? = some x → x.caller = .permitted i →
      threadpoolAdd c.pool ⟨b, i⟩ = .error e →
      Moved c (.caller b) { c with fault := some (.exited e) }
  | take {j p t} : c.workers[j]? = some .idle → c.pool = some p → p.queue.front = some t →
      ¬ (p.queue.count = 0 ∧ p.shutdown = .running) →
      Moved c (.worker j) { c with
        pool := some { p with queue := p.queue.pop }
        workers := c.workers.set j (.taken t)
        taken := c.taken ++ [t] }
  | stop {j p} : c.workers[j]? = some .idle → c.pool = some p → p.shutdown ≠ .running →
      Moved c (.worker j) { c with workers := c.workers.set j .stopped }
  | execute {j t} : c.workers[j]? = some (.taken t) →
      Moved c (.worker j)
        { c with workers := c.workers.set j (.read t), executed := c.executed ++ [t] }
  | callback {j t x} : c.workers[j]? = some (.read t) → c.batches[t.batch]? = some x →
      x.caller ≠ .returned →
      Moved c (.worker j) { c with
        batches := c.batches.set t.batch { x with cnt := x.cnt + 1 }
        workers := c.workers.set j (if x.cnt + 1 = x.num then .last t.batch else .finished) }
  | notify {j b x} : c.workers[j]? = some (.last b) → c.batches[b]? = some x →
      x.caller ≠ .returned →
      Moved c (.worker j) { c with
        batches := c.batches.set b { x with ready := true }
        workers := c.workers.set j .finished
        notified := c.notified ++ [b] }
  | freed {j w b x} : c.workers[j]? = some w → (w = .last b ∨ ∃ t, w = .read t ∧ t.batch = b) →
      c.batches[b]? = some x → x.caller = .returned →
      Moved c (.worker j) { c with fault := some .freedContext }
  | post {j} : c.workers[j]? = some .finished →
      Moved c (.worker j) { c with workers := c.workers.set j .idle, permits := c.permits + 1 }

theorem moved_of_work {c c' : System} {j : Nat} {w : Worker} (hj : c.workers[j]? = some w)
    (h : work c j w = some c') : Moved c (.worker j) c' := by
  cases w with
  | idle =>
    simp only [work] at h
    split at h
    · cases h
    · rename_i p hp
      split at h
      · cases h
      · rename_i hwait
        split at h
        · rename_i hstop
          cases h
          refine Moved.stop hj hp ?_
          intro hr
          rw [hr] at hstop
          simp at hstop
        · obtain ⟨t, ht, rfl⟩ := Option.map_eq_some_iff.mp h
          exact Moved.take hj hp ht hwait
  | taken t =>
    cases h
    exact Moved.execute hj
  | read t =>
    simp only [work] at h
    split at h
    · cases h
    · rename_i x hx
      split at h
      · cases h
        exact Moved.freed hj (Or.inr ⟨t, rfl, rfl⟩) hx ‹_›
      · cases h
        exact Moved.callback hj hx ‹_›
  | last b =>
    simp only [work] at h
    split at h
    · cases h
    · rename_i x hx
      split at h
      · cases h
        exact Moved.freed hj (Or.inl rfl) hx ‹_›
      · cases h
        exact Moved.notify hj hx ‹_›
  | finished =>
    cases h
    exact Moved.post hj
  | stopped => cases h

theorem moved_of_prefetchValue {c c' : System} {b : Nat} {x : Batch}
    (hb : c.batches[b]? = some x) (h : prefetchValue c b x = some c') :
    Moved c (.caller b) c' := by
  rw [prefetchValue] at h
  cases hc : x.caller with
  | loop i =>
    simp only [hc] at h
    split at h
    · split at h
      · cases h
        exact Moved.semWait hb hc ‹_› ‹_›
      · cases h
    · split at h
      · cases h
        exact Moved.wait hb hc ‹_› ‹_›
      · cases h
  | permitted i =>
    simp only [hc] at h
    split at h
    · cases h
      exact Moved.add hb hc ‹_›
    · cases h
      exact Moved.refused hb hc ‹_›
  | returned =>
    simp only [hc] at h
    cases h

theorem moved_of_move {c c' : System} {m : Move} (h : move c m = some c') :
    c.fault = none ∧ Moved c m c' := by
  simp only [move] at h
  split at h
  · cases h
  · rename_i hf
    refine ⟨Option.not_isSome_iff_eq_none.mp hf, ?_⟩
    cases m with
    | call num =>
      simp only at h
      split at h
      · cases h
        exact Moved.call ‹_›
      · cases h
    | caller b =>
      obtain ⟨x, hx, h⟩ := Option.bind_eq_some_iff.mp h
      exact moved_of_prefetchValue hx h
    | worker j =>
      obtain ⟨w, hw, h⟩ := Option.bind_eq_some_iff.mp h
      exact moved_of_work hw h

end WiscKey.ThreadPool
