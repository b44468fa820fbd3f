import WiscKey.ThreadPool

namespace WiscKey.PoolThreads

open WiscKey.RingBuffer
open WiscKey.ThreadPool (Shutdown AddError)

variable {α : Type}

inductive Party where
  | worker (j : Nat)
  | client (i : Nat)
  | owner (n : Nat)
deriving DecidableEq

/-- Where a thread is in `threadpool_thread`: before it locks, at the condition
of its loop, in `pthread_cond_wait` asleep or about to lock again, before it
unlocks with a task, in the task, before `sem_post`, out of the loop, before its
last unlock, or at its end. -/
inductive Worker (α : Type) where
  | enter
  | check
  | sleeping
  | woken
  | grabbed (task : α)
  | working (task : α)
  | posting
  | leaving
  | unlocking
  | exited
deriving DecidableEq

/-- Where a thread is in `threadpool_add`: before it locks, with the lock, before
`pthread_cond_signal`, or before it unlocks and returns. -/
inductive Client (α : Type) where
  | idle
  | add (task : α)
  | adding (task : α)
  | signal
  | unlock (error : Option AddError)
deriving DecidableEq

/-- Where a thread is in `threadpool_create` (at `pthread_create` or behind one
that succeeded), in `threadpool_destroy` (before it locks, with the lock, before
the broadcast, before it unlocks, or joining thread `n`) or in `threadpool_free`
(at its start, or behind the release of the arrays). -/
inductive Owner where
  | idle
  | spawn
  | count
  | destroy (graceful : Bool)
  | destroying (graceful : Bool)
  | broadcast
  | unlock
  | join (n : Nat)
  | free
  | dispose
deriving DecidableEq

/-- A `threadpool_t` with the threads that use it. `published` says that
`threadpool_create` has returned it, `dismantled` that its arrays were released
and `freed` that it was itself. The last four components are histories. -/
structure System (α : Type) where
  wanted : Nat
  lock : Option Party
  queue : Circular α
  shutdown : Shutdown
  threadCount : Nat
  started : Int
  workers : List (Worker α)
  clients : List (Client α)
  owners : List Owner
  published : Bool
  dismantled : Bool
  freed : Bool
  fault : Bool
  accepted : List α
  taken : List α
  executed : List α
  posted : Nat
deriving DecidableEq

def start (threads queueSize clients owners : Nat) : System α where
  wanted := threads
  lock := none
  queue := Circular.empty queueSize
  shutdown := .running
  threadCount := 0
  started := 0
  workers := []
  clients := List.replicate clients .idle
  owners := .spawn :: List.replicate owners .idle
  published := false
  dismantled := false
  freed := false
  fault := false
  accepted := []
  taken := []
  executed := []
  posted := 0

def Worker.detached : Worker α → Bool
  | .working _ | .exited => true
  | _ => false

def Worker.asleep : Worker α → Bool
  | .sleeping => true
  | _ => false

def Worker.wake : Worker α → Worker α
  | .sleeping => .woken
  | w => w

theorem not_sleeping_wake (l : List (Worker α)) : .sleeping ∉ l.map Worker.wake := by
  intro h
  obtain ⟨w, -, hw⟩ := List.mem_map.mp h
  cases w <;> cases hw

def Worker.ended : Worker α → Bool
  | .exited => true
  | _ => false

/-- What a thread of the pool does next. There is no result while it is asleep,
waits for the lock or has ended. -/
def work (c : System α) (j : Nat) : Worker α → Option (System α)
  | .enter | .woken =>
    if c.lock = none then
      some { c with lock := some (.worker j), workers := c.workers.set j .check }
    else none
  | .check =>
    if c.queue.count = 0 ∧ c.shutdown = .running then
      some { c with lock := none, workers := c.workers.set j .sleeping }
    else if c.shutdown = .immediate ∨ c.shutdown = .graceful ∧ c.queue.count = 0 then
      some { c with workers := c.workers.set j .leaving }
    else if c.dismantled then some { c with fault := true }
    else
      c.queue.front.map fun t =>
        { c with
          queue := c.queue.pop
          workers := c.workers.set j (.grabbed t)
          taken := c.taken ++ [t] }
  | .grabbed t => some { c with lock := none, workers := c.workers.set j (.working t) }
  | .working t =>
    some { c with workers := c.workers.set j .posting, executed := c.executed ++ [t] }
  | .posting => some { c with workers := c.workers.set j .enter, posted := c.posted + 1 }
  | .leaving => some { c with started := c.started - 1, workers := c.workers.set j .unlocking }
  | .unlocking => some { c with lock := none, workers := c.workers.set j .exited }
  | .sleeping | .exited => none

/-- What a call of `threadpool_add` does next, apart from `pthread_cond_signal`. -/
def proceed (c : System α) (i : Nat) : Client α → Option (System α)
  | .idle | .signal => none
  | .add t =>
    if c.lock = none then
      some { c with lock := some (.client i), clients := c.clients.set i (.adding t) }
    else none
  | .adding t =>
    if c.queue.count = c.queue.size then
      some { c with clients := c.clients.set i (.unlock (some .queueFull)) }
    else if c.shutdown ≠ .running then
      some { c with clients := c.clients.set i (.unlock (some .shutdown)) }
    else if c.dismantled then some { c with fault := true }
    else
      some { c with
        queue := c.queue.push t
        clients := c.clients.set i .signal
        accepted := c.accepted ++ [t] }
  | .unlock _ => some { c with lock := none, clients := c.clients.set i .idle }

/-- `pthread_cond_signal` wakes a thread that is asleep, if there is one. -/
def signalTo (c : System α) (i j : Nat) : Option (System α) :=
  if c.workers[j]?.any Worker.asleep then
    some { c with workers := c.workers.set j .woken, clients := c.clients.set i (.unlock none) }
  else if c.workers.any Worker.asleep then none
  else some { c with clients := c.clients.set i (.unlock none) }

/-- What a call of `threadpool_create` or `threadpool_destroy` does next. A
`threadpool_destroy` that finds the pool shutting down returns with the lock. -/
def manage (c : System α) (n : Nat) : Owner → Option (System α)
  | .idle => none
  | .spawn =>
    if c.threadCount < c.wanted then
      some { c with workers := c.workers ++ [.enter], owners := c.owners.set n .count }
    else some { c with published := true, owners := c.owners.set n .idle }
  | .count =>
    some { c with
      threadCount := c.threadCount + 1
      started := c.started + 1
      owners := c.owners.set n .spawn }
  | .destroy g =>
    if c.lock = none then
      some { c with lock := some (.owner n), owners := c.owners.set n (.destroying g) }
    else none
  | .destroying g =>
    if c.shutdown ≠ .running then some { c with owners := c.owners.set n .idle }
    else
      some { c with
        shutdown := if g then .graceful else .immediate
        owners := c.owners.set n .broadcast }
  | .broadcast =>
    some { c with workers := c.workers.map Worker.wake, owners := c.owners.set n .unlock }
  | .unlock => some { c with lock := none, owners := c.owners.set n (.join 0) }
  | .join m =>
    if m < c.threadCount then
      if c.dismantled then some { c with fault := true }
      else if c.workers[m]?.any Worker.ended then
        some { c with owners := c.owners.set n (.join (m + 1)) }
      else none
    else some { c with owners := c.owners.set n .free }
  | .free =>
    if 0 < c.started then some { c with owners := c.owners.set n .idle }
    else if c.dismantled then some { c with fault := true }
    else some { c with dismantled := true, owners := c.owners.set n .dispose }
  | .dispose =>
    if c.lock = none then some { c with freed := true, owners := c.owners.set n .idle } else none

/-- A call, a step of a thread, the choice of a `pthread_cond_signal`, a
`pthread_create` that fails, or a spurious wakeup. -/
inductive Move (α : Type) where
  | add (i : Nat) (task : α)
  | destroy (n : Nat) (graceful : Bool)
  | worker (j : Nat)
  | client (i : Nat)
  | signal (i j : Nat)
  | owner (n : Nat)
  | fail (n : Nat)
  | wake (j : Nat)

def touching (c : System α) (next : Option (System α)) : Option (System α) :=
  if c.freed then some { c with fault := true } else next

/-- One step. There is none after a use of freed memory. -/
def move (c : System α) (m : Move α) : Option (System α) :=
  if c.fault then none
  else
    match m with
    | .add i t =>
      match c.clients[i]?, c.published with
      | some .idle, true => some { c with clients := c.clients.set i (.add t) }
      | _, _ => none
    | .destroy n g =>
      match c.owners[n]?, c.published with
      | some .idle, true => some { c with owners := c.owners.set n (.destroy g) }
      | _, _ => none
    | .worker j =>
      c.workers[j]?.bind fun w => if w.detached then work c j w else touching c (work c j w)
    | .client i =>
      match c.clients[i]? with
      | none | some .idle => none
      | some x => touching c (proceed c i x)
    | .signal i j =>
      match c.clients[i]? with
      | some .signal => touching c (signalTo c i j)
      | _ => none
    | .owner n =>
      match c.owners[n]? with
      | none | some .idle => none
      | some p => touching c (manage c n p)
    | .fail n =>
      match c.owners[n]? with
      | some .spawn =>
        if c.threadCount < c.wanted then some { c with owners := c.owners.set n (.destroy false) }
        else none
      | _ => none
    | .wake j =>
      if c.workers[j]?.any Worker.asleep then
        touching c (some { c with workers := c.workers.set j .woken })
      else none

inductive Moved (c : System α) : Move α → System α → Prop
  | callAdd {i t} : c.clients[i]? = some .idle → c.published = true →
      Moved c (.add i t) { c with clients := c.clients.set i (.add t) }
  | callDestroy {n g} : c.owners[n]? = some .idle → c.published = true →
      Moved c (.destroy n g) { c with owners := c.owners.set n (.destroy g) }
  | lock {j w} : c.workers[j]? = some w → w = .enter ∨ w = .woken → c.lock = none →
      Moved c (.worker j) { c with lock := some (.worker j), workers := c.workers.set j .check }
  | sleep {j} : c.workers[j]? = some .check → c.queue.count = 0 → c.shutdown = .running →
      Moved c (.worker j) { c with lock := none, workers := c.workers.set j .sleeping }
  | leave {j} : c.workers[j]? = some .check →
      c.shutdown = .immediate ∨ c.shutdown = .graceful ∧ c.queue.count = 0 →
      Moved c (.worker j) { c with workers := c.workers.set j .leaving }
  | take {j t} : c.workers[j]? = some .check → c.shutdown ≠ .immediate → c.queue.count ≠ 0 →
      c.dismantled = false → c.queue.front = some t →
      Moved c (.worker j) { c with
        queue := c.queue.pop
        workers := c.workers.set j (.grabbed t)
        taken := c.taken ++ [t] }
  | unlockTask {j t} : c.workers[j]? = some (.grabbed t) →
      Moved c (.worker j) { c with lock := none, workers := c.workers.set j (.working t) }
  | execute {j t} : c.workers[j]? = some (.working t) →
      Moved c (.worker j)
        { c with workers := c.workers.set j .posting, executed := c.executed ++ [t] }
  | post {j} : c.workers[j]? = some .posting →
      Moved c (.worker j) { c with workers := c.workers.set j .enter, posted := c.posted + 1 }
  | uncount {j} : c.workers[j]? = some .leaving →
      Moved c (.worker j)
        { c with started := c.started - 1, workers := c.workers.set j .unlocking }
  | exit {j} : c.workers[j]? = some .unlocking →
      Moved c (.worker j) { c with lock := none, workers := c.workers.set j .exited }
  | wake {j} : c.workers[j]? = some .sleeping →
      Moved c (.wake j) { c with workers := c.workers.set j .woken }
  | lockAdd {i t} : c.clients[i]? = some (.add t) → c.lock = none →
      Moved c (.client i)
        { c with lock := some (.client i), clients := c.clients.set i (.adding t) }
  | refuse {i t e} : c.clients[i]? = some (.adding t) →
      e = .queueFull ∧ c.queue.count = c.queue.size ∨
        e = .shutdown ∧ c.queue.count ≠ c.queue.size ∧ c.shutdown ≠ .running →
      Moved c (.client i) { c with clients := c.clients.set i (.unlock (some e)) }
  | push {i t} : c.clients[i]? = some (.adding t) → c.queue.count ≠ c.queue.size →
      c.shutdown = .running → c.dismantled = false →
      Moved c (.client i) { c with
        queue := c.queue.push t
        clients := c.clients.set i .signal
        accepted := c.accepted ++ [t] }
  | signal {i j} : c.clients[i]? = some .signal → c.workers[j]? = some .sleeping →
      Moved c (.signal i j)
        { c with workers := c.workers.set j .woken, clients := c.clients.set i (.unlock none) }
  | signalNone {i j} : c.clients[i]? = some .signal → (∀ w ∈ c.workers, w ≠ .sleeping) →
      Moved c (.signal i j) { c with clients := c.clients.set i (.unlock none) }
  | unlockAdd {i e} : c.clients[i]? = some (.unlock e) →
      Moved c (.client i) { c with lock := none, clients := c.clients.set i .idle }
  | spawn {n} : c.owners[n]? = some .spawn → c.threadCount < c.wanted →
      Moved c (.owner n)
        { c with workers := c.workers ++ [.enter], owners := c.owners.set n .count }
  | created {n} : c.owners[n]? = some .spawn → ¬ c.threadCount < c.wanted →
      Moved c (.owner n) { c with published := true, owners := c.owners.set n .idle }
  | count {n} : c.owners[n]? = some .count →
      Moved c (.owner n) { c with
        threadCount := c.threadCount + 1
        started := c.started + 1
        owners := c.owners.set n .spawn }
  | fail {n} : c.owners[n]? = some .spawn → c.threadCount < c.wanted →
      Moved c (.fail n) { c with owners := c.owners.set n (.destroy false) }
  | lockDestroy {n g} : c.owners[n]? = some (.destroy g) → c.lock = none →
      Moved c (.owner n)
        { c with lock := some (.owner n), owners := c.owners.set n (.destroying g) }
  | again {n g} : c.owners[n]? = some (.destroying g) → c.shutdown ≠ .running →
      Moved c (.owner n) { c with owners := c.owners.set n .idle }
  | shut {n g} : c.owners[n]? = some (.destroying g) → c.shutdown = .running →
      Moved c (.owner n) { c with
        shutdown := if g then .graceful else .immediate
        owners := c.owners.set n .broadcast }
  | broadcast {n} : c.owners[n]? = some .broadcast →
      Moved c (.owner n)
        { c with workers := c.workers.map Worker.wake, owners := c.owners.set n .unlock }
  | unlockDestroy {n} : c.owners[n]? = some .unlock →
      Moved c (.owner n) { c with lock := none, owners := c.owners.set n (.join 0) }
  | join {n m} : c.owners[n]? = some (.join m) → m < c.threadCount → c.dismantled = false →
      c.workers[m]? = some .exited →
      Moved c (.owner n) { c with owners := c.owners.set n (.join (m + 1)) }
  | joined {n m} : c.owners[n]? = some (.join m) → ¬ m < c.threadCount →
      Moved c (.owner n) { c with owners := c.owners.set n .free }
  | keep {n} : c.owners[n]? = some .free → 0 < c.started →
      Moved c (.owner n) { c with owners := c.owners.set n .idle }
  | free {n} : c.owners[n]? = some .free → ¬ 0 < c.started → c.dismantled = false →
      Moved c (.owner n) { c with dismantled := true, owners := c.owners.set n .dispose }
  | dispose {n} : c.owners[n]? = some .dispose → c.lock = none →
      Moved c (.owner n) { c with freed := true, owners := c.owners.set n .idle }

/-- A use of the freed pool, or of its arrays after their release. -/
inductive Misused (c : System α) : Prop
  | worker {j : Nat} {w : Worker α} : c.workers[j]? = some w → w.ended = false →
      c.freed = true ∨ c.dismantled = true → Misused c
  | client {i : Nat} {x : Client α} : c.clients[i]? = some x → x ≠ .idle →
      c.freed = true ∨ c.dismantled = true → Misused c
  | owner {n : Nat} {p : Owner} : c.owners[n]? = some p → p ≠ .idle →
      c.freed = true ∨ c.dismantled = true ∧ p ≠ .dispose → Misused c

variable {c c' : System α} {m : Move α}

theorem Worker.eq_sleeping {w : Worker α} (h : w.asleep = true) : w = .sleeping := by
  cases w with
  | sleeping => rfl
  | enter | check | woken | grabbed t | working t | posting | leaving | unlocking | exited =>
    cases h

theorem sleeping_at {l : List (Worker α)} {j : Nat} (h : l[j]?.any Worker.asleep = true) :
    l[j]? = some .sleeping := by
  cases hj : l[j]? with
  | none =>
    rw [hj] at h
    cases h
  | some w =>
    rw [hj] at h
    rw [Worker.eq_sleeping h]

theorem Worker.eq_exited {w : Worker α} (h : w.ended = true) : w = .exited := by
  cases w with
  | exited => rfl
  | enter | check | sleeping | woken | grabbed t | working t | posting | leaving | unlocking =>
    cases h

theorem exited_at {l : List (Worker α)} {j : Nat} (h : l[j]?.any Worker.ended = true) :
    l[j]? = some .exited := by
  cases hj : l[j]? with
  | none =>
    rw [hj] at h
    cases h
  | some w =>
    rw [hj] at h
    rw [Worker.eq_exited h]

theorem touching_cases {next : Option (System α)} (h : touching c next = some c') :
    c.freed = true ∧ c' = { c with fault := true } ∨ c.freed = false ∧ next = some c' := by
  rw [touching] at h
  split at h
  · cases h
    exact Or.inl ⟨‹_›, rfl⟩
  · exact Or.inr ⟨by simpa using ‹¬ c.freed = true›, h⟩

theorem work_cases {j : Nat} {w : Worker α} (hj : c.workers[j]? = some w)
    (h : work c j w = some c') :
    Moved c (.worker j) c' ∨
      w.ended = false ∧ c.dismantled = true ∧ c' = { c with fault := true } := by
  cases w with
  | enter | woken =>
    simp only [work] at h
    split at h
    · cases h
      exact Or.inl (.lock hj (by simp) ‹_›)
    · cases h
  | check =>
    simp only [work] at h
    split at h
    · rename_i hs
      cases h
      exact Or.inl (.sleep hj hs.1 hs.2)
    · rename_i hs
      split at h
      · cases h
        exact Or.inl (.leave hj ‹_›)
      · rename_i hl
        split at h
        · cases h
          exact Or.inr ⟨rfl, ‹_›, rfl⟩
        · rename_i hd
          obtain ⟨t, ht, rfl⟩ := Option.map_eq_some_iff.mp h
          refine Or.inl (.take hj (fun he => hl (Or.inl he)) ?_ (by simpa using hd) ht)
          intro he
          cases hc : c.shutdown with
          | running => exact hs ⟨he, hc⟩
          | immediate => exact hl (Or.inl hc)
          | graceful => exact hl (Or.inr ⟨hc, he⟩)
  | grabbed t =>
    cases h
    exact Or.inl (.unlockTask hj)
  | working t =>
    cases h
    exact Or.inl (.execute hj)
  | posting =>
    cases h
    exact Or.inl (.post hj)
  | leaving =>
    cases h
    exact Or.inl (.uncount hj)
  | unlocking =>
    cases h
    exact Or.inl (.exit hj)
  | sleeping | exited => cases h

theorem proceed_cases {i : Nat} {x : Client α} (hi : c.clients[i]? = some x)
    (h : proceed c i x = some c') :
    Moved c (.client i) c' ∨ c.dismantled = true ∧ c' = { c with fault := true } := by
  cases x with
  | idle | signal => cases h
  | add t =>
    simp only [proceed] at h
    split at h
    · cases h
      exact Or.inl (.lockAdd hi ‹_›)
    · cases h
  | adding t =>
    simp only [proceed] at h
    split at h
    · cases h
      exact Or.inl (.refuse hi (Or.inl ⟨rfl, ‹_›⟩))
    · rename_i hfull
      split at h
      · cases h
        exact Or.inl (.refuse hi (Or.inr ⟨rfl, hfull, ‹_›⟩))
      · rename_i hs
        split at h
        · cases h
          exact Or.inr ⟨‹_›, rfl⟩
        · rename_i hd
          cases h
          exact Or.inl (.push hi hfull (not_not.mp hs) (by simpa using hd))
  | unlock e =>
    cases h
    exact Or.inl (.unlockAdd hi)

theorem signalTo_cases {i j : Nat} (hi : c.clients[i]? = some .signal)
    (h : signalTo c i j = some c') : Moved c (.signal i j) c' := by
  rw [signalTo] at h
  split at h
  · rename_i ha
    cases h
    exact .signal hi (sleeping_at ha)
  · split at h
    · cases h
    · rename_i hn
      cases h
      refine .signalNone hi ?_
      rintro w hw rfl
      exact hn (List.any_eq_true.mpr ⟨_, hw, rfl⟩)

theorem manage_cases {n : Nat} {p : Owner} (hn : c.owners[n]? = some p)
    (h : manage c n p = some c') :
    Moved c (.owner n) c' ∨
      c.dismantled = true ∧ p ≠ .idle ∧ p ≠ .dispose ∧ c' = { c with fault := true } := by
  cases p with
  | idle => cases h
  | spawn =>
    simp only [manage] at h
    split at h
    · cases h
      exact Or.inl (.spawn hn ‹_›)
    · cases h
      exact Or.inl (.created hn ‹_›)
  | count =>
    cases h
    exact Or.inl (.count hn)
  | destroy g =>
    simp only [manage] at h
    split at h
    · cases h
      exact Or.inl (.lockDestroy hn ‹_›)
    · cases h
  | destroying g =>
    simp only [manage] at h
    split at h
    · cases h
      exact Or.inl (.again hn ‹_›)
    · cases h
      exact Or.inl (.shut hn (not_not.mp ‹_›))
  | broadcast =>
    cases h
    exact Or.inl (.broadcast hn)
  | unlock =>
    cases h
    exact Or.inl (.unlockDestroy hn)
  | join m =>
    simp only [manage] at h
    split at h
    · rename_i hm
      split at h
      · cases h
        exact Or.inr ⟨‹_›, by simp, by simp, rfl⟩
      · rename_i hd
        split at h
        · rename_i he
          cases h
          exact Or.inl (.join hn hm (by simpa using hd) (exited_at he))
        · cases h
    · cases h
      exact Or.inl (.joined hn ‹_›)
  | free =>
    simp only [manage] at h
    split at h
    · cases h
      exact Or.inl (.keep hn ‹_›)
    · rename_i hs
      split at h
      · cases h
        exact Or.inr ⟨‹_›, by simp, by simp, rfl⟩
      · rename_i hd
        cases h
        exact Or.inl (.free hn hs (by simpa using hd))
  | dispose =>
    simp only [manage] at h
    split at h
    · cases h
      exact Or.inl (.dispose hn ‹_›)
    · cases h

theorem moved_of_move (h : move c m = some c') :
    c.fault = false ∧ (Moved c m c' ∨ Misused c ∧ c' = { c with fault := true }) := by
  simp only [move] at h
  split at h
  · cases h
  · rename_i hf
    refine ⟨by simpa using hf, ?_⟩
    cases m with
    | add i t =>
      simp only at h
      split at h
      · cases h
        exact Or.inl (.callAdd ‹_› ‹_›)
      · cases h
    | destroy n g =>
      simp only at h
      split at h
      · cases h
        exact Or.inl (.callDestroy ‹_› ‹_›)
      · cases h
    | worker j =>
      obtain ⟨w, hw, h⟩ := Option.bind_eq_some_iff.mp h
      have hwork : work c j w = some c' →
          Moved c (.worker j) c' ∨ Misused c ∧ c' = { c with fault := true } := by
        intro h
        refine (work_cases hw h).imp_right ?_
        rintro ⟨he, hd, rfl⟩
        exact ⟨.worker hw he (Or.inr hd), rfl⟩
      split at h
      · exact hwork h
      · rename_i hd
        obtain ⟨hfr, rfl⟩ | ⟨-, h⟩ := touching_cases h
        · refine Or.inr ⟨.worker hw ?_ (Or.inl hfr), rfl⟩
          cases w with
          | exited => exact absurd rfl hd
          | enter | check | sleeping | woken | grabbed t | working t | posting | leaving
          | unlocking => rfl
        · exact hwork h
    | client i =>
      simp only at h
      split at h
      · cases h
      · cases h
      · rename_i x hne hx
        have hx' : x ≠ .idle := by
          rintro rfl
          exact hne rfl
        obtain ⟨hfr, rfl⟩ | ⟨-, h⟩ := touching_cases h
        · exact Or.inr ⟨.client hx hx' (Or.inl hfr), rfl⟩
        · refine (proceed_cases hx h).imp_right ?_
          rintro ⟨hd, rfl⟩
          exact ⟨.client hx hx' (Or.inr hd), rfl⟩
    | signal i j =>
      simp only at h
      split at h
      · rename_i hi
        obtain ⟨hfr, rfl⟩ | ⟨-, h⟩ := touching_cases h
        · exact Or.inr ⟨.client hi (by simp) (Or.inl hfr), rfl⟩
        · exact Or.inl (signalTo_cases hi h)
      · cases h
    | owner n =>
      simp only at h
      split at h
      · cases h
      · cases h
      · rename_i p hne hp
        have hp' : p ≠ .idle := by
          rintro rfl
          exact hne rfl
        obtain ⟨hfr, rfl⟩ | ⟨-, h⟩ := touching_cases h
        · exact Or.inr ⟨.owner hp hp' (Or.inl hfr), rfl⟩
        · refine (manage_cases hp h).imp_right ?_
          rintro ⟨hd, -, hdis, rfl⟩
          exact ⟨.owner hp hp' (Or.inr ⟨hd, hdis⟩), rfl⟩
    | fail n =>
      simp only at h
      split at h
      · rename_i hn
        split at h
        · cases h
          exact Or.inl (.fail hn ‹_›)
        · cases h
      · cases h
    | wake j =>
      simp only at h
      split at h
      · rename_i ha
        have hj := sleeping_at ha
        obtain ⟨hfr, rfl⟩ | ⟨-, h⟩ := touching_cases h
        · exact Or.inr ⟨.worker hj rfl (Or.inl hfr), rfl⟩
        · cases h
          exact Or.inl (.wake hj)
      · cases h

end WiscKey.PoolThreads
