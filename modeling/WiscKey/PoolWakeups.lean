import WiscKey.Runs
import WiscKey.PoolThreads

namespace WiscKey.PoolWakeups

open WiscKey.Runs WiscKey.RingBuffer WiscKey.PoolThreads

variable {α : Type} {c c' : System α} {m : Move α}

def awaiting : Worker α → Bool
  | .enter | .check | .woken => true
  | _ => false

def signalling : Client α → Bool
  | .signal => true
  | _ => false

/-- While a thread of a running pool is asleep, there is for every task in the
queue another one that is going to look, or a signal to come. -/
def Awake (c : System α) : Prop :=
  c.shutdown = .running → .sleeping ∈ c.workers →
    c.queue.count ≤ c.workers.countP awaiting + c.clients.countP signalling

theorem mem_of_mem_set {β : Type} {l : List β} {j : Nat} {a b : β} (h : b ∈ l.set j a)
    (hne : b ≠ a) : b ∈ l :=
  (List.mem_or_eq_of_mem_set h).resolve_right hne

theorem Awake.step (ha : Awake c) (hr : c'.shutdown = .running → c.shutdown = .running)
    (hs : .sleeping ∈ c'.workers → .sleeping ∈ c.workers)
    (hle : c'.queue.count + (c.workers.countP awaiting + c.clients.countP signalling) ≤
      c.queue.count + (c'.workers.countP awaiting + c'.clients.countP signalling)) : Awake c' := by
  intro hrun hmem
  have h := ha (hr hrun) (hs hmem)
  omega

theorem set_awake {j : Nat} {w w' : Worker α} (ha : Awake c) (hj : c.workers[j]? = some w)
    (hw : c'.workers = c.workers.set j w') (hne : .sleeping ≠ w')
    (hr : c'.shutdown = c.shutdown) (hc : c'.clients = c.clients) (hq : c'.queue = c.queue)
    (hle : awaiting w = true → awaiting w' = true) : Awake c' := by
  refine ha.step (fun h => hr ▸ h) (fun h => mem_of_mem_set (hw ▸ h) hne) ?_
  rw [hq, hc, hw]
  cases h : awaiting w with
  | true =>
    rw [countP_set_same hj ((hle h).trans h.symm)]
  | false =>
    cases h' : awaiting w' with
    | true =>
      rw [countP_set_gain hj h h']
      omega
    | false => rw [countP_set_same hj (h'.trans h.symm)]

theorem client_awake {i : Nat} {x x' : Client α} (ha : Awake c) (hi : c.clients[i]? = some x)
    (hc : c'.clients = c.clients.set i x') (hx : signalling x' = signalling x)
    (hr : c'.shutdown = c.shutdown) (hw : c'.workers = c.workers) (hq : c'.queue = c.queue) :
    Awake c' := by
  refine ha.step (fun h => hr ▸ h) (fun h => hw ▸ h) ?_
  rw [hq, hw, hc, countP_set_same hi hx]

theorem moved_awake (h : Moved c m c') (ha : Awake c) : Awake c' := by
  cases h with
  | callAdd hi | lockAdd hi | refuse hi | unlockAdd hi =>
    exact client_awake ha hi rfl rfl rfl rfl rfl
  | callDestroy hn | created hn | count hn | fail hn | lockDestroy hn | again hn | unlockDestroy hn
  | join hn | joined hn | keep hn | free hn | dispose hn => exact ha
  | lock hj => exact set_awake ha hj rfl (by simp) rfl rfl rfl fun _ => rfl
  | sleep hj hc =>
    intro hr hs
    rw [hc]
    exact Nat.zero_le _
  | leave hj hstop =>
    intro hr
    rw [show c.shutdown = .running from hr] at hstop
    simp at hstop
  | @take j t hj hi hc =>
    refine ha.step id (fun h => mem_of_mem_set h (by simp)) ?_
    have hloss := countP_set_loss (b := Worker.grabbed t) hj (f := awaiting) rfl rfl
    simp only [Circular.pop]
    omega
  | unlockTask hj | execute hj | uncount hj | exit hj | post hj | wake hj =>
    exact set_awake ha hj rfl (by simp) rfl rfl rfl (by simp [awaiting])
  | push hi =>
    refine ha.step id id ?_
    have hgain := countP_set_gain (b := Client.signal) hi (f := signalling) rfl rfl
    simp only [Circular.push]
    omega
  | signal hi hj =>
    refine ha.step id (fun h => mem_of_mem_set h (by simp)) ?_
    have hloss := countP_set_loss (b := Client.unlock none) hi (f := signalling) rfl rfl
    have hgain := countP_set_gain (b := Worker.woken) hj (f := awaiting) rfl rfl
    dsimp only
    omega
  | signalNone hi hn =>
    intro hr hs
    exact absurd rfl (hn _ hs)
  | spawn hn =>
    refine ha.step id (fun h => (List.mem_append.mp h).resolve_right (by simp)) ?_
    simp only [List.countP_append]
    omega
  | @shut n g hn hs =>
    intro hr
    cases g with
    | true => cases hr
    | false => cases hr
  | broadcast hn =>
    intro hr hs
    exact absurd hs (not_sleeping_wake _)

theorem move_awake (h : move c m = some c') (ha : Awake c) : Awake c' := by
  obtain ⟨-, hm | ⟨-, rfl⟩⟩ := moved_of_move h
  · exact moved_awake hm ha
  · exact ha

theorem run_awake {threads queueSize clients owners : Nat} {ms : List (Move α)}
    (h : ms.foldlM move (start threads queueSize clients owners) = some c) : Awake c := by
  refine foldlM_invariant (fun _ _ _ _ hi hm => move_awake hm hi) ?_ h
  intro hr hs
  cases hs

/-- No wakeup is lost, whatever is called, however the threads interleave and
whoever wakes up for no reason: while the pool runs and one of its threads is
asleep, every task in the queue has a thread that is going to look for it, or
its signal is still to come. -/
theorem no_lost_wakeup (threads queueSize clients owners : Nat) (ms : List (Move α))
    (h : ms.foldlM move (start threads queueSize clients owners) = some c)
    (hr : c.shutdown = .running) (hs : .sleeping ∈ c.workers) :
    c.queue.count ≤ c.workers.countP awaiting + c.clients.countP signalling :=
  run_awake h hr hs

def addOne : List (Move Nat) :=
  [.owner 0, .owner 0, .owner 0, .owner 0, .owner 0, .worker 0, .worker 0, .worker 1, .worker 1,
    .add 0 7, .client 0, .client 0, .signal 0 1]

theorem no_lost_wakeup_two :
    ∃ c : System Nat, addOne.foldlM move (start 2 4 1 0) = some c ∧
      c.workers = [.sleeping, .woken] ∧ c.queue.count = 1 ∧
      c.queue.count ≤ c.workers.countP awaiting + c.clients.countP signalling := by
  have hrun : ∃ c ∈ addOne.foldlM move (start 2 4 1 0), c.workers = [.sleeping, .woken] ∧
      c.queue.count = 1 ∧ c.shutdown = .running := by
    decide +kernel
  obtain ⟨c, hc, hw, hq, hr⟩ := hrun
  exact ⟨c, hc, hw, hq, no_lost_wakeup 2 4 1 0 addOne hc hr (by rw [hw]; simp)⟩

end WiscKey.PoolWakeups
