import WiscKey.PoolWakeups
import WiscKey.PoolInvariant

namespace WiscKey.PoolProgress

open WiscKey.Mutex WiscKey.Runs WiscKey.RingBuffer WiscKey.PoolThreads WiscKey.PoolLocks
  WiscKey.PoolWakeups WiscKey.PoolInvariant

variable {α : Type} {c c' : System α} {m : Move α} {p : Owner} {i j n : Nat} {w w' : Worker α}

/-- How many steps a thread of the pool takes at most before it sleeps or ends. -/
def workerRank : Worker α → Nat
  | .sleeping | .exited => 0
  | .unlocking => 1
  | .leaving => 2
  | .check => 3
  | .enter | .woken => 4
  | .posting => 5
  | .working _ => 6
  | .grabbed _ => 7

def clientRank : Client α → Nat
  | .idle => 0
  | .unlock _ => 1
  | .signal => 6
  | .adding _ => 12
  | .add _ => 13

def ownerRank (wanted threadCount : Nat) : Owner → Nat
  | .idle => 0
  | .dispose => 1
  | .free => 2
  | .join m => 3 + (wanted - m)
  | .unlock => 4 + wanted
  | .broadcast => 5 + 5 * wanted
  | .destroying _ => 6 + 5 * wanted
  | .destroy _ => 7 + 5 * wanted
  | .spawn => 8 + 5 * wanted + 6 * (wanted - threadCount)
  | .count => 9 + 5 * wanted + 6 * (wanted - (threadCount + 1))

def left (c : System α) : Nat :=
  (c.workers.map workerRank).sum + 5 * c.queue.count + (c.clients.map clientRank).sum +
    (c.owners.map (ownerRank c.wanted c.threadCount)).sum

def isCall : Move α → Bool
  | .add _ _ | .destroy _ _ => true
  | _ => false

def isWake : Move α → Bool
  | .wake _ => true
  | _ => false

def ending : Owner → Bool
  | .idle | .spawn | .count => false
  | _ => true

/-- `threadpool_destroy` was called, or `threadpool_create` could not start a
thread. -/
def Ending (c : System α) : Prop := c.shutdown ≠ .running ∨ ∃ p ∈ c.owners, ending p = true

/-- No thread can take a step, unless somebody calls the pool or wakes up for no
reason. -/
def Stuck (c : System α) : Prop :=
  (∀ j, move c (.worker j) = none) ∧ (∀ i, move c (.client i) = none) ∧
    (∀ i j, move c (.signal i j) = none) ∧ ∀ n, move c (.owner n) = none

theorem wake_rank_le (l : List (Worker α)) :
    ((l.map Worker.wake).map workerRank).sum ≤ (l.map workerRank).sum + 4 * l.length := by
  induction l with
  | nil => exact Nat.le_refl _
  | cons w l ih =>
    have hw : workerRank w.wake ≤ workerRank w + 4 := by
      cases w <;> simp [Worker.wake, workerRank]
    simp only [List.map_cons, List.sum_cons, List.length_cons]
    omega

theorem worker_left (hm : Moved c (.worker j) c') : left c' < left c := by
  have hset : ∀ {w w' : Worker α}, c.workers[j]? = some w → c'.workers = c.workers.set j w' →
      workerRank w' + 5 * c'.queue.count < workerRank w + 5 * c.queue.count →
      c'.clients = c.clients → c'.owners = c.owners → c'.wanted = c.wanted →
      c'.threadCount = c.threadCount → left c' < left c := by
    intro w w' hj hw hlt hc ho hn ht
    have hsum := sum_set workerRank hj w'
    simp only [left, hc, ho, hn, ht, hw]
    omega
  cases hm with
  | lock hj hw =>
    refine hset hj rfl ?_ rfl rfl rfl rfl
    obtain rfl | rfl := hw
    · simp [workerRank]
    · simp [workerRank]
  | take hj hi hc =>
    refine hset hj rfl ?_ rfl rfl rfl rfl
    simp only [workerRank, Circular.pop]
    omega
  | sleep hj | leave hj | unlockTask hj | execute hj | post hj | uncount hj | exit hj =>
    refine hset hj rfl ?_ rfl rfl rfl rfl
    simp [workerRank]

theorem client_left (hm : Moved c (.client i) c') : left c' < left c := by
  have hset : ∀ {x x' : Client α}, c.clients[i]? = some x → c'.clients = c.clients.set i x' →
      clientRank x' + 5 * c'.queue.count < clientRank x + 5 * c.queue.count →
      c'.workers = c.workers → c'.owners = c.owners → c'.wanted = c.wanted →
      c'.threadCount = c.threadCount → left c' < left c := by
    intro x x' hi hx hlt hw ho hn ht
    have hsum := sum_set clientRank hi x'
    simp only [left, hw, ho, hn, ht, hx]
    omega
  cases hm with
  | lockAdd hi | refuse hi | unlockAdd hi =>
    refine hset hi rfl ?_ rfl rfl rfl rfl
    simp [clientRank]
  | push hi =>
    refine hset hi rfl ?_ rfl rfl rfl rfl
    simp only [clientRank, Circular.push]
    omega

theorem signal_left (hm : Moved c (.signal i j) c') : left c' < left c := by
  cases hm with
  | signal hi hj =>
    have hsum := sum_set clientRank hi (.unlock none)
    have hwsum := sum_set workerRank hj .woken
    simp only [left, clientRank, workerRank] at hsum hwsum ⊢
    omega
  | signalNone hi =>
    have hsum := sum_set clientRank hi (.unlock none)
    simp only [left, clientRank] at hsum ⊢
    omega

theorem owner_left (h : Shape c p) (hm : Moved c (.owner n) c') : left c' < left c := by
  have ht := h.threads
  have hb := h.bounded
  have hset : ∀ {p p' : Owner}, c.owners[n]? = some p → c'.owners = c.owners.set n p' →
      c'.clients = c.clients → c'.queue = c.queue →
      (c'.workers.map workerRank).sum + ownerRank c'.wanted c'.threadCount p' <
        (c.workers.map workerRank).sum + ownerRank c.wanted c.threadCount p → left c' < left c := by
    intro p p' hn ho hc hq hlt
    obtain ⟨rfl, rfl⟩ := h.at_zero hn
    rw [h.set_owners] at ho
    simp only [left, hc, ho, hq, h.owners, List.map_cons, List.map_nil, List.sum_cons,
      List.sum_nil]
    omega
  cases hm with
  | spawn hn hlt =>
    refine hset hn rfl rfl rfl ?_
    simp only [List.map_append, List.sum_append, ownerRank, List.map_cons, List.map_nil,
      List.sum_cons, List.sum_nil, workerRank]
    omega
  | created hn | count hn | lockDestroy hn | again hn | shut hn | unlockDestroy hn | joined hn
  | keep hn | free hn | dispose hn =>
    refine hset hn rfl rfl rfl ?_
    simp only [ownerRank]
    omega
  | broadcast hn =>
    refine hset hn rfl rfl rfl ?_
    have hwake := wake_rank_le c.workers
    simp only [ownerRank]
    omega
  | join hn hlt =>
    refine hset hn rfl rfl rfl ?_
    simp only [ownerRank]
    omega

theorem wake_left (hm : Moved c (.wake j) c') : left c' = left c + 4 := by
  cases hm with
  | wake hj =>
    have hsum := sum_set workerRank hj .woken
    simp only [left, workerRank] at hsum ⊢
    omega

theorem fail_left (h : Shape c p) (hm : Moved c (.fail n) c') : left c' < left c := by
  cases hm with
  | fail hn =>
    obtain ⟨rfl, rfl⟩ := h.at_zero hn
    simp only [left, h.owners, List.set_cons_zero, List.map_cons, List.map_nil, List.sum_cons,
      List.sum_nil, ownerRank]
    omega

/-- Every step but a call takes one of the steps that are left, and a spurious
wakeup brings four back. -/
theorem moved_left (h : Shape c p) (hm : Moved c m c') (hc : isCall m = false) :
    (if isWake m then 0 else 1) + left c' ≤ left c + if isWake m then 4 else 0 := by
  cases m with
  | add i t | destroy n g => cases hc
  | worker j =>
    have := worker_left hm
    simp only [isWake, Bool.false_eq_true, if_false]
    omega
  | client i =>
    have := client_left hm
    simp only [isWake, Bool.false_eq_true, if_false]
    omega
  | signal i j =>
    have := signal_left hm
    simp only [isWake, Bool.false_eq_true, if_false]
    omega
  | owner n =>
    have := owner_left h hm
    simp only [isWake, Bool.false_eq_true, if_false]
    omega
  | fail n =>
    have := fail_left h hm
    simp only [isWake, Bool.false_eq_true, if_false]
    omega
  | wake j =>
    have := wake_left hm
    simp only [isWake, if_true]
    omega

theorem run_left {ms : List (Move α)} (hi : Inv c) (hp : AlongM move Polite c ms)
    (hc : ∀ m ∈ ms, isCall m = false) (h : ms.foldlM move c = some c') :
    ms.countP (fun m => !isWake m) + left c' ≤ left c + 4 * ms.countP isWake := by
  induction ms generalizing c with
  | nil =>
    cases h
    simp
  | cons m ms ih =>
    rw [List.foldlM_cons] at h
    obtain ⟨d, hd, h⟩ := Option.bind_eq_some_iff.mp h
    have hrest := ih (move_inv hp.1 hd hi) (hp.2 d hd)
      (fun a ha => hc a (List.mem_cons_of_mem _ ha)) h
    obtain ⟨p, hs⟩ := hi.shape
    obtain ⟨-, hm | ⟨hmis, -⟩⟩ := moved_of_move hd
    · have hstep := moved_left hs hm (hc m List.mem_cons_self)
      rw [List.countP_cons, List.countP_cons]
      cases hw : isWake m with
      | true =>
        simp only [hw, if_true, Bool.not_true, Bool.false_eq_true, if_false] at hstep ⊢
        omega
      | false =>
        simp only [hw, if_true, Bool.not_false, Bool.false_eq_true, if_false] at hstep ⊢
        omega
    · exact absurd hmis hs.not_misused

theorem front_of_count (h : Tasks c) (hc : c.queue.count ≠ 0) : ∃ t, c.queue.front = some t := by
  obtain ⟨l, hl, -⟩ := h.queue
  cases l with
  | nil => exact absurd hl.count_eq hc
  | cons a l => exact ⟨a, hl.front⟩

theorem work_isSome (ht : Tasks c) (hl : c.lock = none ∨ inWorker w = true)
    (hs : w ≠ .sleeping) (he : w ≠ .exited) : (work c j w).isSome = true := by
  cases w with
  | enter | woken =>
    obtain hl | hl := hl
    · simp [work, hl]
    · cases hl
  | check =>
    simp only [work]
    split
    · rfl
    · split
      · rfl
      · rename_i hw hs
        split
        · rfl
        · have hc : c.queue.count ≠ 0 := by
            intro hz
            cases hsh : c.shutdown with
            | running => exact hw ⟨hz, hsh⟩
            | immediate => exact hs (Or.inl hsh)
            | graceful => exact hs (Or.inr ⟨hsh, hz⟩)
          obtain ⟨t, hf⟩ := front_of_count ht hc
          rw [hf]
          rfl
  | grabbed t | working t | posting | leaving | unlocking => rfl
  | sleeping => exact absurd rfl hs
  | exited => exact absurd rfl he

section Stuck

variable (hst : Stuck c) (hi : Inv c) (hf : c.freed = false)

include hst hi hf

theorem stuck_worker (hj : c.workers[j]? = some w) (hl : c.lock = none ∨ inWorker w = true) :
    w = .sleeping ∨ w = .exited := by
  by_contra hno
  obtain ⟨hs, he⟩ := not_or.mp hno
  have hmove := hst.1 j
  have hwork := work_isSome (j := j) hi.tasks hl hs he
  simp only [move, hi.sound, hj, Option.bind_some, touching, hf, Bool.false_eq_true, if_false,
    ite_self] at hmove
  rw [hmove] at hwork
  cases hwork

theorem stuck_client {x : Client α} (hx : c.clients[i]? = some x)
    (hl : c.lock = none ∨ inClient x = true) : x = .idle := by
  have hmove := hst.2.1 i
  have hsig := hst.2.2.1 i
  simp only [move, hi.sound, hx, touching, hf, Bool.false_eq_true, if_false] at hmove hsig
  cases x with
  | idle => rfl
  | add t =>
    obtain hl | hl := hl
    · simp [proceed, hl] at hmove
    · cases hl
  | adding t =>
    simp only [proceed] at hmove
    split at hmove
    · cases hmove
    · split at hmove
      · cases hmove
      · split at hmove
        · cases hmove
        · cases hmove
  | signal =>
    by_cases hany : c.workers.any Worker.asleep = true
    · obtain ⟨w, hw, ha⟩ := List.any_eq_true.mp hany
      obtain ⟨j, hj⟩ := List.mem_iff_getElem?.mp hw
      have hs := hsig j
      simp [signalTo, hj, ha] at hs
    · have hs := hsig c.workers.length
      simp only [Bool.not_eq_true] at hany
      simp [signalTo, hany] at hs
  | unlock e => simp [proceed] at hmove

theorem stuck_owner (hs : Shape c p) (hl : c.lock = none ∨ inOwner p = true) :
    p = .idle ∨ ∃ m, p = .join m ∧ m < c.threadCount ∧ c.workers[m]? ≠ some .exited := by
  have hmove := hst.2.2.2 0
  have hp : c.owners[0]? = some p := by
    rw [hs.owners]
    rfl
  simp only [move, hi.sound, hp, touching, hf, Bool.false_eq_true, if_false] at hmove
  cases p with
  | idle => exact Or.inl rfl
  | spawn =>
    simp only [manage] at hmove
    split at hmove <;> cases hmove
  | count | broadcast | unlock => simp [manage] at hmove
  | destroy g | dispose =>
    obtain hl | hl := hl
    · simp [manage, hl] at hmove
    · cases hl
  | destroying g =>
    simp only [manage] at hmove
    split at hmove <;> cases hmove
  | join m =>
    simp only [manage] at hmove
    split at hmove
    · rename_i hm
      split at hmove
      · cases hmove
      · split at hmove
        · cases hmove
        · rename_i hne
          refine Or.inr ⟨m, rfl, hm, fun he => hne ?_⟩
          rw [he]
          rfl
    · cases hmove
  | free =>
    simp only [manage] at hmove
    split at hmove
    · cases hmove
    · split at hmove <;> cases hmove

theorem stuck_lock (hs : Shape c p) : c.lock = none := by
  cases hq : c.lock with
  | none => rfl
  | some q =>
    have hold := hs.owned q hq
    cases q with
    | worker j =>
      rw [Holds] at hold
      cases hj : c.workers[j]? with
      | none =>
        rw [hj] at hold
        cases hold
      | some w =>
        rw [hj] at hold
        obtain rfl | rfl := stuck_worker hst hi hf hj (Or.inr hold) <;> cases hold
    | client i =>
      rw [Holds] at hold
      cases hx : c.clients[i]? with
      | none =>
        rw [hx] at hold
        cases hold
      | some x =>
        rw [hx] at hold
        obtain rfl := stuck_client hst hi hf hx (Or.inr hold)
        cases hold
    | owner n =>
      rw [Holds] at hold
      cases hn : c.owners[n]? with
      | none =>
        rw [hn] at hold
        cases hold
      | some p' =>
        rw [hn] at hold
        obtain ⟨-, rfl⟩ := hs.at_zero hn
        obtain rfl | ⟨m, rfl, -⟩ := stuck_owner hst hi hf hs (Or.inr hold) <;> cases hold

theorem stuck_idle (hs : Shape c p) : p = .idle := by
  have hl := stuck_lock hst hi hf hs
  obtain h | ⟨m, rfl, hm, hne⟩ := stuck_owner hst hi hf hs (Or.inl hl)
  · exact h
  · have hlt : m < c.workers.length := by
      rw [← hs.threads]
      exact hm
    have hj := List.getElem?_eq_getElem hlt
    obtain h | h := stuck_worker hst hi hf hj (Or.inl hl)
    · exact absurd (h ▸ List.getElem_mem hlt) hs.stage.2.2.1
    · rw [hj, h] at hne
      exact absurd rfl hne

theorem stuck_rests (ha : Awake c) :
    c.shutdown = .running ∧ c.lock = none ∧ Quiet c ∧ (∀ w ∈ c.workers, w = .sleeping) ∧
      c.queue.count = 0 := by
  obtain ⟨p, hs⟩ := hi.shape
  have hl := stuck_lock hst hi hf hs
  obtain rfl := stuck_idle hst hi hf hs
  obtain ⟨hserv, hlen⟩ | ⟨-, -, hfreed⟩ := hs.stage
  · have hquiet : Quiet c := by
      intro x hx
      obtain ⟨i, hx⟩ := List.mem_iff_getElem?.mp hx
      exact stuck_client hst hi hf hx (Or.inl hl)
    have hsleep : ∀ w ∈ c.workers, w = .sleeping := by
      intro w hw
      obtain ⟨j, hj⟩ := List.mem_iff_getElem?.mp hw
      obtain h | h := stuck_worker hst hi hf hj (Or.inl hl)
      · exact h
      · have hloop := hserv.loops w hw
        rw [h] at hloop
        cases hloop
    refine ⟨hserv.running, hl, hquiet, hsleep, ?_⟩
    have hne : c.workers ≠ [] := by
      intro he
      have hw := hs.wanted
      rw [← hlen, he] at hw
      cases hw
    obtain ⟨w, hw⟩ := List.exists_mem_of_ne_nil _ hne
    have hcount := ha hserv.running (hsleep w hw ▸ hw)
    have hworkers : c.workers.countP awaiting = 0 := by
      rw [List.countP_eq_zero]
      intro v hv
      rw [hsleep v hv]
      exact Bool.false_ne_true
    have hclients : c.clients.countP signalling = 0 := by
      rw [List.countP_eq_zero]
      intro x hx
      rw [hquiet x hx]
      exact Bool.false_ne_true
    omega
  · rw [hf] at hfreed
    cases hfreed

end Stuck

theorem rest_executed (h : Tasks c) (hs : ∀ w ∈ c.workers, w = .sleeping)
    (hc : c.queue.count = 0) : c.executed.Perm c.accepted ∧ c.posted = c.executed.length := by
  obtain ⟨l, hl, hacc⟩ := h.queue
  have hnil : l = [] := by
    rw [hl.count_eq] at hc
    exact List.length_eq_zero_iff.mp hc
  rw [hacc, hnil, List.append_nil]
  refine h.executed_taken fun w hw => ?_
  rw [hs w hw]
  exact ⟨rfl, rfl⟩

theorem moved_ending (h : Shape c p) (hm : Moved c m c') (he : Ending c) : Ending c' := by
  by_cases hr : c.shutdown = .running
  · obtain ⟨q, hq, hend⟩ := he.resolve_left (not_not.mpr hr)
    rw [h.owners, List.mem_singleton] at hq
    subst q
    have hkeep : c'.owners = c.owners → Ending c' := by
      intro ho
      exact Or.inr ⟨p, by rw [ho, h.owners]; simp, hend⟩
    have hstage : c.shutdown ≠ .running → Ending c' := fun hne => absurd hr hne
    cases hm with
    | callAdd | lock | sleep | leave | take | unlockTask | execute | post | uncount | exit | wake
    | lockAdd | refuse | push | signal | signalNone | unlockAdd => exact hkeep rfl
    | callDestroy hn | spawn hn | created hn | count hn | fail hn =>
      obtain ⟨-, rfl⟩ := h.at_zero hn
      cases hend
    | @lockDestroy n g hn =>
      obtain ⟨rfl, -⟩ := h.at_zero hn
      exact Or.inr ⟨.destroying g, by rw [h.set_owners]; simp, rfl⟩
    | again hn hs => exact hstage hs
    | @shut n g hn =>
      refine Or.inl ?_
      cases g <;> simp
    | broadcast hn | unlockDestroy hn | join hn | joined hn | keep hn | free hn | dispose hn =>
      obtain ⟨-, rfl⟩ := h.at_zero hn
      exact hstage h.stage.1.shut
  · have hkeep : c'.shutdown = c.shutdown → Ending c' := fun hs => Or.inl (hs ▸ hr)
    cases hm with
    | shut hn hs => exact absurd hs hr
    | callAdd | callDestroy | lock | sleep | leave | take | unlockTask | execute | post | uncount
    | exit | wake | lockAdd | refuse | push | signal | signalNone | unlockAdd | spawn | created
    | count | fail | lockDestroy | again | broadcast | unlockDestroy | join | joined | keep | free
    | dispose => exact hkeep rfl

theorem run_ending {ms : List (Move α)} (hi : Inv c) (hp : AlongM move Polite c ms)
    (he : Ending c) (h : ms.foldlM move c = some c') : Ending c' := by
  have hboth : Inv c' ∧ Ending c' := by
    refine hp.keeps (I := fun d => Inv d ∧ Ending d) (fun d m _ d' hd hpol hm => ?_) ⟨hi, he⟩ h
    refine ⟨move_inv hpol hm hd.1, ?_⟩
    obtain ⟨p, hs⟩ := hd.1.shape
    obtain ⟨-, hm | ⟨hmis, -⟩⟩ := moved_of_move hm
    · exact moved_ending hs hm hd.2
    · exact absurd hmis hs.not_misused
  exact hboth.2

/-- However the threads interleave: from any state of a pool that is used
politely, only so many steps can follow without another call. Where no thread
can go on, either the pool was freed, or it is asleep and has executed all that
it has accepted. If it was being destroyed, or could not be created, it was
freed. -/
theorem pool_comes_to_rest {threads queueSize : Nat} (ha : Accepted threads queueSize)
    (clients : Nat) (pre ms : List (Move α))
    (hpre : pre.foldlM move (start threads queueSize clients 0) = some c)
    (hp : AlongM move Polite (start threads queueSize clients 0) (pre ++ ms))
    (hcall : ∀ m ∈ ms, isCall m = false) (h : ms.foldlM move c = some c') :
    ms.countP (fun m => !isWake m) ≤ left c + 4 * ms.countP isWake ∧
      (Stuck c' → (Ending c → c'.freed = true) ∧ (c'.freed = false →
        (∀ x ∈ c'.clients, x = .idle) ∧ (∀ w ∈ c'.workers, w = .sleeping) ∧
        c'.executed.Perm c'.accepted ∧ c'.posted = c'.executed.length)) := by
  obtain ⟨hp₁, hp₂⟩ := hp.append hpre
  have hi := run_inv ha hp₁ hpre
  have hi' : Inv c' := hp₂.keeps (fun _ _ _ _ hd hpol hm => move_inv hpol hm hd) hi h
  have hrun : (pre ++ ms).foldlM move (start threads queueSize clients 0) = some c' := by
    rw [List.foldlM_append, hpre]
    exact h
  have hawake := run_awake hrun
  constructor
  · have := run_left hi hp₂ hcall h
    omega
  · intro hst
    constructor
    · intro he
      by_contra hf
      have hf : c'.freed = false := by simpa using hf
      obtain ⟨hr, -⟩ := stuck_rests hst hi' hf hawake
      obtain hs | ⟨p, hp, hend⟩ := run_ending hi hp₂ he h
      · exact hs hr
      · obtain ⟨q, hs⟩ := hi'.shape
        rw [hs.owners, List.mem_singleton] at hp
        rw [hp, stuck_idle hst hi' hf hs] at hend
        cases hend
    · intro hf
      obtain ⟨-, -, hq, hs, hc⟩ := stuck_rests hst hi' hf hawake
      exact ⟨hq, hs, rest_executed hi'.tasks hs hc⟩

theorem stuck_of_bounded (hw : ∀ j < c.workers.length, (move c (.worker j)).isNone)
    (hc : ∀ i < c.clients.length, (move c (.client i)).isNone)
    (hs : ∀ x ∈ c.clients, x ≠ .signal) (ho : ∀ n < c.owners.length, (move c (.owner n)).isNone) :
    Stuck c := by
  refine ⟨fun j => ?_, fun i => ?_, fun i j => ?_, fun n => ?_⟩
  · by_cases hj : j < c.workers.length
    · exact Option.isNone_iff_eq_none.mp (hw j hj)
    · simp [move, List.getElem?_eq_none (Nat.le_of_not_lt hj)]
  · by_cases hi : i < c.clients.length
    · exact Option.isNone_iff_eq_none.mp (hc i hi)
    · simp [move, List.getElem?_eq_none (Nat.le_of_not_lt hi)]
  · simp only [move]
    split
    · rfl
    · split
      · exact absurd rfl (hs _ (List.mem_of_getElem? ‹_›))
      · rfl
  · by_cases hn : n < c.owners.length
    · exact Option.isNone_iff_eq_none.mp (ho n hn)
    · simp [move, List.getElem?_eq_none (Nat.le_of_not_lt hn)]

theorem pool_comes_to_rest_destroyed :
    ∃ c c' : System Nat, destroyTwo.foldlM move (start 2 4 1 0) = some c ∧ Ending c ∧
      shutDown.foldlM move c = some c' ∧ Stuck c' ∧ c'.freed = true ∧
      shutDown.countP (fun m => !isWake m) ≤ left c + 4 * shutDown.countP isWake := by
  have hrun : ∃ c ∈ destroyTwo.foldlM move (start 2 4 1 0), (∃ p ∈ c.owners, ending p = true) ∧
      ∃ c' ∈ shutDown.foldlM move c,
        (∀ j < c'.workers.length, (move c' (.worker j)).isNone) ∧
        (∀ i < c'.clients.length, (move c' (.client i)).isNone) ∧
        (∀ x ∈ c'.clients, x ≠ .signal) ∧
        ∀ n < c'.owners.length, (move c' (.owner n)).isNone := by
    decide +kernel
  obtain ⟨c, hc, he, c', hc', hw, hcl, hs, ho⟩ := hrun
  have hst := stuck_of_bounded hw hcl hs ho
  obtain ⟨hle, hrest⟩ := pool_comes_to_rest (by decide) 1 destroyTwo shutDown hc
    (by decide +kernel) (by decide) hc'
  exact ⟨c, c', hc, Or.inr he, hc', hst, (hrest hst).1 (Or.inr he), hle⟩

end WiscKey.PoolProgress
