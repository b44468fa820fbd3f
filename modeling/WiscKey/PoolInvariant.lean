import WiscKey.PoolLocks

namespace WiscKey.PoolInvariant

open WiscKey.Mutex WiscKey.Runs WiscKey.RingBuffer WiscKey.PoolThreads WiscKey.PoolLocks

variable {α : Type} {c c' : System α} {m : Move α} {p p' : Owner} {i j : Nat} {w w' : Worker α}

def taskOf : Worker α → Option α
  | .grabbed t | .working t => some t
  | _ => none

def posting : Worker α → Bool
  | .posting => true
  | _ => false

/-- The tasks are taken in the order they were accepted in, and each one that
was taken is executed and paid for by a `sem_post`. -/
structure Tasks (c : System α) : Prop where
  queue : ∃ l, c.queue.Holds l ∧ c.accepted = c.taken ++ l
  held : c.taken.Perm (c.executed ++ c.workers.filterMap taskOf)
  posts : c.executed.length = c.posted + c.workers.countP posting

theorem filterMap_set_same (hj : c.workers[j]? = some w) (hf : taskOf w' = taskOf w) :
    (c.workers.set j w').filterMap taskOf = c.workers.filterMap taskOf := by
  obtain ⟨pre, post, hl, hset⟩ := split_at hj
  rw [hset, hl, List.filterMap_append, List.filterMap_append, List.filterMap_cons,
    List.filterMap_cons, hf]

theorem filterMap_set_gain {t : α} (hj : c.workers[j]? = some w) (hw : taskOf w = none)
    (hw' : taskOf w' = some t) :
    ((c.workers.set j w').filterMap taskOf).Perm (t :: c.workers.filterMap taskOf) := by
  obtain ⟨pre, post, hl, hset⟩ := split_at hj
  rw [hset, hl, List.filterMap_append, List.filterMap_append, List.filterMap_cons_some hw',
    List.filterMap_cons_none hw]
  exact List.perm_middle

theorem filterMap_set_loss {t : α} (hj : c.workers[j]? = some w) (hw : taskOf w = some t)
    (hw' : taskOf w' = none) :
    (c.workers.filterMap taskOf).Perm (t :: (c.workers.set j w').filterMap taskOf) := by
  obtain ⟨pre, post, hl, hset⟩ := split_at hj
  rw [hset, hl, List.filterMap_append, List.filterMap_append, List.filterMap_cons_some hw,
    List.filterMap_cons_none hw']
  exact List.perm_middle

theorem set_tasks (h : Tasks c) (hj : c.workers[j]? = some w) (hw : c'.workers = c.workers.set j w')
    (ht : taskOf w' = taskOf w) (hp : posting w' = posting w) (hq : c'.queue = c.queue)
    (ha : c'.accepted = c.accepted) (hk : c'.taken = c.taken) (he : c'.executed = c.executed)
    (hs : c'.posted = c.posted) : Tasks c' where
  queue := by
    rw [hq, ha, hk]
    exact h.queue
  held := by
    rw [hk, he, hw, filterMap_set_same hj ht]
    exact h.held
  posts := by
    rw [he, hs, hw, countP_set_same hj hp]
    exact h.posts

theorem moved_tasks (hm : Moved c m c') (h : Tasks c) : Tasks c' := by
  cases hm with
  | callAdd | callDestroy | lockAdd | refuse | signalNone | unlockAdd | created | count | fail
  | lockDestroy | again | shut | unlockDestroy | join | joined | keep | free | dispose =>
    exact ⟨h.queue, h.held, h.posts⟩
  | lock hj hw =>
    obtain rfl | rfl := hw
    · exact set_tasks h hj rfl rfl rfl rfl rfl rfl rfl rfl
    · exact set_tasks h hj rfl rfl rfl rfl rfl rfl rfl rfl
  | sleep hj | leave hj | unlockTask hj | uncount hj | exit hj | wake hj | signal _ hj =>
    exact set_tasks h hj rfl rfl rfl rfl rfl rfl rfl rfl
  | @take j t hj hi hc hd hf =>
    obtain ⟨l, hl, ha⟩ := h.queue
    cases l with
    | nil => exact absurd hl.count_eq hc
    | cons a l =>
      rw [hl.front] at hf
      cases hf
      have hgain : ((c.workers.set j (.grabbed t)).filterMap taskOf).Perm
          (t :: c.workers.filterMap taskOf) := filterMap_set_gain hj rfl rfl
      refine ⟨⟨l, hl.pop, by rw [ha, List.append_assoc]; rfl⟩, ?_, ?_⟩
      · refine (h.held.append_right [t]).trans ?_
        rw [List.append_assoc]
        exact ((List.perm_append_singleton t _).trans hgain.symm).append_left _
      · have hsame := countP_set_same (b := Worker.grabbed t) hj (f := posting) rfl
        exact h.posts.trans (congrArg _ hsame.symm)
  | @execute j t hj =>
    have hloss : (c.workers.filterMap taskOf).Perm
        (t :: (c.workers.set j .posting).filterMap taskOf) := filterMap_set_loss hj rfl rfl
    refine ⟨h.queue, ?_, ?_⟩
    · refine h.held.trans ((hloss.append_left _).trans ?_)
      dsimp only
      rw [List.append_assoc]
      rfl
    · have hgain := countP_set_gain (b := Worker.posting) hj (f := posting) rfl rfl
      have hposts := h.posts
      simp only [List.length_append, List.length_singleton]
      omega
  | @post j hj =>
    refine ⟨h.queue, ?_, ?_⟩
    · rw [show (c.workers.set j .enter).filterMap taskOf = c.workers.filterMap taskOf from
        filterMap_set_same hj rfl]
      exact h.held
    · have hloss := countP_set_loss (b := Worker.enter) hj (f := posting) rfl rfl
      have hposts := h.posts
      dsimp only
      omega
  | @push i t hi hfull hr hd =>
    obtain ⟨l, hl, ha⟩ := h.queue
    refine ⟨⟨l ++ [t], hl.push ?_ t, ?_⟩, h.held, h.posts⟩
    · have hle := hl.fits
      rw [hl.count_eq] at hfull
      omega
    · dsimp only
      rw [ha, List.append_assoc]
  | spawn hn =>
    refine ⟨h.queue, ?_, ?_⟩
    · dsimp only
      rw [List.filterMap_append, show List.filterMap taskOf [Worker.enter] = ([] : List α) from rfl,
        List.append_nil]
      exact h.held
    · dsimp only
      rw [List.countP_append]
      exact h.posts
  | broadcast hn =>
    have htask : ∀ w : Worker α, taskOf w.wake = taskOf w := fun w => by cases w <;> rfl
    have hpost : ∀ w : Worker α, posting w.wake = posting w := fun w => by cases w <;> rfl
    refine ⟨h.queue, ?_, ?_⟩
    · dsimp only
      rw [List.filterMap_map]
      simpa only [Function.comp_def, htask] using h.held
    · dsimp only
      rw [List.countP_map]
      simpa only [Function.comp_def, hpost] using h.posts

def idleClient : Client α → Bool
  | .idle => true
  | _ => false

/-- The pool is used as its header asks for: nobody adds a task once
`threadpool_destroy` was called, and that is called once and while no
`threadpool_add` is under way. -/
def Polite (c : System α) : Move α → Prop
  | .add _ _ => c.shutdown = .running ∧ ∀ p ∈ c.owners, p = .idle
  | .destroy _ _ => c.shutdown = .running ∧ (∀ p ∈ c.owners, p = .idle) ∧ c.clients.all idleClient
  | .worker _ | .client _ | .signal _ _ | .owner _ | .fail _ | .wake _ => True

instance (c : System α) : DecidablePred (Polite c)
  | .add _ _ => inferInstanceAs (Decidable (_ ∧ ∀ p ∈ c.owners, p = .idle))
  | .destroy _ _ => inferInstanceAs (Decidable (_ ∧ (∀ p ∈ c.owners, p = .idle) ∧ _ = true))
  | .worker _ | .client _ | .signal _ _ | .owner _ | .fail _ | .wake _ =>
    inferInstanceAs (Decidable True)

def inLoop : Worker α → Bool
  | .leaving | .unlocking | .exited => false
  | _ => true

def counted : Worker α → Bool
  | .unlocking | .exited => false
  | _ => true

def pending : Owner → Nat
  | .count => 1
  | _ => 0

def Quiet (c : System α) : Prop := ∀ x ∈ c.clients, x = .idle

def Ended (c : System α) : Prop := ∀ w ∈ c.workers, w = .exited

def Whole (c : System α) : Prop := c.dismantled = false ∧ c.freed = false

structure Serving (c : System α) : Prop where
  running : c.shutdown = .running
  loops : ∀ w ∈ c.workers, inLoop w = true
  whole : Whole c

/-- The pool is shutting down: a thread that has left its loop in a graceful
shutdown has seen the queue empty. -/
structure Closing (c : System α) : Prop where
  shut : c.shutdown ≠ .running
  quiet : Quiet c
  drained : c.shutdown = .graceful → ∀ w ∈ c.workers, inLoop w = false → c.queue.count = 0
  staffed : c.shutdown = .graceful → c.workers ≠ []

/-- What the place of the owner says about all the others. -/
def Stage (c : System α) : Owner → Prop
  | .idle => Serving c ∧ c.workers.length = c.wanted ∨ Closing c ∧ Ended c ∧ c.freed = true
  | .spawn | .count => Serving c ∧ Quiet c
  | .destroy g | .destroying g => Serving c ∧ Quiet c ∧ (g = true → c.workers ≠ [])
  | .broadcast => Closing c ∧ Whole c
  | .unlock => Closing c ∧ Whole c ∧ .sleeping ∉ c.workers
  | .join m => Closing c ∧ Whole c ∧ .sleeping ∉ c.workers ∧
      ∀ k < m, c.workers[k]? = some .exited
  | .free => Closing c ∧ Whole c ∧ Ended c
  | .dispose => Closing c ∧ Ended c ∧ c.freed = false

structure Shape (c : System α) (p : Owner) : Prop where
  owners : c.owners = [p]
  owned : Owned (Holds c) c.lock
  threads : c.threadCount + pending p = c.workers.length
  started : c.started + pending p = c.workers.countP counted
  bounded : c.workers.length ≤ c.wanted
  wanted : 0 < c.wanted
  stage : Stage c p

theorem Shape.at_zero (h : Shape c p) {n : Nat} {p' : Owner} (hn : c.owners[n]? = some p') :
    n = 0 ∧ p' = p := by
  rw [h.owners] at hn
  cases n with
  | zero =>
    cases hn
    exact ⟨rfl, rfl⟩
  | succ n => cases hn

theorem Shape.set_owners (h : Shape c p) (p' : Owner) : c.owners.set 0 p' = [p'] := by
  rw [h.owners]
  rfl

theorem Shape.busy (h : Shape c p) {x : Client α} (hi : c.clients[i]? = some x) (hx : x ≠ .idle) :
    p = .idle ∧ Serving c ∧ c.workers.length = c.wanted := by
  have hquiet : ¬ Quiet c := fun hq => hx (hq x (List.mem_of_getElem? hi))
  have hs := h.stage
  cases p with
  | idle =>
    obtain hs | hs := hs
    · exact ⟨rfl, hs⟩
    · exact absurd hs.1.quiet hquiet
  | spawn | count => exact absurd hs.2 hquiet
  | destroy g | destroying g => exact absurd hs.2.1 hquiet
  | broadcast | unlock | join m | free | dispose => exact absurd hs.1.quiet hquiet

theorem Shape.not_misused (h : Shape c p) : ¬ Misused c := by
  have hs := h.stage
  have hwhole : Whole c → ¬ (c.freed = true ∨ c.dismantled = true) := by
    rintro ⟨hd, hf⟩ (he | he)
    · rw [hf] at he
      cases he
    · rw [hd] at he
      cases he
  have hended : ∀ {j : Nat} {w : Worker α}, Ended c → c.workers[j]? = some w →
      w.ended = false → False := by
    intro j w he hj hw
    rw [he w (List.mem_of_getElem? hj)] at hw
    cases hw
  rintro (⟨hj, hw, hm⟩ | ⟨hi, hx, hm⟩ | ⟨hn, hp, hm⟩)
  · cases p with
    | idle =>
      obtain hs | hs := hs
      · exact hwhole hs.1.whole hm
      · exact hended hs.2.1 hj hw
    | spawn | count | destroy g | destroying g => exact hwhole hs.1.whole hm
    | broadcast => exact hwhole hs.2 hm
    | unlock | join m => exact hwhole hs.2.1 hm
    | free => exact hended hs.2.2 hj hw
    | dispose => exact hended hs.2.1 hj hw
  · exact hwhole (h.busy hi hx).2.1.whole hm
  · obtain ⟨-, rfl⟩ := h.at_zero hn
    rename_i q
    have hm' : c.freed = true ∨ c.dismantled = true := hm.imp_right And.left
    cases q with
    | idle => exact hp rfl
    | spawn | count | destroy g | destroying g => exact hwhole hs.1.whole hm'
    | broadcast => exact hwhole hs.2 hm'
    | unlock | join m | free => exact hwhole hs.2.1 hm'
    | dispose =>
      obtain hf | ⟨-, hne⟩ := hm
      · rw [hs.2.2] at hf
        cases hf
      · exact hne rfl

theorem Shape.moved_owned (h : Shape c p) (hm : Moved c m c') : Owned (Holds c') c'.lock := by
  cases locked_of_moved hm with
  | acquire q hl hl' ho hq =>
    rw [hl']
    exact Owned.acquire hq
  | release q hq hl' ho hq' =>
    rw [hl']
    exact Owned.release
  | keep hl hh =>
    rw [hl]
    exact h.owned.keep fun q => (hh q).mpr
  | abandon n g hn hs =>
    obtain ⟨-, rfl⟩ := h.at_zero hn
    exact absurd h.stage.1.running hs

/-- What a step of a thread of the pool may do to the others: only a pool that
shuts down is left, and only a running one is slept in. -/
structure Paced (c c' : System α) (j : Nat) (w w' : Worker α) : Prop where
  was : c.workers[j]? = some w
  workers : c'.workers = c.workers.set j w'
  alive : w ≠ .exited
  loops : c.shutdown = .running → inLoop w = true → inLoop w' = true
  sleeps : .sleeping = w' → c.shutdown = .running
  drained : c.shutdown = .graceful → inLoop w' = false → inLoop w = false ∨ c.queue.count = 0
  count : c.queue.count = 0 → c'.queue.count = 0
  shutdown : c'.shutdown = c.shutdown
  clients : c'.clients = c.clients
  whole : c'.dismantled = c.dismantled ∧ c'.freed = c.freed
  wanted : c'.wanted = c.wanted

section Paced

variable (hp : Paced c c' j w w')

include hp

theorem Paced.mem_of {v : Worker α} (hv : v ∈ c'.workers) (hne : v ≠ w') : v ∈ c.workers := by
  rw [hp.workers] at hv
  exact (List.mem_or_eq_of_mem_set hv).resolve_right hne

theorem Paced.serving (h : Serving c) : Serving c' where
  running := hp.shutdown.trans h.running
  loops v hv := by
    rw [hp.workers] at hv
    obtain hv | rfl := List.mem_or_eq_of_mem_set hv
    · exact h.loops v hv
    · exact hp.loops h.running (h.loops w (List.mem_of_getElem? hp.was))
  whole := ⟨hp.whole.1.trans h.whole.1, hp.whole.2.trans h.whole.2⟩

theorem Paced.staffed (h : c.workers ≠ []) : c'.workers ≠ [] := by
  rw [hp.workers]
  intro he
  exact h ((List.set_eq_nil_iff _ _).mp he)

theorem Paced.quiet (h : Quiet c) : Quiet c' := by
  rw [Quiet, hp.clients]
  exact h

theorem Paced.closing (h : Closing c) : Closing c' where
  shut := hp.shutdown ▸ h.shut
  quiet := hp.quiet h.quiet
  drained hg v hv hout := by
    have hg : c.shutdown = .graceful := hp.shutdown ▸ hg
    refine hp.count ?_
    by_cases hne : v = w'
    · subst v
      obtain hw | hc := hp.drained hg hout
      · exact h.drained hg w (List.mem_of_getElem? hp.was) hw
      · exact hc
    · exact h.drained hg v (hp.mem_of hv hne) hout
  staffed hg := hp.staffed (h.staffed (hp.shutdown ▸ hg))

theorem Paced.not_sleeping (h : Closing c) (hs : .sleeping ∉ c.workers) :
    .sleeping ∉ c'.workers := by
  intro hmem
  by_cases hne : .sleeping = w'
  · exact h.shut (hp.sleeps hne)
  · exact hs (hp.mem_of hmem hne)

theorem Paced.not_ended : ¬ Ended c :=
  fun he => hp.alive (he w (List.mem_of_getElem? hp.was))

theorem Paced.whole_kept (h : Whole c) : Whole c' :=
  ⟨hp.whole.1.trans h.1, hp.whole.2.trans h.2⟩

theorem Paced.stage (h : Stage c p) : Stage c' p := by
  cases p with
  | idle =>
    obtain ⟨hs, hl⟩ | ⟨-, he, -⟩ := h
    · refine Or.inl ⟨hp.serving hs, ?_⟩
      rw [hp.workers, List.length_set, hl, hp.wanted]
    · exact absurd he hp.not_ended
  | spawn | count => exact ⟨hp.serving h.1, hp.quiet h.2⟩
  | destroy g | destroying g =>
    exact ⟨hp.serving h.1, hp.quiet h.2.1, fun hg => hp.staffed (h.2.2 hg)⟩
  | broadcast => exact ⟨hp.closing h.1, hp.whole_kept h.2⟩
  | unlock => exact ⟨hp.closing h.1, hp.whole_kept h.2.1, hp.not_sleeping h.1 h.2.2⟩
  | join m =>
    refine ⟨hp.closing h.1, hp.whole_kept h.2.1, hp.not_sleeping h.1 h.2.2.1, ?_⟩
    intro k hk
    have hexit := h.2.2.2 k hk
    have hne : j ≠ k := by
      rintro rfl
      rw [hp.was] at hexit
      cases hexit
      exact hp.alive rfl
    rw [hp.workers, List.getElem?_set_ne hne]
    exact hexit
  | free => exact absurd h.2.2 hp.not_ended
  | dispose => exact absurd h.2.1 hp.not_ended

end Paced

theorem Shape.worker (h : Shape c p) (hm : Moved c (.worker j) c') : Shape c' p := by
  have howned := h.moved_owned hm
  have hshape : ∀ {w w' : Worker α}, Paced c c' j w w' → c'.owners = c.owners →
      c'.threadCount = c.threadCount →
      c'.started + pending p = (c.workers.set j w').countP counted → Shape c' p := by
    intro w w' hp ho ht hs
    refine ⟨ho.trans h.owners, howned, ?_, ?_, ?_, ?_, hp.stage h.stage⟩
    · rw [ht, hp.workers, List.length_set]
      exact h.threads
    · rw [hp.workers]
      exact hs
    · rw [hp.workers, List.length_set, hp.wanted]
      exact h.bounded
    · rw [hp.wanted]
      exact h.wanted
  have hsame : ∀ {w w' : Worker α}, Paced c c' j w w' → c'.owners = c.owners →
      c'.threadCount = c.threadCount → c'.started = c.started → counted w' = counted w →
      Shape c' p := by
    intro w w' hp ho ht hs hw
    refine hshape hp ho ht ?_
    rw [hs, countP_set_same hp.was hw]
    exact h.started
  cases hm with
  | lock hj hw hl =>
    obtain rfl | rfl := hw
    · exact hsame ⟨hj, rfl, by simp, fun _ _ => rfl, by simp, fun _ hf => (by cases hf), id, rfl,
        rfl, ⟨rfl, rfl⟩, rfl⟩ rfl rfl rfl rfl
    · exact hsame ⟨hj, rfl, by simp, fun _ _ => rfl, by simp, fun _ hf => (by cases hf), id, rfl,
        rfl, ⟨rfl, rfl⟩, rfl⟩ rfl rfl rfl rfl
  | sleep hj hc hr =>
    exact hsame ⟨hj, rfl, by simp, fun _ _ => rfl, fun _ => hr, fun _ _ => Or.inr hc, id, rfl, rfl,
      ⟨rfl, rfl⟩, rfl⟩ rfl rfl rfl rfl
  | leave hj hs =>
    refine hsame ⟨hj, rfl, by simp, ?_, by simp, ?_, id, rfl, rfl, ⟨rfl, rfl⟩, rfl⟩ rfl rfl rfl rfl
    · intro hr
      rw [hr] at hs
      simp at hs
    · intro hg hf
      rw [hg] at hs
      simp only [reduceCtorEq, true_and, false_or] at hs
      exact Or.inr hs
  | take hj hi hc hd hf =>
    exact hsame ⟨hj, rfl, by simp, fun _ _ => rfl, by simp, fun _ hf => (by cases hf),
      fun h => absurd h hc, rfl, rfl, ⟨rfl, rfl⟩, rfl⟩ rfl rfl rfl rfl
  | unlockTask hj | execute hj | post hj =>
    exact hsame ⟨hj, rfl, by simp, fun _ _ => rfl, by simp, fun _ hf => (by cases hf), id, rfl, rfl,
      ⟨rfl, rfl⟩, rfl⟩ rfl rfl rfl rfl
  | uncount hj =>
    refine hshape ⟨hj, rfl, by simp, fun _ hf => (by cases hf), by simp, fun _ _ => Or.inl rfl, id,
      rfl, rfl, ⟨rfl, rfl⟩, rfl⟩ rfl rfl ?_
    have hloss := countP_set_loss (b := Worker.unlocking) hj (f := counted) rfl rfl
    have hs := h.started
    dsimp only
    omega
  | exit hj =>
    exact hsame ⟨hj, rfl, by simp, fun _ hf => (by cases hf), by simp, fun _ _ => Or.inl rfl, id,
      rfl, rfl, ⟨rfl, rfl⟩, rfl⟩ rfl rfl rfl rfl

theorem Shape.wake (h : Shape c p) (hm : Moved c (.wake j) c') : Shape c' p := by
  have howned := h.moved_owned hm
  cases hm with
  | wake hj =>
    have hp : Paced c { c with workers := c.workers.set j .woken } j .sleeping .woken :=
      ⟨hj, rfl, by simp, fun _ _ => rfl, by simp, fun _ hf => (by cases hf), id, rfl, rfl,
        ⟨rfl, rfl⟩, rfl⟩
    refine ⟨h.owners, howned, ?_, ?_, ?_, h.wanted, hp.stage h.stage⟩
    · rw [List.length_set]
      exact h.threads
    · have hsame := countP_set_same (b := Worker.woken) hj (f := counted) rfl
      exact h.started.trans (congrArg Nat.cast hsame.symm)
    · rw [List.length_set]
      exact h.bounded

theorem Shape.serve (h : Shape c .idle) (hs : Serving c) (hl : c.workers.length = c.wanted)
    (howned : Owned (Holds c') c'.lock) (ho : c'.owners = c.owners)
    (ht : c'.threadCount = c.threadCount) (hst : c'.started = c.started)
    (hw : c'.workers = c.workers) (hsh : c'.shutdown = c.shutdown)
    (hd : c'.dismantled = c.dismantled) (hf : c'.freed = c.freed) (hn : c'.wanted = c.wanted) :
    Shape c' .idle where
  owners := ho.trans h.owners
  owned := howned
  threads := by
    rw [ht, hw]
    exact h.threads
  started := by
    rw [hst, hw]
    exact h.started
  bounded := by
    rw [hw, hn]
    exact h.bounded
  wanted := hn ▸ h.wanted
  stage := by
    refine Or.inl ⟨⟨hsh.trans hs.running, ?_, hd.trans hs.whole.1, hf.trans hs.whole.2⟩, ?_⟩
    · rw [hw]
      exact hs.loops
    · rw [hw, hn]
      exact hl

theorem Shape.client (h : Shape c p) (hm : Moved c (.client i) c') : Shape c' p := by
  have howned := h.moved_owned hm
  cases hm with
  | lockAdd hi | refuse hi | push hi | unlockAdd hi =>
    obtain ⟨rfl, hs, hl⟩ := h.busy hi (by simp)
    exact h.serve hs hl howned rfl rfl rfl rfl rfl rfl rfl rfl

theorem Shape.signal (h : Shape c p) (hm : Moved c (.signal i j) c') : Shape c' p := by
  have howned := h.moved_owned hm
  cases hm with
  | signalNone hi =>
    obtain ⟨rfl, hs, hl⟩ := h.busy hi (by simp)
    exact h.serve hs hl howned rfl rfl rfl rfl rfl rfl rfl rfl
  | signal hi hj =>
    obtain ⟨rfl, hs, hl⟩ := h.busy hi (by simp)
    have hw := h.wake (.wake hj)
    refine ⟨h.owners, howned, hw.threads, hw.started, hw.bounded, h.wanted, ?_⟩
    obtain hstage | ⟨hc, -⟩ := hw.stage
    · exact Or.inl ⟨⟨hs.running, hstage.1.loops, hs.whole⟩, hstage.2⟩
    · exact absurd hs.running hc.shut

theorem Shape.running_idle (h : Shape c p) (hr : c.shutdown = .running)
    (hp : ∀ p ∈ c.owners, p = .idle) :
    p = .idle ∧ Serving c ∧ c.workers.length = c.wanted := by
  obtain rfl : p = .idle := hp p (by rw [h.owners]; simp)
  obtain hs | ⟨hc, -⟩ := h.stage
  · exact ⟨rfl, hs⟩
  · exact absurd hr hc.shut

theorem Shape.add (h : Shape c p) {t : α} (hpol : Polite c (.add i t))
    (hm : Moved c (.add i t) c') : Shape c' p := by
  have howned := h.moved_owned hm
  obtain ⟨rfl, hs, hl⟩ := h.running_idle hpol.1 hpol.2
  cases hm with
  | callAdd hi => exact h.serve hs hl howned rfl rfl rfl rfl rfl rfl rfl rfl

theorem quiet_of_all (h : c.clients.all idleClient = true) : Quiet c := by
  intro x hx
  have hi := List.all_eq_true.mp h x hx
  cases x with
  | idle => rfl
  | add t | adding t | signal | unlock e => cases hi

theorem Shape.destroy (h : Shape c p) {n : Nat} {g : Bool} (hpol : Polite c (.destroy n g))
    (hm : Moved c (.destroy n g) c') : Shape c' (.destroy g) := by
  have howned := h.moved_owned hm
  obtain ⟨hr, hp, hq⟩ := hpol
  obtain ⟨rfl, hs, hl⟩ := h.running_idle hr hp
  cases hm with
  | callDestroy hn =>
    obtain ⟨rfl, -⟩ := h.at_zero hn
    refine ⟨h.set_owners _, howned, h.threads, h.started, h.bounded, h.wanted, ?_⟩
    refine ⟨⟨hs.running, hs.loops, hs.whole⟩, quiet_of_all hq, fun _ he => ?_⟩
    have hw := h.wanted
    rw [← hl, show c.workers = [] from he] at hw
    cases hw

theorem Shape.fail (h : Shape c p) {n : Nat} (hm : Moved c (.fail n) c') :
    Shape c' (.destroy false) := by
  have howned := h.moved_owned hm
  cases hm with
  | fail hn =>
    obtain ⟨rfl, rfl⟩ := h.at_zero hn
    obtain ⟨hs, hq⟩ := h.stage
    exact ⟨h.set_owners _, howned, h.threads, h.started, h.bounded, h.wanted,
      ⟨hs.running, hs.loops, hs.whole⟩, hq, fun hf => (by cases hf)⟩

theorem not_counted_of_ended (h : Ended c) : c.workers.countP counted = 0 := by
  rw [List.countP_eq_zero]
  intro w hw
  rw [h w hw]
  exact Bool.false_ne_true

theorem ended_of_joined {m : Nat} (h : ∀ k < m, c.workers[k]? = some .exited)
    (hm : c.workers.length ≤ m) : Ended c := by
  intro w hw
  obtain ⟨k, hk⟩ := List.mem_iff_getElem?.mp hw
  have hlt := (List.getElem?_eq_some_iff.mp hk).1
  have he := h k (hlt.trans_le hm)
  rw [hk] at he
  cases he
  rfl

theorem closing_of_serving {c' : System α} (hs : Serving c) (hq : Quiet c) {g : Bool}
    (hg : g = true → c.workers ≠ []) (hsh : c'.shutdown = if g then .graceful else .immediate)
    (hw : c'.workers = c.workers) (hc : c'.clients = c.clients) : Closing c' where
  shut := by
    rw [hsh]
    cases g <;> simp
  quiet := by
    rw [Quiet, hc]
    exact hq
  drained _ w hmem hout := by
    rw [hw] at hmem
    rw [hs.loops w hmem] at hout
    cases hout
  staffed hgr := by
    rw [hw]
    cases g with
    | true => exact hg rfl
    | false =>
      rw [hsh] at hgr
      cases hgr

theorem inLoop_wake (w : Worker α) : inLoop w.wake = inLoop w := by
  cases w <;> rfl

theorem counted_wake (w : Worker α) : counted w.wake = counted w := by
  cases w <;> rfl

theorem Shape.owner (h : Shape c p) {n : Nat} (hm : Moved c (.owner n) c') :
    ∃ p', Shape c' p' := by
  have howned := h.moved_owned hm
  have ht := h.threads
  have hst := h.started
  have hb := h.bounded
  cases hm with
  | spawn hn hlt =>
    obtain ⟨rfl, rfl⟩ := h.at_zero hn
    obtain ⟨hs, hq⟩ := h.stage
    refine ⟨.count, h.set_owners _, howned, ?_, ?_, ?_, h.wanted, ⟨hs.running, ?_, hs.whole⟩, hq⟩
    · rw [List.length_append, ← ht]
      rfl
    · have hone : ([.enter] : List (Worker α)).countP counted = 1 := rfl
      rw [List.countP_append, hone, Nat.cast_add, ← hst]
      simp [pending]
    · rw [List.length_append, ← ht]
      exact hlt
    · intro w hw
      obtain hw | hw := List.mem_append.mp hw
      · exact hs.loops w hw
      · rw [List.mem_singleton.mp hw]
        rfl
  | created hn hge =>
    obtain ⟨rfl, rfl⟩ := h.at_zero hn
    obtain ⟨hs, hq⟩ := h.stage
    refine ⟨.idle, h.set_owners _, howned, ht, hst, hb, h.wanted, Or.inl ⟨?_, ?_⟩⟩
    · exact ⟨hs.running, hs.loops, hs.whole⟩
    · exact Nat.le_antisymm hb (ht ▸ Nat.le_of_not_lt hge)
  | count hn =>
    obtain ⟨rfl, rfl⟩ := h.at_zero hn
    obtain ⟨hs, hq⟩ := h.stage
    refine ⟨.spawn, h.set_owners _, howned, ht, ?_, hb, h.wanted, ?_, hq⟩
    · rw [← hst]
      simp [pending]
    · exact ⟨hs.running, hs.loops, hs.whole⟩
  | @lockDestroy _ g hn =>
    obtain ⟨rfl, rfl⟩ := h.at_zero hn
    obtain ⟨hs, hq, hg⟩ := h.stage
    exact ⟨.destroying g, h.set_owners _, howned, ht, hst, hb, h.wanted,
      ⟨hs.running, hs.loops, hs.whole⟩, hq, hg⟩
  | again hn hs =>
    obtain ⟨rfl, rfl⟩ := h.at_zero hn
    exact absurd h.stage.1.running hs
  | shut hn =>
    obtain ⟨rfl, rfl⟩ := h.at_zero hn
    obtain ⟨hs, hq, hg⟩ := h.stage
    exact ⟨.broadcast, h.set_owners _, howned, ht, hst, hb, h.wanted,
      closing_of_serving hs hq hg rfl rfl rfl, hs.whole⟩
  | broadcast hn =>
    obtain ⟨rfl, rfl⟩ := h.at_zero hn
    obtain ⟨hc, hw⟩ := h.stage
    refine ⟨.unlock, h.set_owners _, howned, ?_, ?_, ?_, h.wanted, ?_, hw, not_sleeping_wake _⟩
    · rw [List.length_map]
      exact ht
    · have hwake : counted ∘ Worker.wake = (counted : Worker α → Bool) := funext counted_wake
      rw [List.countP_map, hwake]
      exact hst
    · rw [List.length_map]
      exact hb
    · refine ⟨hc.shut, hc.quiet, fun hg v hv hout => ?_, fun hg he => ?_⟩
      · obtain ⟨w, hw, rfl⟩ := List.mem_map.mp hv
        rw [inLoop_wake] at hout
        exact hc.drained hg w hw hout
      · exact hc.staffed hg (List.map_eq_nil_iff.mp he)
  | unlockDestroy hn =>
    obtain ⟨rfl, rfl⟩ := h.at_zero hn
    obtain ⟨hc, hw, hsl⟩ := h.stage
    exact ⟨.join 0, h.set_owners _, howned, ht, hst, hb, h.wanted,
      ⟨hc.shut, hc.quiet, hc.drained, hc.staffed⟩, hw, hsl,
      fun k hk => absurd hk (Nat.not_lt_zero k)⟩
  | @join _ m hn hlt hd he =>
    obtain ⟨rfl, rfl⟩ := h.at_zero hn
    obtain ⟨hc, hw, hsl, hj⟩ := h.stage
    refine ⟨.join (m + 1), h.set_owners _, howned, ht, hst, hb, h.wanted,
      ⟨hc.shut, hc.quiet, hc.drained, hc.staffed⟩, hw, hsl, fun k hk => ?_⟩
    obtain hk | rfl := Nat.lt_succ_iff_lt_or_eq.mp hk
    · exact hj k hk
    · exact he
  | joined hn hge =>
    obtain ⟨rfl, rfl⟩ := h.at_zero hn
    obtain ⟨hc, hw, hsl, hj⟩ := h.stage
    refine ⟨.free, h.set_owners _, howned, ht, hst, hb, h.wanted,
      ⟨hc.shut, hc.quiet, hc.drained, hc.staffed⟩, hw, ?_⟩
    exact ended_of_joined hj (ht ▸ Nat.le_of_not_lt hge)
  | keep hn hpos =>
    obtain ⟨rfl, rfl⟩ := h.at_zero hn
    rw [not_counted_of_ended h.stage.2.2] at hst
    simp only [pending] at hst
    omega
  | free hn hz hd =>
    obtain ⟨rfl, rfl⟩ := h.at_zero hn
    obtain ⟨hc, hw, he⟩ := h.stage
    exact ⟨.dispose, h.set_owners _, howned, ht, hst, hb, h.wanted,
      ⟨hc.shut, hc.quiet, hc.drained, hc.staffed⟩, he, hw.2⟩
  | dispose hn hl =>
    obtain ⟨rfl, rfl⟩ := h.at_zero hn
    obtain ⟨hc, he, hf⟩ := h.stage
    exact ⟨.idle, h.set_owners _, howned, ht, hst, hb, h.wanted,
      Or.inr ⟨⟨hc.shut, hc.quiet, hc.drained, hc.staffed⟩, he, rfl⟩⟩

theorem Shape.moved (h : Shape c p) (hpol : Polite c m) (hm : Moved c m c') :
    ∃ p', Shape c' p' := by
  cases m with
  | add i t => exact ⟨p, h.add hpol hm⟩
  | destroy n g => exact ⟨_, h.destroy hpol hm⟩
  | worker j => exact ⟨p, h.worker hm⟩
  | client i => exact ⟨p, h.client hm⟩
  | signal i j => exact ⟨p, h.signal hm⟩
  | owner n => exact h.owner hm
  | fail n => exact ⟨_, h.fail hm⟩
  | wake j => exact ⟨p, h.wake hm⟩

structure Inv (c : System α) : Prop where
  shape : ∃ p, Shape c p
  tasks : Tasks c
  sound : c.fault = false

theorem move_inv (hpol : Polite c m) (hm : move c m = some c') (h : Inv c) : Inv c' := by
  obtain ⟨p, hp⟩ := h.shape
  obtain ⟨-, hm | ⟨hmis, -⟩⟩ := moved_of_move hm
  · refine ⟨hp.moved hpol hm, moved_tasks hm h.tasks, ?_⟩
    have hf := h.sound
    cases hm <;> exact hf
  · exact absurd hmis hp.not_misused

def Accepted (threads queueSize : Nat) : Prop :=
  (ThreadPool.threadpoolCreate threads queueSize).isSome = true

instance (threads queueSize : Nat) : Decidable (Accepted threads queueSize) :=
  inferInstanceAs (Decidable (_ = true))

theorem Accepted.pos {threads queueSize : Nat} (h : Accepted threads queueSize) :
    0 < threads ∧ 0 < queueSize := by
  rw [Accepted, ThreadPool.threadpoolCreate] at h
  split at h
  · cases h
  · omega

theorem start_inv {threads queueSize : Nat} (h : Accepted threads queueSize) (clients : Nat) :
    Inv (start threads queueSize clients 0 : System α) where
  shape := by
    refine ⟨.spawn, rfl, Owned.release, rfl, rfl, Nat.zero_le _, h.pos.1, ⟨rfl, ?_, rfl, rfl⟩, ?_⟩
    · intro w hw
      cases hw
    · intro x hx
      exact List.eq_of_mem_replicate hx
  tasks := ⟨⟨[], holds_empty h.pos.2, rfl⟩, List.Perm.refl _, rfl⟩
  sound := rfl

theorem run_inv {threads queueSize clients : Nat} {ms : List (Move α)}
    (ha : Accepted threads queueSize)
    (hp : AlongM move Polite (start threads queueSize clients 0) ms)
    (h : ms.foldlM move (start threads queueSize clients 0) = some c) : Inv c :=
  hp.keeps (fun _ _ _ _ hi hpol hm => move_inv hpol hm hi) (start_inv ha clients) h

theorem Shape.freed (h : Shape c p) (hf : c.freed = true) : Closing c ∧ Ended c := by
  have hs := h.stage
  have hwhole : ¬ Whole c := by
    rintro ⟨-, hl⟩
    rw [hf] at hl
    cases hl
  cases p with
  | idle =>
    obtain hs | hs := hs
    · exact absurd hs.1.whole hwhole
    · exact ⟨hs.1, hs.2.1⟩
  | spawn | count | destroy g | destroying g => exact absurd hs.1.whole hwhole
  | broadcast => exact absurd hs.2 hwhole
  | unlock | join m | free => exact absurd hs.2.1 hwhole
  | dispose =>
    obtain ⟨-, -, hl⟩ := hs
    rw [hf] at hl
    cases hl

theorem Tasks.executed_taken (h : Tasks c)
    (hw : ∀ w ∈ c.workers, taskOf w = none ∧ posting w = false) :
    c.executed.Perm c.taken ∧ c.posted = c.executed.length := by
  have hnone : c.workers.filterMap taskOf = [] := by
    rw [List.filterMap_eq_nil_iff]
    exact fun w hm => (hw w hm).1
  have hzero : c.workers.countP posting = 0 := by
    rw [List.countP_eq_zero]
    exact fun w hm => Bool.eq_false_iff.mp (hw w hm).2
  constructor
  · have hheld := h.held
    rw [hnone, List.append_nil] at hheld
    exact hheld.symm
  · have hposts := h.posts
    rw [hzero] at hposts
    exact hposts.symm

theorem Closing.empty (hc : Closing c) (he : Ended c) (hg : c.shutdown = .graceful) :
    c.queue.count = 0 := by
  obtain ⟨w, hw⟩ := List.exists_mem_of_ne_nil _ (hc.staffed hg)
  refine hc.drained hg w hw ?_
  rw [he w hw]
  rfl

/-- A pool that is used politely never touches freed memory. When it has been
freed, all its threads have ended, every task that was taken was executed once
and paid for by one `sem_post`, and no other was. A graceful shutdown has
executed all the tasks that were accepted, and an immediate one the first of
them. -/
theorem shutdown_settles {threads queueSize : Nat} (ha : Accepted threads queueSize)
    (clients : Nat) (ms : List (Move α))
    (hp : AlongM move Polite (start threads queueSize clients 0) ms)
    (h : ms.foldlM move (start threads queueSize clients 0) = some c) :
    c.fault = false ∧ (c.freed = true → (∀ w ∈ c.workers, w = .exited) ∧
      c.posted = c.executed.length ∧ c.executed.Perm c.taken ∧ c.taken <+: c.accepted ∧
      (c.shutdown = .graceful → c.executed.Perm c.accepted)) := by
  have hi := run_inv ha hp h
  refine ⟨hi.sound, fun hf => ?_⟩
  obtain ⟨p, hs⟩ := hi.shape
  obtain ⟨hc, he⟩ := hs.freed hf
  obtain ⟨l, hl, hacc⟩ := hi.tasks.queue
  obtain ⟨hperm, hposts⟩ := hi.tasks.executed_taken fun w hw => by
    rw [he w hw]
    exact ⟨rfl, rfl⟩
  refine ⟨he, hposts, hperm, ⟨l, hacc.symm⟩, fun hg => ?_⟩
  have hnil : l = [] := by
    have hz := hc.empty he hg
    rw [hl.count_eq] at hz
    exact List.length_eq_zero_iff.mp hz
  rw [hacc, hnil, List.append_nil]
  exact hperm

/-- Two threads are created, two tasks are added before they look, and the pool
is destroyed with both in its queue. -/
def destroyTwo : List (Move Nat) :=
  [.owner 0, .owner 0, .owner 0, .owner 0, .owner 0, .add 0 7, .client 0, .client 0, .signal 0 0,
    .client 0, .add 0 8, .client 0, .client 0, .signal 0 0, .client 0, .destroy 0 true]

def shutDown : List (Move Nat) :=
  List.replicate 4 (Move.owner 0) ++ List.replicate 5 (Move.worker 0) ++
    List.replicate 5 (Move.worker 1) ++ List.replicate 4 (Move.worker 0) ++
    List.replicate 4 (Move.worker 1) ++ List.replicate 5 (Move.owner 0)

theorem shutdown_settles_graceful :
    ∃ c : System Nat, (destroyTwo ++ shutDown).foldlM move (start 2 4 1 0) = some c ∧
      c.accepted = [7, 8] ∧ c.freed = true ∧ c.fault = false ∧ c.executed.Perm c.accepted ∧
      c.posted = c.executed.length := by
  have hrun : ∃ c ∈ (destroyTwo ++ shutDown).foldlM move (start 2 4 1 0),
      c.accepted = [7, 8] ∧ c.freed = true ∧ c.shutdown = .graceful := by
    decide +kernel
  obtain ⟨c, hm, ha, hf, hg⟩ := hrun
  have hc := Option.mem_def.mp hm
  obtain ⟨hfault, hend⟩ := shutdown_settles (by decide) 1 (destroyTwo ++ shutDown)
    (by decide +kernel) hc
  obtain ⟨-, hposted, -, -, hperm⟩ := hend hf
  exact ⟨c, hc, ha, hf, hfault, hperm hg, hposted⟩

end WiscKey.PoolInvariant
