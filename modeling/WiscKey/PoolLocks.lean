import WiscKey.Mutex
import WiscKey.Runs
import WiscKey.PoolThreads

namespace WiscKey.PoolLocks

open WiscKey.Mutex WiscKey.Runs WiscKey.PoolThreads

variable {α : Type} {c c' : System α} {m : Move α} {i j n : Nat}

def inWorker : Worker α → Bool
  | .check | .grabbed _ | .leaving | .unlocking => true
  | _ => false

def inClient : Client α → Bool
  | .adding _ | .signal | .unlock _ => true
  | _ => false

def inOwner : Owner → Bool
  | .destroying _ | .broadcast | .unlock => true
  | _ => false

/-- The thread is between lock and unlock. -/
def Holds (c : System α) : Party → Prop
  | .worker j => c.workers[j]?.any inWorker = true
  | .client i => c.clients[i]?.any inClient = true
  | .owner n => c.owners[n]?.any inOwner = true

/-- What a step does with the lock. The last case is the `threadpool_destroy`
that finds the pool shutting down. -/
inductive Locked (c c' : System α) : Prop
  | acquire (q : Party) : c.lock = none → c'.lock = some q → Only q (Holds c) (Holds c') →
      Holds c' q → Locked c c'
  | release (q : Party) : Holds c q → c'.lock = none → Only q (Holds c) (Holds c') →
      ¬ Holds c' q → Locked c c'
  | keep : c'.lock = c.lock → (∀ q, Holds c' q ↔ Holds c q) → Locked c c'
  | abandon (n : Nat) (g : Bool) : c.owners[n]? = some (.destroying g) → c.shutdown ≠ .running →
      c'.lock = c.lock → Only (.owner n) (Holds c) (Holds c') → ¬ Holds c' (.owner n) → Locked c c'

theorem any_set_same {β : Type} {f : β → Bool} {l : List β} {a b : β} (hj : l[j]? = some a)
    (hf : f b = f a) (n : Nat) : (l.set j b)[n]?.any f = l[n]?.any f := by
  by_cases hn : j = n
  · subst n
    rw [List.getElem?_set_self (List.getElem?_eq_some_iff.mp hj).1, hj]
    exact hf
  · rw [List.getElem?_set_ne hn]

theorem any_set_self {β : Type} {f : β → Bool} {l : List β} {a : β} (hj : l[j]? = some a) (b : β) :
    (l.set j b)[j]?.any f = f b := by
  rw [List.getElem?_set_self (List.getElem?_eq_some_iff.mp hj).1]
  rfl

theorem any_of {β : Type} {f : β → Bool} {l : List β} {a : β} (hj : l[j]? = some a)
    (hf : f a = true) : l[j]?.any f = true := by
  rw [hj]
  exact hf

theorem only_worker {w : Worker α} (hw : c'.workers = c.workers.set j w)
    (hc : c'.clients = c.clients) (ho : c'.owners = c.owners) :
    Only (.worker j) (Holds c) (Holds c') := by
  intro q hq
  cases q with
  | worker k =>
    have hne : j ≠ k := fun he => hq (by rw [he])
    simp only [Holds, hw, List.getElem?_set_ne hne]
  | client i => simp only [Holds, hc]
  | owner n => simp only [Holds, ho]

theorem only_client {x : Client α} (hw : c'.workers = c.workers)
    (hc : c'.clients = c.clients.set i x) (ho : c'.owners = c.owners) :
    Only (.client i) (Holds c) (Holds c') := by
  intro q hq
  cases q with
  | worker j => simp only [Holds, hw]
  | client k =>
    have hne : i ≠ k := fun he => hq (by rw [he])
    simp only [Holds, hc, List.getElem?_set_ne hne]
  | owner n => simp only [Holds, ho]

theorem only_owner {p : Owner} (hw : c'.workers = c.workers) (hc : c'.clients = c.clients)
    (ho : c'.owners = c.owners.set n p) : Only (.owner n) (Holds c) (Holds c') := by
  intro q hq
  cases q with
  | worker j => simp only [Holds, hw]
  | client i => simp only [Holds, hc]
  | owner k =>
    have hne : n ≠ k := fun he => hq (by rw [he])
    simp only [Holds, ho, List.getElem?_set_ne hne]

theorem same_holds (hw : ∀ j : Nat, c'.workers[j]?.any inWorker = c.workers[j]?.any inWorker)
    (hc : ∀ i : Nat, c'.clients[i]?.any inClient = c.clients[i]?.any inClient)
    (ho : ∀ n : Nat, c'.owners[n]?.any inOwner = c.owners[n]?.any inOwner) (q : Party) :
    Holds c' q ↔ Holds c q := by
  cases q with
  | worker j => simp only [Holds, hw]
  | client i => simp only [Holds, hc]
  | owner n => simp only [Holds, ho]

theorem locked_of_worker (h : Moved c (.worker j) c') : Locked c c' := by
  have hsame : ∀ {w w' : Worker α}, c.workers[j]? = some w → c'.workers = c.workers.set j w' →
      inWorker w' = inWorker w → c'.clients = c.clients → c'.owners = c.owners →
      c'.lock = c.lock → Locked c c' := by
    intro w w' hj hw he hc ho hl
    refine .keep hl (same_holds (fun k => ?_) (fun k => by rw [hc]) fun k => by rw [ho])
    rw [hw]
    exact any_set_same hj he k
  have hrelease : ∀ {w w' : Worker α}, c.workers[j]? = some w → c'.workers = c.workers.set j w' →
      inWorker w = true → inWorker w' = false → c'.clients = c.clients → c'.owners = c.owners →
      c'.lock = none → Locked c c' := by
    intro w w' hj hw hin hout hc ho hl
    refine .release (.worker j) (any_of hj hin) hl (only_worker hw hc ho) ?_
    rw [Holds, hw, any_set_self hj, hout]
    exact Bool.false_ne_true
  cases h with
  | lock hj hw hl =>
    exact .acquire (.worker j) hl rfl (only_worker rfl rfl rfl) (any_set_self hj _)
  | sleep hj | unlockTask hj | exit hj => exact hrelease hj rfl rfl rfl rfl rfl rfl
  | leave hj | take hj | execute hj | post hj | uncount hj =>
    exact hsame hj rfl rfl rfl rfl rfl

theorem locked_of_client (h : Moved c (.client i) c') : Locked c c' := by
  have hsame : ∀ {x x' : Client α}, c.clients[i]? = some x → c'.clients = c.clients.set i x' →
      inClient x' = inClient x → c'.workers = c.workers → c'.owners = c.owners →
      c'.lock = c.lock → Locked c c' := by
    intro x x' hi hc he hw ho hl
    refine .keep hl (same_holds (fun k => by rw [hw]) (fun k => ?_) fun k => by rw [ho])
    rw [hc]
    exact any_set_same hi he k
  cases h with
  | lockAdd hi hl =>
    exact .acquire (.client i) hl rfl (only_client rfl rfl rfl) (any_set_self hi _)
  | refuse hi | push hi => exact hsame hi rfl rfl rfl rfl rfl
  | unlockAdd hi =>
    refine .release (.client i) (any_of hi rfl) rfl (only_client rfl rfl rfl) ?_
    rw [Holds, any_set_self hi]
    exact Bool.false_ne_true

theorem inWorker_wake (w : Worker α) : inWorker w.wake = inWorker w := by
  cases w <;> rfl

theorem any_concat {l : List (Worker α)} (k : Nat) :
    (l ++ [Worker.enter])[k]?.any inWorker = l[k]?.any inWorker := by
  by_cases hk : k < l.length
  · rw [List.getElem?_append_left hk]
  · rw [List.getElem?_eq_none (Nat.le_of_not_lt hk),
      List.getElem?_append_right (Nat.le_of_not_lt hk)]
    cases k - l.length with
    | zero => rfl
    | succ k => rfl

theorem locked_of_owner (h : Moved c (.owner n) c') : Locked c c' := by
  have hsame : ∀ {p p' : Owner}, c.owners[n]? = some p → c'.owners = c.owners.set n p' →
      inOwner p' = inOwner p →
      (∀ k : Nat, c'.workers[k]?.any inWorker = c.workers[k]?.any inWorker) →
      c'.clients = c.clients → c'.lock = c.lock → Locked c c' := by
    intro p p' hn ho he hw hc hl
    refine .keep hl (same_holds hw (fun k => by rw [hc]) fun k => ?_)
    rw [ho]
    exact any_set_same hn he k
  cases h with
  | lockDestroy hn hl =>
    exact .acquire (.owner n) hl rfl (only_owner rfl rfl rfl) (any_set_self hn _)
  | spawn hn => exact hsame hn rfl rfl any_concat rfl rfl
  | broadcast hn =>
    refine hsame hn rfl rfl (fun k => ?_) rfl rfl
    rw [List.getElem?_map]
    cases c.workers[k]? with
    | none => rfl
    | some w => exact inWorker_wake w
  | created hn | count hn | shut hn | join hn | joined hn | keep hn | free hn | dispose hn =>
    exact hsame hn rfl rfl (fun _ => rfl) rfl rfl
  | unlockDestroy hn =>
    refine .release (.owner n) (any_of hn rfl) rfl (only_owner rfl rfl rfl) ?_
    rw [Holds, any_set_self hn]
    exact Bool.false_ne_true
  | @again _ g hn hs =>
    refine .abandon n g hn hs rfl (only_owner rfl rfl rfl) ?_
    rw [Holds, any_set_self hn]
    exact Bool.false_ne_true

theorem locked_of_moved (h : Moved c m c') : Locked c c' := by
  cases m with
  | worker j => exact locked_of_worker h
  | client i => exact locked_of_client h
  | owner n => exact locked_of_owner h
  | add i t =>
    cases h with
    | callAdd hi =>
      exact .keep rfl (same_holds (fun _ => rfl) (any_set_same hi rfl) fun _ => rfl)
  | destroy n g =>
    cases h with
    | callDestroy hn =>
      exact .keep rfl (same_holds (fun _ => rfl) (fun _ => rfl) (any_set_same hn rfl))
  | signal i j =>
    cases h with
    | signal hi hj =>
      exact .keep rfl (same_holds (any_set_same hj rfl) (any_set_same hi rfl) fun _ => rfl)
    | signalNone hi =>
      exact .keep rfl (same_holds (fun _ => rfl) (any_set_same hi rfl) fun _ => rfl)
  | fail n =>
    cases h with
    | fail hn => exact .keep rfl (same_holds (fun _ => rfl) (fun _ => rfl) (any_set_same hn rfl))
  | wake j =>
    cases h with
    | wake hj => exact .keep rfl (same_holds (any_set_same hj rfl) (fun _ => rfl) fun _ => rfl)

/-- Whatever is called and however it ends, no two threads are in the pool at
the same time. -/
theorem locked_exclusive (h : Locked c c') (he : Exclusive (Holds c) c.lock) :
    Exclusive (Holds c') c'.lock := by
  cases h with
  | acquire q hl hl' ho hq =>
    rw [hl] at he
    rw [hl']
    exact he.acquire ho
  | release q hq hl' ho hq' =>
    rw [hl']
    exact he.release hq ho hq'
  | keep hl hh =>
    rw [hl]
    exact he.keep fun q => (hh q).mp
  | abandon n g hn hs hl ho hq =>
    rw [hl]
    refine he.keep fun q hq' => ?_
    by_cases hne : q = .owner n
    · subst q
      exact absurd hq' hq
    · exact (ho q hne).mp hq'

theorem start_free (threads queueSize clients owners : Nat) (q : Party) :
    ¬ Holds (start threads queueSize clients owners : System α) q := by
  cases q with
  | worker j => simp [Holds, start]
  | client i =>
    simp only [Holds, start, List.getElem?_replicate]
    split <;> simp [inClient]
  | owner n =>
    cases n with
    | zero => simp [Holds, start, inOwner]
    | succ n =>
      simp only [Holds, start, List.getElem?_cons_succ, List.getElem?_replicate]
      split <;> simp [inOwner]

theorem move_exclusive (h : move c m = some c') (he : Exclusive (Holds c) c.lock) :
    Exclusive (Holds c') c'.lock := by
  obtain ⟨-, hm | ⟨-, rfl⟩⟩ := moved_of_move h
  · exact locked_exclusive (locked_of_moved hm) he
  · exact he.keep fun q => (same_holds (fun _ => rfl) (fun _ => rfl) (fun _ => rfl) q).mp

theorem run_exclusive {threads queueSize clients owners : Nat} {ms : List (Move α)}
    (h : ms.foldlM move (start threads queueSize clients owners) = some c) :
    Exclusive (Holds c) c.lock :=
  foldlM_invariant (I := fun d => Exclusive (Holds d) d.lock)
    (fun _ _ _ _ hi hm => move_exclusive hm hi)
    (fun q hq => absurd hq (start_free threads queueSize clients owners q)) h

/-- The lock is left to an owner that has returned. -/
structure Abandoned (n : Nat) (c : System α) : Prop where
  lock : c.lock = some (.owner n)
  out : ∀ q, ¬ Holds c q

/-- The threads of the pool, the calls of `threadpool_add` and the pool itself
have not come to an end. -/
structure Hanging (c c' : System α) : Prop where
  freed : c'.freed = c.freed
  workers : ∀ (j : Nat) (w : Worker α), c.workers[j]? = some w → w.ended = false →
    ∃ w', c'.workers[j]? = some w' ∧ w'.ended = false
  clients : ∀ (i : Nat) (x : Client α), c.clients[i]? = some x → x ≠ .idle →
    ∃ x', c'.clients[i]? = some x' ∧ x' ≠ .idle

theorem Hanging.refl (c : System α) : Hanging c c :=
  ⟨rfl, fun _ w hw he => ⟨w, hw, he⟩, fun _ x hx he => ⟨x, hx, he⟩⟩

theorem Hanging.trans {c'' : System α} (h : Hanging c c') (h' : Hanging c' c'') :
    Hanging c c'' where
  freed := h'.freed.trans h.freed
  workers j w hw he := by
    obtain ⟨w', hw', he'⟩ := h.workers j w hw he
    exact h'.workers j w' hw' he'
  clients i x hx he := by
    obtain ⟨x', hx', he'⟩ := h.clients i x hx he
    exact h'.clients i x' hx' he'

theorem locked_abandoned (h : Locked c c') (ha : Abandoned n c) : Abandoned n c' := by
  cases h with
  | acquire q hl =>
    rw [ha.lock] at hl
    cases hl
  | release q hq => exact absurd hq (ha.out q)
  | keep hl hh => exact ⟨hl.trans ha.lock, fun q hq => ha.out q ((hh q).mp hq)⟩
  | abandon k g hk => exact absurd (any_of hk rfl) (ha.out (.owner k))

theorem set_kept {β : Type} {P : β → Prop} {l : List β} {a b : β} (hj : l[j]? = some a)
    (hb : P a → P b) (k : Nat) (w : β) (hw : l[k]? = some w) (hp : P w) :
    ∃ w', (l.set j b)[k]? = some w' ∧ P w' := by
  by_cases hk : j = k
  · subst k
    rw [hj] at hw
    cases hw
    exact ⟨b, List.getElem?_set_self (List.getElem?_eq_some_iff.mp hj).1, hb hp⟩
  · exact ⟨w, (List.getElem?_set_ne hk).trans hw, hp⟩

theorem moved_hanging (h : Moved c m c') (ha : Abandoned n c) : Hanging c c' := by
  have hr := Hanging.refl c
  have hworker : ∀ {j : Nat} {w : Worker α}, c.workers[j]? = some w → inWorker w = true → False :=
    fun hj hw => ha.out (.worker _) (any_of hj hw)
  have hclient : ∀ {i : Nat} {x : Client α}, c.clients[i]? = some x → inClient x = true → False :=
    fun hi hx => ha.out (.client _) (any_of hi hx)
  have hlock : c.lock ≠ none := by
    rw [ha.lock]
    exact Option.some_ne_none _
  cases h with
  | callAdd hi => exact ⟨rfl, hr.workers, set_kept hi fun _ => by simp⟩
  | callDestroy hn | created hn | count hn | fail hn | again hn | shut hn | unlockDestroy hn
  | join hn | joined hn | keep hn | free hn => exact ⟨rfl, hr.workers, hr.clients⟩
  | lock hj hw hl | lockAdd hi hl | lockDestroy hn hl | dispose hn hl => exact absurd hl hlock
  | sleep hj | leave hj | take hj | unlockTask hj | uncount hj | exit hj =>
    exact (hworker hj rfl).elim
  | execute hj | post hj | wake hj => exact ⟨rfl, set_kept hj fun _ => rfl, hr.clients⟩
  | refuse hi | push hi | signal hi | signalNone hi | unlockAdd hi => exact (hclient hi rfl).elim
  | spawn hn =>
    refine ⟨rfl, fun j w hw he => ⟨w, ?_, he⟩, hr.clients⟩
    rw [List.getElem?_append_left (List.getElem?_eq_some_iff.mp hw).1]
    exact hw
  | broadcast hn =>
    refine ⟨rfl, fun j w hw he => ⟨w.wake, ?_, ?_⟩, hr.clients⟩
    · rw [List.getElem?_map, hw]
      rfl
    · cases w with
      | exited => exact he
      | enter | check | sleeping | woken | grabbed t | working t | posting | leaving
      | unlocking => rfl

theorem move_hanging (h : move c m = some c') (ha : Abandoned n c) :
    Abandoned n c' ∧ Hanging c c' := by
  obtain ⟨-, hm | ⟨-, rfl⟩⟩ := moved_of_move h
  · exact ⟨locked_abandoned (locked_of_moved hm) ha, moved_hanging hm ha⟩
  · have hr := Hanging.refl c
    refine ⟨⟨ha.lock, fun q hq => ha.out q ?_⟩, hr.freed, hr.workers, hr.clients⟩
    exact (same_holds (fun _ => rfl) (fun _ => rfl) (fun _ => rfl) q).mp hq

theorem again_abandons {g : Bool} (he : Exclusive (Holds c) c.lock)
    (hn : c.owners[n]? = some (.destroying g)) (hs : c.shutdown ≠ .running)
    (hf : c.freed = false) (h : move c (.owner n) = some c') : Abandoned n c' ∧ Hanging c c' := by
  have hown := he (.owner n) (any_of hn rfl)
  obtain ⟨hfault, -⟩ := moved_of_move h
  have hc' : c' = { c with owners := c.owners.set n .idle } := by
    simpa [move, hfault, hn, touching, hf, manage, hs] using h.symm
  have honly : Only (.owner n) (Holds c) (Holds c') := by
    rw [hc']
    exact only_owner rfl rfl rfl
  have hr := Hanging.refl c
  subst c'
  refine ⟨⟨hown, fun q hq => ?_⟩, rfl, hr.workers, hr.clients⟩
  by_cases hq' : q = .owner n
  · subst q
    rw [Holds, any_set_self hn] at hq
    cases hq
  · have ho := he q ((honly q hq').mp hq)
    rw [hown] at ho
    cases ho
    exact hq' rfl

/-- A `threadpool_destroy` that finds the pool shutting down returns without
unlocking it. From then on nobody gets the lock: the threads of the pool that
have not ended never do, so that the first `threadpool_destroy` joins them
forever, no `threadpool_add` under way returns, and the pool is never freed. -/
theorem second_destroy_hangs (threads queueSize clients owners : Nat) {pre post : List (Move α)}
    {g : Bool} (hpre : pre.foldlM move (start threads queueSize clients owners) = some c)
    (hn : c.owners[n]? = some (.destroying g)) (hs : c.shutdown ≠ .running)
    (hf : c.freed = false) (hrun : (.owner n :: post).foldlM move c = some c') :
    c'.lock = some (.owner n) ∧ Hanging c c' := by
  rw [List.foldlM_cons] at hrun
  obtain ⟨d, hd, hrun⟩ := Option.bind_eq_some_iff.mp hrun
  have hfirst := again_abandons (run_exclusive hpre) hn hs hf hd
  have hlast : Abandoned n c' ∧ Hanging c c' := by
    refine foldlM_invariant (I := fun d => Abandoned n d ∧ Hanging c d)
      (fun a e _ b hi hm => ?_) hfirst hrun
    obtain ⟨ha, hh⟩ := move_hanging hm hi.1
    exact ⟨ha, hi.2.trans hh⟩
  exact ⟨hlast.1.lock, hlast.2⟩

def destroyTwice : List (Move Nat) :=
  [.owner 0, .owner 0, .owner 0, .destroy 0 true, .destroy 1 true, .owner 0, .owner 0, .owner 0,
    .owner 0, .owner 1]

theorem second_destroy_hangs_one :
    ∃ c c' : System Nat, destroyTwice.foldlM move (start 1 1 0 1) = some c ∧
      c.owners[0]? = some (.join 0) ∧ c.workers = [.enter] ∧ move c (.owner 1) = some c' ∧
      c'.lock = some (.owner 1) ∧ Hanging c c' := by
  have hrun : ∃ c ∈ destroyTwice.foldlM move (start 1 1 0 1), c.owners[0]? = some (.join 0) ∧
      c.workers = [.enter] ∧ c.owners[1]? = some (.destroying true) ∧ c.shutdown ≠ .running ∧
      c.freed = false ∧ ∃ c' ∈ [Move.owner 1].foldlM move c, move c (.owner 1) = some c' := by
    decide +kernel
  obtain ⟨c, hc, hj, hw, hn, hs, hf, c', hc', hm⟩ := hrun
  have h := second_destroy_hangs 1 1 0 1 hc hn hs hf hc'
  exact ⟨c, c', hc, hj, hw, hm, h⟩

end WiscKey.PoolLocks
