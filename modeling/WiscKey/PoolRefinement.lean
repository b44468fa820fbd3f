import WiscKey.PoolThreads

namespace WiscKey.PoolRefinement

open WiscKey.RingBuffer WiscKey.PoolThreads
open WiscKey.ThreadPool (Task Pool Shutdown AddError threadpoolCreate threadpoolAdd)

def poolOf (c : System Task) : Pool := ⟨c.queue, c.shutdown⟩

/-- What is done to the pool at one go: a `threadpool_add` with its result, a
task that a thread takes, or the start of the shutdown. -/
inductive Op where
  | add (t : Task) (error : Option AddError)
  | take (t : Task)
  | shut (how : Shutdown)
deriving DecidableEq

def apply (p : Pool) : Op → Option Pool
  | .add t error =>
    match threadpoolAdd (some p) t with
    | .ok p' => if error = none then some p' else none
    | .error e => if error = some e then some p else none
  | .take t =>
    if p.shutdown ≠ .immediate ∧ p.queue.count ≠ 0 ∧ p.queue.front = some t then
      some { p with queue := p.queue.pop }
    else none
  | .shut how =>
    if p.shutdown = .running ∧ how ≠ .running then some { p with shutdown := how } else none

def accepts : Op → List Task
  | .add t none => [t]
  | _ => []

def takes : Op → List Task
  | .take t => [t]
  | _ => []

variable {c c' : System Task} {m : Move Task}

def Refines (c c' : System Task) (ops : List Op) : Prop :=
  ops.foldlM apply (poolOf c) = some (poolOf c') ∧
    c'.accepted = c.accepted ++ ops.flatMap accepts ∧ c'.taken = c.taken ++ ops.flatMap takes

theorem refines_nothing (hq : c'.queue = c.queue) (hs : c'.shutdown = c.shutdown)
    (ha : c'.accepted = c.accepted) (ht : c'.taken = c.taken) : Refines c c' [] := by
  refine ⟨?_, by simpa using ha, by simpa using ht⟩
  rw [poolOf, poolOf, hq, hs]
  rfl

theorem refines_op {op : Op} (h : apply (poolOf c) op = some (poolOf c'))
    (ha : c'.accepted = c.accepted ++ accepts op) (ht : c'.taken = c.taken ++ takes op) :
    Refines c c' [op] := by
  refine ⟨?_, by simpa using ha, by simpa using ht⟩
  rw [List.foldlM_cons, h]
  rfl

theorem moved_refines (hm : Moved c m c') : ∃ ops, Refines c c' ops := by
  cases hm with
  | callAdd | callDestroy | lock | sleep | leave | unlockTask | execute | post | uncount | exit
  | wake | lockAdd | signal | signalNone | unlockAdd | spawn | created | count | fail
  | lockDestroy | again | broadcast | unlockDestroy | join | joined | keep | free | dispose =>
    exact ⟨[], refines_nothing rfl rfl rfl rfl⟩
  | @take j t hj hi hc hd hf =>
    refine ⟨[.take t], refines_op ?_ (List.append_nil _).symm rfl⟩
    exact if_pos ⟨hi, hc, hf⟩
  | @refuse i t e hi he =>
    refine ⟨[.add t (some e)], refines_op ?_ (List.append_nil _).symm (List.append_nil _).symm⟩
    obtain ⟨rfl, hfull⟩ | ⟨rfl, hfull, hs⟩ := he
    · simp [apply, threadpoolAdd, poolOf, hfull]
    · simp [apply, threadpoolAdd, poolOf, hfull, hs]
  | @push i t hi hfull hr hd =>
    refine ⟨[.add t none], refines_op ?_ rfl (List.append_nil _).symm⟩
    simp [apply, threadpoolAdd, poolOf, hfull, hr]
  | @shut n g hn hs =>
    refine ⟨[.shut (if g then .graceful else .immediate)],
      refines_op ?_ (List.append_nil _).symm (List.append_nil _).symm⟩
    refine if_pos ⟨hs, ?_⟩
    cases g <;> simp

theorem move_refines (h : move c m = some c') : ∃ ops, Refines c c' ops := by
  obtain ⟨-, hm | ⟨-, rfl⟩⟩ := moved_of_move h
  · exact moved_refines hm
  · exact ⟨[], refines_nothing rfl rfl rfl rfl⟩

theorem Refines.trans {c'' : System Task} {ops ops' : List Op} (h : Refines c c' ops)
    (h' : Refines c' c'' ops') : Refines c c'' (ops ++ ops') := by
  obtain ⟨hr, ha, ht⟩ := h
  obtain ⟨hr', ha', ht'⟩ := h'
  refine ⟨?_, ?_, ?_⟩
  · rw [List.foldlM_append, hr]
    exact hr'
  · rw [ha', ha, List.flatMap_append, List.append_assoc]
  · rw [ht', ht, List.flatMap_append, List.append_assoc]

theorem run_refines {ms : List (Move Task)} (h : ms.foldlM move c = some c') :
    ∃ ops, Refines c c' ops := by
  induction ms generalizing c with
  | nil =>
    cases h
    exact ⟨[], refines_nothing rfl rfl rfl rfl⟩
  | cons m ms ih =>
    rw [List.foldlM_cons] at h
    obtain ⟨d, hd, h⟩ := Option.bind_eq_some_iff.mp h
    obtain ⟨ops, hops⟩ := move_refines hd
    obtain ⟨ops', hops'⟩ := ih h
    exact ⟨ops ++ ops', hops.trans hops'⟩

/-- However the threads interleave, whoever is woken and whoever misuses the pool,
its queue and its shutdown flag are those of a sequence of operations that are done
at one go. The tasks accepted and taken are those of the sequence, in its order. A
critical section is one step of the threads already; what is left to say is that
nothing else they do touches the queue. -/
theorem pool_refines {threads queueSize : Nat} {p : Pool}
    (hp : threadpoolCreate threads queueSize = some p) (clients owners : Nat)
    (ms : List (Move Task))
    (h : ms.foldlM move (start threads queueSize clients owners) = some c) :
    ∃ ops : List Op, ops.foldlM apply p = some (poolOf c) ∧
      ops.flatMap accepts = c.accepted ∧ ops.flatMap takes = c.taken := by
  obtain ⟨ops, hr, ha, ht⟩ := run_refines h
  refine ⟨ops, ?_, ha.symm, ht.symm⟩
  rw [threadpoolCreate] at hp
  split at hp
  · cases hp
  · cases hp
    exact hr

def addAndTake : List (Move Task) :=
  [.owner 0, .owner 0, .owner 0, .add 0 ⟨0, 0⟩, .add 1 ⟨0, 1⟩, .client 0, .client 0, .signal 0 0,
    .client 0, .worker 0, .worker 0, .worker 0, .client 1, .client 1]

theorem pool_refines_one :
    ∃ c, addAndTake.foldlM move (start 1 2 2 0) = some c ∧
      c.accepted = [⟨0, 0⟩, ⟨0, 1⟩] ∧ c.taken = [⟨0, 0⟩] ∧
      ∃ ops : List Op, ops.foldlM apply ⟨Circular.empty 2, .running⟩ = some (poolOf c) ∧
        ops.flatMap accepts = c.accepted ∧ ops.flatMap takes = c.taken := by
  have hrun : ∃ c ∈ addAndTake.foldlM move (start 1 2 2 0),
      c.accepted = [⟨0, 0⟩, ⟨0, 1⟩] ∧ c.taken = [⟨0, 0⟩] := by
    decide +kernel
  obtain ⟨c, hc, ha, ht⟩ := hrun
  have hp : threadpoolCreate 1 2 = some ⟨Circular.empty 2, .running⟩ := rfl
  exact ⟨c, hc, ha, ht, pool_refines hp 2 0 addAndTake hc⟩

end WiscKey.PoolRefinement
