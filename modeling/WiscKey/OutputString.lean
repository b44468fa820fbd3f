import WiscKey.GarbageCollection
import WiscKey.Coherence

namespace WiscKey.OutputString

open WiscKey.Runs WiscKey.ValueLog WiscKey.LogLayout WiscKey.LogRecords WiscKey.CacheHolds
  WiscKey.Database WiscKey.Representation WiscKey.Collect WiscKey.CollectCorrect
  WiscKey.GarbageCollection WiscKey.Coherence

def into (out : Value) : Answer → Answer
  | .ok v => .ok (out ++ v)
  | .notFound => .notFound

/-- The part of `Get` behind a write buffer miss. The whole output string goes
into the data cache. -/
def getFromLogInto (s : State) (k : Key) (r : Record) (out : Value) : State × Answer :=
  match readLog (s.log k).file r with
  | none => (s, .notFound)
  | some v => (s.fillCache k (out ++ v), .ok (out ++ v))

def getFromBufferInto (s : State) (k : Key) (r : Record) (out : Value) : State × Answer :=
  match s.readBuffer k with
  | (s, some v) => (s, .ok (out ++ v))
  | (s, none) => getFromLogInto s k r out

def getInto (s : State) (k : Key) (out : Value) : State × Answer :=
  match s.readCache k with
  | (s, some v) => (s, .ok (out ++ v))
  | (s, none) =>
    match s.index[k]? with
    | none => (s, .notFound)
    | some r => getFromBufferInto s k r out

def answers : State → List (Key × Value) → List Answer
  | _, [] => []
  | s, (k, out) :: later => (getInto s k out).2 :: answers (getInto s k out).1 later

inductive Call where
  | put (k : Key) (v : Value)
  | delete (k : Key)
  | get (k : Key) (out : Value)
  | flush
  | reopen (mem : Fin 4 → Nat → UInt8)
  | collect (threads : Nat) (events : List Event)

def step (o : Options) (s : State) : Call → Option State
  | .put k v => some (put o s k v)
  | .delete k => some (delete s k)
  | .get k out => some (getInto s k out).1
  | .flush => some (flushVLog s)
  | .reopen mem => some (reopen o s mem)
  | .collect threads events => vLogGarbageCollect o threads s events

def mapStep (m : Store) : Call → Store
  | .put k v => Function.update m k (some v)
  | .delete k => Function.update m k none
  | .get _ _ | .flush | .reopen _ | .collect _ _ => m

def lastWrite (calls : List Call) : Store := calls.foldl mapStep (fun _ => none)

/-- Values have at most a page, and garbage collections have keys that an `int`
can count. -/
def Admitted (s : State) : Call → Prop
  | .put _ v => v.length ≤ pageSize
  | .collect threads _ => 0 < threads ∧ FewKeys s
  | _ => True

/-- No `Put` leaves an older value of its key in a cache, and every output string
is empty. -/
def Clean (s : State) : Call → Prop
  | .put k v => PutRefreshes s (.put k v)
  | .get _ out => out = []
  | _ => True

instance (s : State) : DecidablePred (Admitted s)
  | .put _ v => inferInstanceAs (Decidable (v.length ≤ pageSize))
  | .collect threads _ => inferInstanceAs
      (Decidable (0 < threads ∧ ∀ p, ((snapshot s).keys p).length < 2 ^ 31))
  | .delete _ | .get _ _ | .flush | .reopen _ => inferInstanceAs (Decidable True)

instance (s : State) : DecidablePred (Clean s)
  | .put k v => inferInstanceAs (Decidable (PutRefreshes s (.put k v)))
  | .get _ out => inferInstanceAs (Decidable (out = []))
  | .delete _ | .flush | .reopen _ | .collect _ _ => inferInstanceAs (Decidable True)

variable {o : Options} {m : Store} {s s' : State} {k : Key} {v out : Value} {call : Call}

/-- What the output string changes: the answer is appended to it, and only a read
of the log leaves a trace of it. -/
structure Into (out : Value) (a b : State × Answer) : Prop where
  answer : b.2 = into out a.2
  state : a.2 = .notFound ∨ out = [] → b.1 = a.1

theorem getFromLogInto_into (r : Record) :
    Into out (getFromLog s k r) (getFromLogInto s k r out) := by
  unfold getFromLogInto getFromLog
  cases readLog (s.log k).file r with
  | none => exact ⟨rfl, fun _ => rfl⟩
  | some v =>
    refine ⟨rfl, ?_⟩
    rintro (h | rfl)
    · cases h
    · rfl

theorem getFromBufferInto_into (r : Record) :
    Into out (getFromBuffer s k r) (getFromBufferInto s k r out) := by
  unfold getFromBufferInto getFromBuffer
  cases s.readBuffer k with
  | mk t a =>
    cases a with
    | none => exact getFromLogInto_into r
    | some v => exact ⟨rfl, fun _ => rfl⟩

theorem getInto_into (s : State) (k : Key) (out : Value) :
    Into out (Database.get s k) (getInto s k out) := by
  unfold getInto Database.get
  cases s.readCache k with
  | mk t a =>
    cases a with
    | some v => exact ⟨rfl, fun _ => rfl⟩
    | none =>
      cases hi : t.index[k]? with
      | none =>
        simp only [hi]
        exact ⟨rfl, fun _ => rfl⟩
      | some r =>
        simp only [hi]
        exact getFromBufferInto_into r

theorem getInto_nil (s : State) (k : Key) : getInto s k [] = Database.get s k := by
  have h := getInto_into s k []
  refine Prod.ext (h.state (Or.inr rfl)) (h.answer.trans ?_)
  cases (Database.get s k).2 with
  | ok v => rfl
  | notFound => rfl

theorem getInto_gets (s : State) (k : Key) (out : Value) :
    Sequential.Gets s k out (getInto s k out) := by
  obtain ⟨hi, hl, -⟩ := readCache_frame s k
  have hcached := @Sequential.Gets.cached s k out
  have hunindexed := @Sequential.Gets.unindexed s k out
  have hbuffered := @Sequential.Gets.buffered s k out
  have hunread := @Sequential.Gets.unread s k out
  have hloaded := @Sequential.Gets.loaded s k out
  rw [← hi] at hunindexed hbuffered hunread hloaded
  unfold getInto
  cases hs : s.readCache k with
  | mk t a =>
    rw [hs] at hl hcached hunindexed hbuffered hunread hloaded
    cases a with
    | some v => exact hcached v rfl
    | none =>
      cases hx : t.index[k]? with
      | none => simpa only [hx] using hunindexed rfl hx
      | some r =>
        have hlog : (t.readBuffer k).1.log k = s.log k := congrFun hl _
        rw [← hlog] at hunread hloaded
        simp only [hx, getFromBufferInto]
        cases hb : t.readBuffer k with
        | mk u c =>
          rw [hb] at hbuffered hunread hloaded
          cases c with
          | some v => exact hbuffered r v rfl hx rfl
          | none =>
            simp only [getFromLogInto]
            cases hr : readLog (u.log k).file r with
            | none => exact hunread r rfl hx rfl hr
            | some v => exact hloaded r v rfl hx rfl hr

theorem step_represents (hb : PageBuffer o.logBufSize) (h : Represents o m s)
    (ha : Admitted s call) (hs : step o s call = some s') : Represents o (mapStep m call) s' := by
  cases call with
  | put k v =>
    cases hs
    exact Sequential.put_represents hb h ha
  | delete k =>
    cases hs
    exact Sequential.delete_represents h
  | get k out =>
    cases hs
    exact (getInto_gets s k out).represents h
  | flush =>
    cases hs
    exact Sequential.flushVLog_represents hb h
  | reopen mem =>
    cases hs
    exact reopen_represents hb h mem
  | collect threads events =>
    obtain ⟨g, hg, hp, rfl⟩ := vLogGarbageCollect_eq_some hs
    exact gcFinish_represents h hb ha.2 ha.1 hg hp

theorem run_represents (hb : PageBuffer o.logBufSize) (mem : Fin 4 → Nat → UInt8)
    {calls : List Call} (ha : AlongM (step o) Admitted (openFresh o mem) calls)
    (hrun : calls.foldlM (step o) (openFresh o mem) = some s) :
    Represents o (lastWrite calls) s :=
  ha.simulates mapStep (fun s m => Represents o m s) (openFresh_represents o mem)
    (fun _ _ _ _ h ha hs => step_represents hb h ha hs) hrun

theorem new_coherent (hbuf : ∀ i, s.buffers i = newBuffer o) (hcache : s.cache = newDataCache o) :
    Coherent m s where
  cache c hc k v := by
    rintro ⟨e, he, -⟩
    rw [hcache, newDataCache] at hc
    split at hc
    · cases hc
      cases he
    · cases hc
  buffer k v := by
    rintro ⟨e, he, -⟩
    rw [State.buffer, hbuf] at he
    cases he

theorem step_coherent (h : Represents o m s) (hc : Coherent m s) (hcl : Clean s call)
    (hs : step o s call = some s') : Coherent (mapStep m call) s' := by
  cases call with
  | put k v =>
    cases hs
    exact put_coherent h hc hcl
  | delete k =>
    cases hs
    exact delete_coherent h hc
  | get k out =>
    cases hs
    cases hcl
    rw [getInto_nil]
    exact (get_coherent h hc).1
  | flush =>
    cases hs
    exact ⟨hc.cache, hc.buffer⟩
  | reopen mem =>
    cases hs
    exact new_coherent (fun _ => rfl) rfl
  | collect threads events =>
    obtain ⟨g, -, -, rfl⟩ := vLogGarbageCollect_eq_some hs
    exact new_coherent (fun _ => rfl) rfl

theorem run_coherent (hb : PageBuffer o.logBufSize) (mem : Fin 4 → Nat → UInt8)
    {calls : List Call} (ha : AlongM (step o) Admitted (openFresh o mem) calls)
    (hcl : AlongM (step o) Clean (openFresh o mem) calls)
    (hrun : calls.foldlM (step o) (openFresh o mem) = some s) :
    Represents o (lastWrite calls) s ∧ Coherent (lastWrite calls) s := by
  refine (ha.and hcl).simulates mapStep (fun s m => Represents o m s ∧ Coherent m s)
    ⟨openFresh_represents o mem, openFresh_coherent o mem⟩ ?_ hrun
  intro s m call s' h hp hs
  exact ⟨step_represents hb h.1 hp.1 hs, step_coherent h.1 h.2 hp.2 hs⟩

/-- A `Get` that answers gives just the value stored, and leaves the answers to
all later ones alone, if its output string is empty and only then. One that does
not answer never depends on the string. -/
theorem get_into_iff (hb : PageBuffer o.logBufSize) (mem : Fin 4 → Nat → UInt8)
    (calls : List Call) (s : State) (ha : AlongM (step o) Admitted (openFresh o mem) calls)
    (hcl : AlongM (step o) Clean (openFresh o mem) calls)
    (hrun : calls.foldlM (step o) (openFresh o mem) = some s) (k : Key) (out : Value) :
    (∀ w, (getInto s k out).2 = .ok w →
      ((lastWrite calls k = some w ∧
        ∀ later, answers (getInto s k out).1 later = answers (getInto s k []).1 later) ↔
          out = [])) ∧
    ((getInto s k out).2 = .notFound →
      ∀ later, answers (getInto s k out).1 later = answers (getInto s k []).1 later) := by
  obtain ⟨h, hc⟩ := run_coherent hb mem ha hcl hrun
  have hi := getInto_into s k out
  constructor
  · intro w hw
    rw [hi.answer] at hw
    cases hg : (Database.get s k).2 with
    | notFound =>
      rw [hg] at hw
      cases hw
    | ok v =>
      rw [hg] at hw
      cases hw
      rw [(get_coherent h hc).2 v hg]
      constructor
      · rintro ⟨he, -⟩
        exact List.append_left_eq_self.mp (Option.some.inj he).symm
      · rintro rfl
        exact ⟨rfl, fun _ => rfl⟩
  · intro hn later
    have hg : (Database.get s k).2 = .notFound := by
      rw [hi.answer] at hn
      cases hg : (Database.get s k).2 with
      | notFound => rfl
      | ok v =>
        rw [hg] at hn
        cases hn
    rw [hi.state (Or.inl hg), getInto_nil]

def reopened : List Call := [.put [7] [1], .flush, .reopen fun _ _ => 0]

theorem get_into_empty : ∃ s,
    reopened.foldlM (step ⟨32768, 16⟩) (openFresh ⟨32768, 16⟩ fun _ _ => 0) = some s ∧
      (getInto s [7] []).2 = .ok [1] ∧ lastWrite reopened [7] = some [1] := by
  have hrun : ∃ s ∈ reopened.foldlM (step ⟨32768, 16⟩) (openFresh ⟨32768, 16⟩ fun _ _ => 0),
      (getInto s [7] []).2 = .ok [1] := by
    decide +kernel
  obtain ⟨s, hs, hg⟩ := hrun
  refine ⟨s, hs, hg, ?_⟩
  have h := get_into_iff (by decide) (fun _ _ => 0) reopened s (by decide +kernel)
    (by decide +kernel) hs [7] []
  exact ((h.1 [1] hg).mpr rfl).1

/-- What one caller had in its string comes back to the next. -/
theorem get_leaks_string : ∃ s,
    reopened.foldlM (step ⟨32768, 16⟩) (openFresh ⟨32768, 16⟩ fun _ _ => 0) = some s ∧
      lastWrite reopened [7] = some [1] ∧ (getInto s [7] [9]).2 = .ok [9, 1] ∧
      answers (getInto s [7] [9]).1 [([7], [])] = [.ok [9, 1]] ∧
      answers (getInto s [7] []).1 [([7], [])] = [.ok [1]] := by
  have hrun : ∃ s ∈ reopened.foldlM (step ⟨32768, 16⟩) (openFresh ⟨32768, 16⟩ fun _ _ => 0),
      lastWrite reopened [7] = some [1] ∧ (getInto s [7] [9]).2 = .ok [9, 1] ∧
      answers (getInto s [7] [9]).1 [([7], [])] = [.ok [9, 1]] ∧
      answers (getInto s [7] []).1 [([7], [])] = [.ok [1]] := by
    decide +kernel
  obtain ⟨s, hs, h⟩ := hrun
  exact ⟨s, hs, h⟩

end WiscKey.OutputString
