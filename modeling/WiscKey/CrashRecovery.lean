import WiscKey.ConcurrentGet

namespace WiscKey.CrashRecovery

open WiscKey.Runs WiscKey.Bytes WiscKey.ValueLog WiscKey.LogLayout WiscKey.LogRecords WiscKey.Hash
  WiscKey.ShardedCache WiscKey.CachePins WiscKey.Database WiscKey.Sequential WiscKey.Concurrent
  WiscKey.ConcurrentShared WiscKey.ConcurrentSafe WiscKey.ConcurrentGet

/-- What the constructor finds after a crash: the index and the log files. The
log buffers, the write buffers and the data cache are lost. -/
def reopenCrashed (o : Options) (s : State) (mem : Fin 4 → Nat → UInt8) : State where
  index := s.index
  logs := fun i => VLog.openLog o.logBufSize (s.logs i).file (mem i)
  buffers := fun _ => newBuffer o
  cache := newDataCache o

def crash (o : Options) (c : Config) (mem : Fin 4 → Nat → UInt8) : Config where
  state := reopenCrashed o c.state mem
  clients := c.clients.map fun _ => .idle
  events := c.events

/-- A move of the clients, or a crash with the memory that the log buffers get
when the database is opened again. -/
inductive Step where
  | move (m : Move)
  | crash (mem : Fin 4 → Nat → UInt8)

def step (o : Options) (c : Config) : Step → Option Config
  | .move m => move o c m
  | .crash mem => some (crash o c mem)

def Step.Small : Step → Prop
  | .move m => m.Small
  | .crash _ => True

/-- A crash comes when no value of the index is in a log buffer only. -/
def CrashFlushed (c : Config) : Step → Prop
  | .move _ => True
  | .crash _ => Flushed c.state

instance (c : Config) : DecidablePred (CrashFlushed c)
  | .move _ => inferInstanceAs (Decidable True)
  | .crash _ => inferInstanceAs (Decidable (Flushed c.state))

variable {o : Options} {c c' : Config} {mem : Fin 4 → Nat → UInt8} {s : State}

theorem openLog_stored {size : Nat} {l : VLog} (h : Within size l) {r : Record} {v : Value}
    (hs : Stored l r v) (hl : r.offset + r.size ≤ l.file.length) (b : UInt64)
    (fresh : Nat → UInt8) : Stored (VLog.openLog b l.file fresh) r v := by
  have hc : (VLog.openLog b l.file fresh).contents = l.file := List.append_nil _
  have hlba : r.offset + v.length ≤ l.lba := by
    rw [h.lba_eq, ← hs.size_eq]
    exact hl
  refine ⟨hs.size_eq, ?_, ?_, Or.inl hl⟩
  · rw [hc, ← file_slice h hlba, hs.bytes]
  · rw [hc]
    exact hl

theorem refsAt_idle (clients : List Pc) (l : Loc) :
    refsAt (clients.map fun _ => Pc.idle) l = [] := by
  induction clients with
  | nil => rfl
  | cons pc clients ih => exact ih

theorem crash_safe (h : Safe o c) (hf : Flushed c.state) : Safe o (crash o c mem) where
  shared := by
    have hr : refsAt (crash o c mem).clients = fun _ => [] := by
      funext l
      exact refsAt_idle c.clients l
    rw [hr]
    apply opened_shared
    · intro i
      have hl := h.shared.layout i
      exact openLog_layout _ _ (mem i) (hl.lba_eq ▸ hl.lba_dvd)
    · intro l d hd
      have hd' : d ∈ cacheAt (openFresh o mem) l := by
        cases l with
        | data | buffer p => exact hd
      exact cacheAt_openFresh hd'
    · intro k r hi
      obtain ⟨v, hv, hs⟩ := h.shared.index k r hi
      exact ⟨v, hv, openLog_stored (h.shared.layout _).toWithin hs (hf.le hi) _ _⟩
  fine pc hpc := by
    obtain ⟨a, -, rfl⟩ := List.mem_map.mp hpc
    trivial
  answered := h.answered

theorem step_safe (hb : PageBuffer o.logBufSize) (h : Safe o c) {e : Step} (he : e.Small)
    (hf : CrashFlushed c e) (hs : step o c e = some c') : Safe o c' := by
  cases e with
  | move m => exact move_safe hb h he hs
  | crash mem =>
    cases hs
    exact crash_safe h hf

/-- However often the database crashes and is opened again: if every crash finds
the values of the index in the log files, a `Get` answers only values of its key
whose `Put` was started before. -/
theorem get_answers_started_crashing (hb : PageBuffer o.logBufSize) (mem : Fin 4 → Nat → UInt8)
    (n : Nat) (steps : List Step) (hm : ∀ e ∈ steps, e.Small)
    (hf : AlongM (step o) CrashFlushed (openClients o mem n) steps)
    (hr : steps.foldlM (step o) (openClients o mem n) = some c) :
    ∀ pre k v post, c.events = pre ++ .answer k (.ok v) :: post → .start k v ∈ pre := by
  have hs : Safe o c := hf.keeps
    (fun c e he c' h hf hs => step_safe hb h (hm e he) hf hs) (openClients_safe o mem n) hr
  exact hs.answered

def go (n : Nat) : List Step := List.replicate n (.move (.go 0))

def putWhole (k : Key) (v : Value) : List Step := .move (.call 0 (.put k v)) :: go 6

def flushWhole : List Step := .move (.call 0 .flush) :: go 5

def crashed : List Step :=
  [.crash fun _ _ => 0] ++ putWhole [1] [2] ++ flushWhole ++ (.move (.call 0 (.get [7])) :: go 6)

def flushedCrash : List Step := putWhole [7] [1] ++ flushWhole ++ crashed

theorem get_answers_started_crashing_flushed :
    ∃ c, flushedCrash.foldlM (step ⟨32768, 0⟩) (openClients ⟨32768, 0⟩ (fun _ _ => 0) 1) = some c ∧
      c.events = [.start [7] [1], .start [1] [2]] ++ [.answer [7] (.ok [1])] ∧
      .start [7] [1] ∈ [Event.start [7] [1], .start [1] [2]] := by
  have hrun : (flushedCrash.foldlM (step ⟨32768, 0⟩)
      (openClients ⟨32768, 0⟩ (fun _ _ => 0) 1)).map Config.events =
        some ([.start [7] [1], .start [1] [2]] ++ [.answer [7] (.ok [1])]) := by
    decide +kernel
  obtain ⟨c, hc, he⟩ := Option.map_eq_some_iff.mp hrun
  refine ⟨c, hc, he, get_answers_started_crashing (by decide) _ 1 _ ?_ (by decide +kernel) hc _
    _ _ _ he⟩
  simp [flushedCrash, crashed, putWhole, flushWhole, go, Step.Small, Move.Small, Op.Small, pageSize]

/-- The log buffer is lost with the value, and its place in the log goes to the
next value of the partition. -/
theorem get_answers_foreign_bytes :
    ((putWhole [7] [1] ++ crashed).foldlM (step ⟨32768, 0⟩)
        (openClients ⟨32768, 0⟩ (fun _ _ => 0) 1)).map Config.events =
      some [.start [7] [1], .start [1] [2], .answer [7] (.ok [2])] := by
  decide +kernel

end WiscKey.CrashRecovery
