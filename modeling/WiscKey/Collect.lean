import WiscKey.LogHistory
import WiscKey.Database

namespace WiscKey.Collect

open WiscKey.ValueLog WiscKey.LogHistory WiscKey.Hash WiscKey.Database

/-- Conversion to `int`. Sums of `int`s are taken to wrap around too. -/
def int32 (x : Int) : Int := x.bmod (2 ^ 32)

def uint64 (x : Int) : Int := x % 2 ^ 64

/-- The loop that hands out the jobs of a partition as `job_start_idx` and
`jSize`, by the number of workers still to be started. The last worker takes
what remains. -/
def jobs (jobSize : Int) : Nat → Int → Int → List (Int × Int)
  | 0, _, _ => []
  | 1, start, remain => [(start, int32 remain)]
  | n + 2, start, remain =>
    (start, jobSize) ::
      jobs jobSize (n + 1) (int32 (start + jobSize)) (uint64 (remain - jobSize))

/-- A thread in the loop of `vLogGCWorker`. It has a pending index entry
between its append and its index write. -/
structure Worker where
  i : Int
  stop : Int
  pending : Option (Key × Record)

def Worker.finished (w : Worker) : Bool := w.pending.isNone && !decide (w.i < w.stop)

def spawn (threads keys : Nat) : List Worker :=
  (jobs (int32 (keys / threads)) threads 0 keys).map
    (fun j => { i := j.1, stop := int32 (j.1 + j.2), pending := none })

/-- What is read up front: the entries of the index by partition, in the order
of the index, and the renamed log files. -/
structure Snapshot where
  keys : Fin 4 → List (Key × Record)
  files : Fin 4 → List UInt8

def snapshot (s : State) : Snapshot where
  keys := fun p => s.index.toList.filter (fun e => partition e.1 = p)
  files := fun p => (s.logs p).flush.file

/-- A garbage collection under way. The head of `parts` is the partition whose
workers are running; `moved` notes the entries whose values were appended. -/
structure Gc where
  parts : List (Fin 4)
  index : Index
  sessions : Fin 4 → Session
  workers : List Worker
  moved : Fin 4 → List (Key × Record)

def newSession (l : VLog) : Session where
  log := { l.flush with file := [], lba := 0 }
  accesses := []
  appends := []

def gcStart (threads : Nat) (s : State) : Gc where
  parts := [0, 1, 2, 3]
  index := s.index
  sessions := fun p => newSession (s.logs p)
  workers := spawn threads ((snapshot s).keys 0).length
  moved := fun _ => []

def keyAt (keys : List (Key × Record)) (i : Int) : Option (Key × Record) :=
  if 0 ≤ i then keys[i.toNat]? else none

def moveStep (o : Options) (snap : Snapshot) (p : Fin 4) (g : Gc) (j : Nat) (w : Worker)
    (e : Key × Record) : Gc :=
  let v := cut (alignedRead (snap.files p) e.2) e.2
  let off := ((g.sessions p).log.append o.logBufSize v).2
  { g with
    sessions := Function.update g.sessions p ((g.sessions p).append o.logBufSize v)
    moved := Function.update g.moved p (g.moved p ++ [e])
    workers := g.workers.set j { w with pending := some (e.1, ⟨off, e.2.size⟩) } }

def placeStep (g : Gc) (j : Nat) (w : Worker) (e : Key × Record) : Gc :=
  { g with
    index := g.index.insert e.1 e.2
    workers := g.workers.set j { w with i := int32 (w.i + 1), pending := none } }

/-- The next step of one worker. There is none for a worker that is finished
or reads its key list out of bounds. -/
def workerStep (o : Options) (snap : Snapshot) (p : Fin 4) (g : Gc) (j : Nat) : Option Gc :=
  g.workers[j]?.bind fun w =>
    match w.pending with
    | some e => some (placeStep g j w e)
    | none =>
      if w.i < w.stop then (keyAt (snap.keys p) w.i).map (moveStep o snap p g j w) else none

def nextWorkers (threads : Nat) (snap : Snapshot) : List (Fin 4) → List Worker
  | [] => []
  | p :: _ => spawn threads (snap.keys p).length

inductive Event where
  | worker (j : Nat)
  | join

def gcStep (o : Options) (threads : Nat) (snap : Snapshot) (g : Gc) (e : Event) : Option Gc :=
  match g.parts, e with
  | [], _ => none
  | p :: _, .worker j => workerStep o snap p g j
  | _ :: ps, .join =>
    if g.workers.all Worker.finished then
      some { g with parts := ps, workers := nextWorkers threads snap ps }
    else none

/-- The threads take their steps in the order of the events. -/
def gcRun (o : Options) (threads : Nat) (s : State) (events : List Event) : Option Gc :=
  events.foldlM (gcStep o threads (snapshot s)) (gcStart threads s)

def gcFinish (o : Options) (g : Gc) : State where
  index := g.index
  logs := fun p => (g.sessions p).flush.log
  buffers := fun _ => newBuffer o
  cache := newDataCache o

/-- A whole call of `vLogGarbageCollect`, if the events let it return. -/
def vLogGarbageCollect (o : Options) (threads : Nat) (s : State) (events : List Event) :
    Option State :=
  (gcRun o threads s events).bind fun g => if g.parts = [] then some (gcFinish o g) else none

end WiscKey.Collect
