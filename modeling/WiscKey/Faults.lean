import WiscKey.Attempts
import WiscKey.DiskRead

namespace WiscKey.Faults

open WiscKey.ValueLog WiscKey.Bytes WiscKey.Database WiscKey.Collect

/-- What goes wrong below one `Get`. An attempt to read the index may fail, and a
`pread` may return `-1` or deliver no more than some count. -/
structure Reads where
  index : Nat → Bool
  pread : Nat → Option Nat
  mem : Nat → UInt8

/-- The attempts to read the index. A key that is not there is not `ok()` either. -/
def readIndex (record : Option Record) (ok : Nat → Bool) : Option Record :=
  if ok 0 ∧ record = none then none
  else if (Attempts.write fun i => ok i && record.isSome).acknowledged then record
  else none

def readSize (r : Record) : Nat :=
  roundUp (r.offset - roundDown r.offset pageSize + r.size) pageSize

def delivered (file : List UInt8) (r : Record) (pread : Nat → Option Nat) (i : Nat) :
    Option (List UInt8) :=
  (pread i).map fun n => (alignedRead file r).take n

/-- The loop around `pread`, with the number of attempts whose result counts. As
the result is unsigned, only a zero is tried again. -/
def preadLoop (read : Nat → Option (List UInt8)) : Nat → Nat → Option (Option (List UInt8))
  | 0, _ => none
  | n + 1, i => if read i = some [] then preadLoop read n (i + 1) else some (read i)

def readBuf (r : Record) (mem : Nat → UInt8) (data : List UInt8) : List UInt8 :=
  data ++ ((List.range (readSize r)).map mem).drop data.length

/-- There is no result when the size of the read is not an `int`. -/
def getFromDisk (s : State) (k : Key) (r : Record) (out : Value) (f : Reads) :
    Option (State × Answer) :=
  if readSize r < 2 ^ 31 then
    match preadLoop (delivered (s.log k).file r f.pread) 3 0 with
    | none => some (s, .notFound)
    | some data =>
      let v := cut (readBuf r f.mem (data.getD [])) r
      some (s.fillCache k (out ++ v), .ok (out ++ v))
  else none

def getFaulty (s : State) (k : Key) (out : Value) (f : Reads) : Option (State × Answer) :=
  match s.readCache k with
  | (s, some v) => some (s, .ok (out ++ v))
  | (s, none) =>
    match readIndex s.index[k]? f.index with
    | none => some (s, .notFound)
    | some r =>
      match s.readBuffer k with
      | (s, some v) => some (s, .ok (out ++ v))
      | (s, none) => getFromDisk s k r out f

/-- What goes wrong below one `Put`. An attempt to write the index may fail, and a
`pwrite` writes no more than some count. -/
structure Writes where
  index : Nat → Bool
  pwrite : Nat

/-- `writeOut` with a `pwrite` that may be short. Its result is not looked at, so
that `lba_` moves on by all that was asked for. -/
def writeOutShort (l : VLog) (count : Nat) : VLog :=
  let n := roundUp l.bufOffset pageSize
  { l with file := l.file ++ (l.buf.take n).take count, lba := l.lba + n, bufOffset := 0 }

def appendShort (logBufSize : UInt64) (l : VLog) (v : Value) (count : Nat) : VLog × Nat :=
  let l' := l.copyIn v
  (if flushThreshold logBufSize ≤ l'.bufOffset then writeOutShort l' count else l',
    l.lba + l.bufOffset)

def flushShort (l : VLog) (count : Nat) : VLog :=
  if l.bufOffset = 0 then l else writeOutShort l count

/-- `Put` with any faults. The second component is whether it returns OK. -/
def putFaulty (o : Options) (s : State) (k : Key) (v : Value) (w : Writes) : State × Bool :=
  let s := (s.fillCache k v).fillBuffer k v
  let r := appendShort o.logBufSize (s.log k) v w.pwrite
  let index := Attempts.write w.index
  let s := s.setLog k r.1
  (if index.applied then s.putIndex k ⟨r.2, v.length⟩ else s, index.acknowledged)

/-- `Delete`, which returns OK whether or not the entry was deleted. -/
def deleteFaulty (s : State) (k : Key) (ok : Bool) : State :=
  let s := (s.eraseCacheEntry k).eraseBufferEntry k
  if ok then s.deleteIndex k else s

def flushFaulty (s : State) (count : Fin 4 → Nat) : State :=
  { s with logs := fun i => flushShort (s.logs i) (count i) }

def reopenFaulty (o : Options) (s : State) (count : Fin 4 → Nat) (mem : Fin 4 → Nat → UInt8) :
    State where
  index := s.index
  logs := fun i => VLog.openLog o.logBufSize (flushShort (s.logs i) (count i)).file (mem i)
  buffers := fun _ => newBuffer o
  cache := newDataCache o

inductive Call where
  | put (k : Key) (v : Value) (w : Writes)
  | delete (k : Key) (ok : Bool)
  | get (k : Key) (out : Value) (f : Reads)
  | flush (count : Fin 4 → Nat)
  | reopen (count : Fin 4 → Nat) (mem : Fin 4 → Nat → UInt8)
  | collect (threads : Nat) (events : List Event)

def step (o : Options) (s : State) : Call → Option State
  | .put k v w => some (putFaulty o s k v w).1
  | .delete k ok => some (deleteFaulty s k ok)
  | .get k out f => (getFaulty s k out f).map Prod.fst
  | .flush count => some (flushFaulty s count)
  | .reopen count mem => some (reopenFaulty o s count mem)
  | .collect threads events => vLogGarbageCollect o threads s events

end WiscKey.Faults
