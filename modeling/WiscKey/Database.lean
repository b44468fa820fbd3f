import WiscKey.ValueLog
import WiscKey.ShardedCache
import WiscKey.Maps

namespace WiscKey.Database

open WiscKey.Bytes WiscKey.ValueLog WiscKey.Hash WiscKey.ShardedCache

abbrev Key := List UInt8
abbrev Value := List UInt8

structure Options where
  logBufSize : UInt64
  dataCacheSize : Int

/-- The value of an index entry: where in the log the bytes are. -/
structure Record where
  offset : Nat
  size : Nat
deriving DecidableEq

/-- RocksDB, as an ordered map from keys to records. -/
abbrev Index := Std.ExtTreeMap Key Record

structure State where
  index : Index
  logs : Fin 4 → VLog
  buffers : Fin 4 → Cache
  cache : Option Cache

inductive Answer where
  | ok (v : Value)
  | notFound
deriving DecidableEq

/-- A write buffer is twice the log buffer of its partition and a bit more. -/
def newBuffer (o : Options) : Cache := newFIFOCache (bufSize o.logBufSize * 2 + 16384) 2

def newDataCache (o : Options) : Option Cache :=
  if 0 < o.dataCacheSize then some (newLRUCache (o.dataCacheSize.toNat <<< 20)) else none

def openFresh (o : Options) (mem : Fin 4 → Nat → UInt8) : State where
  index := ∅
  logs := fun i => VLog.openLog o.logBufSize [] (mem i)
  buffers := fun _ => newBuffer o
  cache := newDataCache o

def State.buffer (s : State) (k : Key) : Cache := s.buffers (partition k)

def State.log (s : State) (k : Key) : VLog := s.logs (partition k)

def State.setBuffer (s : State) (k : Key) (c : Cache) : State :=
  { s with buffers := Function.update s.buffers (partition k) c }

def State.setLog (s : State) (k : Key) (l : VLog) : State :=
  { s with logs := Function.update s.logs (partition k) l }

/-- `insert_cache` followed by `release_cache_entry`. -/
def State.fillCache (s : State) (k : Key) (v : Value) : State :=
  { s with cache := s.cache.map (fun c => c.insertRelease k v) }

/-- `read_cache` and, on a hit, `release_cache_entry`. -/
def State.readCache (s : State) (k : Key) : State × Option Value :=
  match s.cache with
  | none => (s, none)
  | some c => ({ s with cache := some (c.read k).1 }, (c.read k).2)

def State.eraseCacheEntry (s : State) (k : Key) : State :=
  { s with cache := s.cache.map (fun c => c.erase k) }

/-- `insert_buffer` followed by `release_buffer_entry`. -/
def State.fillBuffer (s : State) (k : Key) (v : Value) : State :=
  s.setBuffer k ((s.buffer k).insertRelease k v)

def State.readBuffer (s : State) (k : Key) : State × Option Value :=
  (s.setBuffer k ((s.buffer k).read k).1, ((s.buffer k).read k).2)

def State.eraseBufferEntry (s : State) (k : Key) : State := s.setBuffer k ((s.buffer k).erase k)

/-- The locked block of `Put` on the partition of a key. -/
def State.appendLog (o : Options) (s : State) (k : Key) (v : Value) : State × Nat :=
  (s.setLog k ((s.log k).append o.logBufSize v).1, ((s.log k).append o.logBufSize v).2)

def State.putIndex (s : State) (k : Key) (r : Record) : State :=
  { s with index := s.index.insert k r }

def State.deleteIndex (s : State) (k : Key) : State := { s with index := s.index.erase k }

/-- The whole pages around a record, as far as the file has them. -/
def alignedRead (file : List UInt8) (r : Record) : List UInt8 :=
  let aligned := roundDown r.offset pageSize
  slice file aligned (roundUp (r.offset - aligned + r.size) pageSize)

def cut (data : List UInt8) (r : Record) : Value :=
  slice data (r.offset - roundDown r.offset pageSize) r.size

/-- The `pread` of `Get`. It fails when nothing at all can be read. -/
def readLog (file : List UInt8) (r : Record) : Option Value :=
  let data := alignedRead file r
  if data.length = 0 then none else some (cut data r)

def put (o : Options) (s : State) (k : Key) (v : Value) : State :=
  let r := ((s.fillCache k v).fillBuffer k v).appendLog o k v
  r.1.putIndex k ⟨r.2, v.length⟩

def delete (s : State) (k : Key) : State :=
  ((s.eraseCacheEntry k).eraseBufferEntry k).deleteIndex k

/-- The part of `Get` behind a write buffer miss. The retries read the same
file again, so that they fail when the first read did. -/
def getFromLog (s : State) (k : Key) (r : Record) : State × Answer :=
  match readLog (s.log k).file r with
  | none => (s, .notFound)
  | some v => (s.fillCache k v, .ok v)

def getFromBuffer (s : State) (k : Key) (r : Record) : State × Answer :=
  match s.readBuffer k with
  | (s, some v) => (s, .ok v)
  | (s, none) => getFromLog s k r

/-- `Get` with an empty output string. -/
def get (s : State) (k : Key) : State × Answer :=
  match s.readCache k with
  | (s, some v) => (s, .ok v)
  | (s, none) =>
    match s.index[k]? with
    | none => (s, .notFound)
    | some r => getFromBuffer s k r

def flushVLog (s : State) : State := { s with logs := fun i => (s.logs i).flush }

/-- The destructor followed by the constructor on the same directory. -/
def reopen (o : Options) (s : State) (mem : Fin 4 → Nat → UInt8) : State where
  index := s.index
  logs := fun i => (s.logs i).reopen o.logBufSize (mem i)
  buffers := fun _ => newBuffer o
  cache := newDataCache o

end WiscKey.Database
