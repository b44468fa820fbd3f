import WiscKey.Sequential

namespace WiscKey.Concurrent

open WiscKey.ValueLog WiscKey.Hash WiscKey.ShardedCache WiscKey.Database WiscKey.Sequential

/-- The caches: `cache_` and the `write_buffer_` of each partition. -/
inductive Loc where
  | data
  | buffer (p : Fin 4)
deriving DecidableEq

def cacheAt (s : State) : Loc → Option Cache
  | .data => s.cache
  | .buffer p => some (s.buffers p)

def setCacheAt (s : State) (c : Cache) : Loc → State
  | .data => { s with cache := some c }
  | .buffer p => { s with buffers := Function.update s.buffers p c }

theorem setCacheAt_index (s : State) (c : Cache) (l : Loc) :
    (setCacheAt s c l).index = s.index := by
  cases l with
  | data | buffer p => rfl

/-- `insert_cache` and `insert_buffer`. -/
def insertAt (s : State) (l : Loc) (k : Key) (v : Value) : State × Option Ref :=
  match cacheAt s l with
  | none => (s, none)
  | some c => (setCacheAt s (c.insert k v).1 l, some (c.insert k v).2)

def lookupAt (s : State) (l : Loc) (k : Key) : State × Option Ref :=
  match cacheAt s l with
  | none => (s, none)
  | some c => (setCacheAt s (c.lookup k).1 l, (c.lookup k).2)

/-- The read through the handle in `read_cache` and `read_buffer`. There is
no value if the handle was freed. -/
def valueAt (s : State) (l : Loc) (h : Ref) : Option Value :=
  (cacheAt s l).bind (fun c => c.value h)

/-- `release_cache_entry` and `release_buffer_entry`. -/
def releaseAt (s : State) (l : Loc) (h : Option Ref) : State :=
  match cacheAt s l, h with
  | some c, some h => setCacheAt s (c.release h) l
  | _, _ => s

/-- `erase_cache_entry` and `erase_buffer_entry`. -/
def eraseAt (s : State) (l : Loc) (k : Key) : State :=
  match cacheAt s l with
  | none => s
  | some c => setCacheAt s (c.erase k) l

/-- Where a client is: the step of the call it does next, with the local
variables it needs from there on. -/
inductive Pc where
  | idle
  | putInsert (l : Loc) (k : Key) (v : Value)
  | putRelease (l : Loc) (k : Key) (v : Value) (h : Option Ref)
  | putLog (k : Key) (v : Value)
  | putIndex (k : Key) (v : Value) (lba : Nat)
  | deleteErase (l : Loc) (k : Key)
  | deleteIndex (k : Key)
  | getCache (k : Key)
  | getIndex (k : Key)
  | getBuffer (k : Key) (r : Record)
  | getValue (l : Loc) (k : Key) (h : Ref)
  | getRelease (l : Loc) (k : Key) (h : Ref) (v : Value)
  | getLog (k : Key) (r : Record) (retries : Nat)
  | getInsert (k : Key) (v : Value)
  | getInsertRelease (k : Key) (v : Value) (h : Option Ref)
  | flush (ps : List (Fin 4))
deriving DecidableEq

inductive Event where
  | start (k : Key) (v : Value)
  | answer (k : Key) (a : Answer)
deriving DecidableEq

def bufferOf (k : Key) : Loc := .buffer (partition k)

def begin : Op → Pc × List Event
  | .put k v => (.putInsert .data k v, [.start k v])
  | .delete k => (.deleteErase .data k, [])
  | .get k => (.getCache k, [])
  | .flush => (.flush [0, 1, 2, 3], [])

/-- The next step of a client. There is none for an idle client, nor for one
that reads through a handle that was freed. The third retry of the `pread`
gives up whatever it reads. -/
def next (o : Options) (s : State) : Pc → Option (State × Pc × List Event)
  | .idle => none
  | .putInsert l k v => some ((insertAt s l k v).1, .putRelease l k v (insertAt s l k v).2, [])
  | .putRelease .data k v h => some (releaseAt s .data h, .putInsert (bufferOf k) k v, [])
  | .putRelease (.buffer p) k v h => some (releaseAt s (.buffer p) h, .putLog k v, [])
  | .putLog k v => some ((s.appendLog o k v).1, .putIndex k v (s.appendLog o k v).2, [])
  | .putIndex k v lba => some (s.putIndex k ⟨lba, v.length⟩, .idle, [])
  | .deleteErase .data k => some (eraseAt s .data k, .deleteErase (bufferOf k) k, [])
  | .deleteErase (.buffer p) k => some (eraseAt s (.buffer p) k, .deleteIndex k, [])
  | .deleteIndex k => some (s.deleteIndex k, .idle, [])
  | .getCache k =>
    match (lookupAt s .data k).2 with
    | some h => some ((lookupAt s .data k).1, .getValue .data k h, [])
    | none => some ((lookupAt s .data k).1, .getIndex k, [])
  | .getIndex k =>
    match s.index[k]? with
    | some r => some (s, .getBuffer k r, [])
    | none => some (s, .idle, [.answer k .notFound])
  | .getBuffer k r =>
    match (lookupAt s (bufferOf k) k).2 with
    | some h => some ((lookupAt s (bufferOf k) k).1, .getValue (bufferOf k) k h, [])
    | none => some ((lookupAt s (bufferOf k) k).1, .getLog k r 0, [])
  | .getValue l k h => (valueAt s l h).map fun v => (s, .getRelease l k h v, [])
  | .getRelease l k h v => some (releaseAt s l (some h), .idle, [.answer k (.ok v)])
  | .getLog k r retries =>
    if retries = 3 then some (s, .idle, [.answer k .notFound])
    else match readLog (s.log k).file r with
      | some v => some (s, .getInsert k v, [])
      | none => some (s, .getLog k r (retries + 1), [])
  | .getInsert k v =>
    some ((insertAt s .data k v).1, .getInsertRelease k v (insertAt s .data k v).2, [])
  | .getInsertRelease k v h => some (releaseAt s .data h, .idle, [.answer k (.ok v)])
  | .flush [] => some (s, .idle, [])
  | .flush (p :: ps) =>
    some ({ s with logs := Function.update s.logs p (s.logs p).flush }, .flush ps, [])

/-- The database, its clients and all that was seen from outside so far. -/
structure Config where
  state : State
  clients : List Pc
  events : List Event

inductive Move where
  | call (j : Nat) (op : Op)
  | go (j : Nat)

def Move.Small : Move → Prop
  | .call _ op => op.Small
  | .go _ => True

def move (o : Options) (c : Config) : Move → Option Config
  | .call j op =>
    match c.clients[j]? with
    | some .idle =>
      some { c with clients := c.clients.set j (begin op).1, events := c.events ++ (begin op).2 }
    | _ => none
  | .go j =>
    c.clients[j]?.bind fun pc => (next o c.state pc).map fun r =>
      { state := r.1, clients := c.clients.set j r.2.1, events := c.events ++ r.2.2 }

def openClients (o : Options) (mem : Fin 4 → Nat → UInt8) (n : Nat) : Config where
  state := openFresh o mem
  clients := List.replicate n .idle
  events := []

end WiscKey.Concurrent
