import WiscKey.NewDb.Collect

namespace WiscKey.NewDb.Concurrent

open WiscKey.Vectors WiscKey.NewDb.Model WiscKey.NewDb.Collect

inductive Call where
  | put (k : Key) (v : Value)
  | delete (k : Key)
  | get (k : Key)
deriving DecidableEq

inductive Result where
  | ok
  | ioError
  | notFound
  | value (v : Value)
deriving DecidableEq

inductive Event where
  | start (j : Nat) (call : Call)
  | finish (j : Nat) (call : Call) (result : Result)
deriving DecidableEq

/-- Where a client is: the step of the call it does next, with the local
variables it needs from there on. -/
inductive Pc where
  | idle
  | putRead (k : Key) (v : Value) (retries : Nat)
  | putPush (k : Key) (v : Value) (p : UInt64)
  | putDraw (k : Key) (v : Value)
  | putKey (k : Key) (v : Value) (p : UInt64)
  | putValue (k : Key) (v : Value) (p : UInt64)
  | deleteKey (k : Key)
  | getKey (k : Key)
  | getValue (k : Key) (p : UInt64)
deriving DecidableEq

def Pc.call : Pc → Option Call
  | .idle => none
  | .putRead k v _ | .putPush k v _ | .putDraw k v | .putKey k v _ | .putValue k v _ =>
    some (.put k v)
  | .deleteKey k => some (.delete k)
  | .getKey k | .getValue k _ => some (.get k)

/-- The first step of a call. A `Put` reads `keydb_` up to five times. -/
def begin : Call → Pc
  | .put k v => .putRead k v 4
  | .delete k => .deleteKey k
  | .get k => .getKey k

/-- The next step of a client, where a write of RocksDB succeeds or fails. There
is none for an idle client, nor for a physical value that cannot be built. -/
def next (s : State) (ok : Bool) : Pc → Option (State × Pc × Option Result)
  | .idle => none
  | .putRead k v retries =>
    match s.keydb[k]?, retries with
    | some p, _ => some (s, .putPush k v p, none)
    | none, 0 => some (s, .putDraw k v, none)
    | none, retries + 1 => some (s, .putRead k v retries, none)
  | .putPush k v p => some (s.collectOld (some p), .putDraw k v, none)
  | .putDraw k v => some (s.getNewSeq.1, .putKey k v s.getNewSeq.2, none)
  | .putKey k v p =>
    if ok then some (s.putKey k p, .putValue k v p, none) else some (s, .idle, some .ioError)
  | .putValue k v p =>
    if Fits k v then
      if ok then some (s.putValue p (encode k v), .idle, some .ok)
      else some (s, .idle, some .ioError)
    else none
  | .deleteKey k => some (if ok then s.deleteKey k else s, .idle, some .ok)
  | .getKey k =>
    match s.keydb[k]? with
    | some p => some (s, .getValue k p, none)
    | none => some (s, .idle, some .notFound)
  | .getValue _ p =>
    match s.valuedb[p]? with
    | some pval => some (s, .idle, some (.value (decode pval)))
    | none => some (s, .idle, some .notFound)

/-- A call of `vLogGCWorker`: how many keys its iterators span, whether a push
has moved the vector since, the files still to visit once they were reported,
and the variables of its loop. -/
structure Worker where
  keys : Nat
  stale : Bool
  files : Option (List GCMetadata)
  loop : Loop

/-- The database with its clients and at most one collection. The capacity is
that of `phy_keys_for_gc`; `drawn` has the `Put` of every sequence number. -/
structure Config where
  state : State
  capacity : Nat
  clients : List Pc
  gc : Option Worker
  drawn : List (Key × Value)
  events : List Event

inductive Move where
  | call (j : Nat) (call : Call)
  | go (j : Nat) (ok : Bool)
  | gcSort
  | gcMeasure (levels : List Level)
  | gcVisit (compactFiles : CompactFiles)
  | gcErase

def draws : Pc → List (Key × Value)
  | .putDraw k v => [(k, v)]
  | _ => []

def finishes (j : Nat) (pc : Pc) (result : Option Result) : List Event :=
  match pc.call, result with
  | some call, some r => [.finish j call r]
  | _, _ => []

/-- A push on a full vector moves its elements, and iterators dangle. -/
def makeRoom (c : Config) : Pc → Config
  | .putPush _ _ _ =>
    if c.state.phyKeysForGc.length = c.capacity then
      { c with
        capacity := max 1 (2 * c.capacity)
        gc := c.gc.map fun w => { w with stale := true } }
    else c
  | _ => c

/-- The keys between the iterators of a collection. There are none to read
through dangling iterators. -/
def gcKeys (c : Config) (w : Worker) : Option (List UInt64) :=
  if w.stale ∧ w.keys ≠ 0 then none else some (c.state.phyKeysForGc.take w.keys)

def gcMove (c : Config) (w : Worker) : Move → Option Config
  | .gcMeasure levels =>
    match w.files with
    | none => do
      let keys ← gcKeys c w
      let files ← inputFiles keys levels
      return { c with gc := some { w with files := some files } }
    | some _ => none
  | .gcVisit compactFiles =>
    match w.files with
    | some (f :: files) =>
      if f.readyForGc then do
        let keys ← gcKeys c w
        return { c with gc := some { w with files := some files, loop := w.loop.gather keys f } }
      else some
        { c with
          state := { c.state with valuedb := w.loop.compact compactFiles c.state.valuedb }
          gc := some { w with files := some files, loop := w.loop.clear } }
    | _ => none
  | .gcErase =>
    match w.files with
    | some [] =>
      if w.stale ∧ w.loop.deletionKeys ≠ [] then none
      else do
        let rest ← eraseRanges c.state.phyKeysForGc w.loop.deletionKeys
        return { c with state := { c.state with phyKeysForGc := rest }, gc := none }
    | _ => none
  | _ => none

def move (c : Config) : Move → Option Config
  | .call j call =>
    match c.clients[j]? with
    | some .idle =>
      some { c with
        clients := c.clients.set j (begin call)
        events := c.events ++ [.start j call] }
    | _ => none
  | .go j ok => do
    let pc ← c.clients[j]?
    let (s, pc', result) ← next c.state ok pc
    return { makeRoom c pc with
      state := s
      clients := c.clients.set j pc'
      drawn := c.drawn ++ draws pc
      events := c.events ++ finishes j pc result }
  | .gcSort =>
    match c.gc with
    | none =>
      some { c with
        state := { c.state with phyKeysForGc := sortedKeys c.state.phyKeysForGc }
        gc := some ⟨c.state.phyKeysForGc.length, false, none, Loop.start⟩ }
    | some _ => none
  | m => c.gc.bind fun w => gcMove c w m

def openClients (n : Nat) : Config where
  state := openFresh
  capacity := 0
  clients := List.replicate n .idle
  gc := none
  drawn := []
  events := []

end WiscKey.NewDb.Concurrent
