import WiscKey.Evict

namespace WiscKey.CacheShard

open WiscKey.Evict

/-- The two shard classes are the same code except for `Lookup`. -/
inductive Policy where
  | lru
  | fifo
deriving DecidableEq

/-- `LRUHandle` and `FIFOHandle`. A handle keeps the address it was allocated
at, and addresses are not used twice. -/
structure Handle (ν : Type) where
  ptr : Nat
  key : List UInt8
  hash : UInt32
  value : ν
  charge : Nat
  refs : Nat
  inCache : Bool
deriving DecidableEq

structure Slot where
  key : List UInt8
  hash : UInt32
  ptr : Nat
deriving DecidableEq

variable {ν : Type}

def sizeofHandle : Nat := 72

/-- `CalcTotalCharge`, with the size of a handle on a 64-bit machine. -/
def Handle.totalCharge (h : Handle ν) : Nat := h.charge + sizeofHandle - 1 + h.key.length

def Handle.hasRefs (h : Handle ν) : Bool := decide (0 < h.refs)

def Handle.ref (h : Handle ν) : Handle ν := { h with refs := h.refs + 1 }

def Handle.unref (h : Handle ν) : Handle ν := { h with refs := h.refs - 1 }

def Handle.setErased (h : Handle ν) : Handle ν := { h with inCache := false }

def Handle.slot (h : Handle ν) : Slot := ⟨h.key, h.hash, h.ptr⟩

def Slot.isFor (key : List UInt8) (hash : UInt32) (e : Slot) : Bool :=
  decide (e.hash = hash ∧ e.key = key)

/-- A cache shard. The circular list runs from `lru_.next` to `lru_.prev`, the
table is the set of handles it points to, and `freed` lists the handles passed
to `Free` in order. -/
structure Shard (ν : Type) where
  capacity : Nat
  usage : Nat
  list : List (Handle ν)
  table : List Slot
  nextPtr : Nat
  freed : List Nat
deriving DecidableEq

def Shard.new (capacity : Nat) : Shard ν :=
  { capacity := capacity, usage := 0, list := [], table := [], nextPtr := 0, freed := [] }

def Shard.setCapacity (s : Shard ν) (capacity : Nat) : Shard ν := { s with capacity := capacity }

/-- `FindPointer` of the handle table. -/
def Shard.find (s : Shard ν) (key : List UInt8) (hash : UInt32) : Option Nat :=
  (s.table.find? (Slot.isFor key hash)).map Slot.ptr

def Shard.handle (s : Shard ν) (p : Nat) : Option (Handle ν) :=
  s.list.find? (fun h => decide (h.ptr = p))

def Shard.value (s : Shard ν) (p : Nat) : Option ν := (s.handle p).map Handle.value

def Shard.modify (s : Shard ν) (p : Nat) (f : Handle ν → Handle ν) : Shard ν :=
  { s with list := s.list.map (fun h => if h.ptr = p then f h else h) }

def Shard.discard (s : Shard ν) (p : Nat) : Shard ν :=
  { s with
    list := s.list.filter (fun h => decide (h.ptr ≠ p))
    usage := s.usage - total Handle.totalCharge (s.list.filter (fun h => decide (h.ptr = p)))
    freed := s.freed ++ [p] }

def Shard.toBack (s : Shard ν) (p : Nat) : Shard ν :=
  { s with
    list := s.list.filter (fun h => decide (h.ptr ≠ p)) ++
      s.list.filter (fun h => decide (h.ptr = p)) }

def Shard.unlink (table : List Slot) (h : Handle ν) : List Slot :=
  table.eraseP (Slot.isFor h.key h.hash)

/-- `EvictFromLRU` and `EvictFromFIFO`. -/
def Shard.evictFrom (s : Shard ν) (charge : Nat) : Shard ν :=
  let r := evict Handle.totalCharge Handle.hasRefs s.capacity charge s.usage s.list
  { s with
    list := r.1
    usage := s.usage - total Handle.totalCharge r.2
    table := r.2.foldl Shard.unlink s.table
    freed := s.freed ++ r.2.map Handle.ptr }

def Shard.makeRoom (s : Shard ν) (charge : Nat) : Shard ν :=
  if s.usage + charge > s.capacity then s.evictFrom charge else s

def Shard.alloc (s : Shard ν) (key : List UInt8) (hash : UInt32) (value : ν) (charge : Nat) :
    Handle ν :=
  ⟨s.nextPtr, key, hash, value, charge, 0, true⟩

/-- `Insert`. A key that is present keeps its old entry, and the new handle is
freed at once. -/
def Shard.insert (s : Shard ν) (key : List UInt8) (hash : UInt32) (value : ν) (charge : Nat) :
    Shard ν × Nat :=
  let h := s.alloc key hash value charge
  let r := { s.makeRoom h.totalCharge with nextPtr := s.nextPtr + 1 }
  match r.find key hash with
  | some p => ({ r.modify p Handle.ref with freed := r.freed ++ [h.ptr] }, p)
  | none =>
    ({ r with
        list := r.list ++ [h.ref], table := h.slot :: r.table, usage := r.usage + h.totalCharge },
      h.ptr)

/-- `Lookup`. Only the LRU shard moves the entry to the back of its list. -/
def Shard.lookup (policy : Policy) (s : Shard ν) (key : List UInt8) (hash : UInt32) :
    Shard ν × Option Nat :=
  match s.find key hash with
  | some p => ((if policy = .lru then s.toBack p else s).modify p Handle.ref, some p)
  | none => (s, none)

def Shard.release (s : Shard ν) (p : Nat) : Shard ν :=
  let r := s.modify p Handle.unref
  match r.handle p with
  | some h => if h.refs = 0 ∧ h.inCache = false then r.discard p else r
  | none => r

def Shard.erase (s : Shard ν) (key : List UInt8) (hash : UInt32) : Shard ν × Bool :=
  match s.find key hash with
  | some p =>
    let r := { s with table := s.table.eraseP (Slot.isFor key hash) }.modify p Handle.setErased
    match r.handle p with
    | some h => (if h.hasRefs then r else r.discard p, true)
    | none => (r, true)
  | none => (s, false)

def Shard.insertRelease (s : Shard ν) (key : List UInt8) (hash : UInt32) (value : ν)
    (charge : Nat) : Shard ν :=
  (s.insert key hash value charge).1.release (s.insert key hash value charge).2

def Shard.read (policy : Policy) (s : Shard ν) (key : List UInt8) (hash : UInt32) :
    Shard ν × Option ν :=
  match s.lookup policy key hash with
  | (r, some p) => (r.release p, r.value p)
  | (r, none) => (r, none)

end WiscKey.CacheShard
