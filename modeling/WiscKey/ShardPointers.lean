import WiscKey.Circles
import WiscKey.HandleTableRuns
import WiscKey.ShardRuns

namespace WiscKey.ShardPointers

open WiscKey.Circles WiscKey.CacheShard WiscKey.HandleTable WiscKey.ShardWords
open WiscKey.ShardRuns (Op)

variable {ν : Type}

/-- `LRUCacheShard` and `FIFOCacheShard` as they are in memory. A node of the
circular list is the address of a handle, or `none` for the dummy head `lru_`.
The handles that are allocated are in the heap. -/
structure Memory (ν : Type) where
  capacity : Nat
  usage : Nat
  lru : Circle (Option Nat)
  table : Table
  heap : Nat → Option (Handle ν)
  nextPtr : Nat
  freed : List Nat

/-- The constructor, with the rounds that a walk may take here and below. -/
def Memory.new (fuel capacity : Nat) : Option (Memory ν) := do
  let table ← Table.new fuel
  return ⟨capacity, 0, Circle.single none, table, fun _ => none, 0, []⟩

/-- Nothing but the dummy head and allocated handles may be read or written. -/
def Memory.alive (m : Memory ν) : Option Nat → Bool
  | none => true
  | some p => (m.heap p).isSome

/-- `new char[...]` of a handle whose links are null. -/
def Memory.alloc (m : Memory ν) (h : Handle ν) : Memory ν :=
  { m with
    lru := m.lru.detach (some h.ptr)
    heap := Function.update m.heap h.ptr (some h)
    nextPtr := m.nextPtr + 1 }

def Memory.modify (m : Memory ν) (p : Nat) (f : Handle ν → Handle ν) : Option (Memory ν) := do
  let h ← m.heap p
  return { m with heap := Function.update m.heap p (some (f h)) }

def Memory.free (m : Memory ν) (p : Nat) : Option (Memory ν) := do
  let _ ← m.heap p
  return { m with heap := Function.update m.heap p none, freed := m.freed ++ [p] }

/-- `LRU_Remove` and `FIFO_Remove`. -/
def Memory.lruRemove (m : Memory ν) (p : Nat) : Option (Memory ν) := do
  let lru ← m.lru.remove m.alive (some p)
  return { m with lru := lru }

/-- `LRU_Insert` and `FIFO_Insert`. -/
def Memory.lruInsert (m : Memory ν) (p : Nat) : Option (Memory ν) := do
  let lru ← m.lru.insertLast m.alive none (some p)
  return { m with lru := lru }

/-- The loop of `EvictFromLRU` and `EvictFromFIFO` from a node on. -/
def Memory.evictLoop (fuel charge : Nat) :
    Nat → Option Nat → Memory ν → List Nat → Option (Memory ν × List Nat)
  | 0, _, _, _ => none
  | _ + 1, none, m, deleted => some (m, deleted)
  | n + 1, some p, m, deleted =>
    if (m.usage + charge) % sizes ≤ m.capacity then some (m, deleted)
    else do
      let h ← m.heap p
      let next ← m.lru.next (some p)
      if h.hasRefs then evictLoop fuel charge n next m deleted
      else
        let (table, _) ← m.table.remove fuel h.key h.hash
        let m ← { m with table := table }.lruRemove p
        evictLoop fuel charge n next { m with usage := subSize m.usage (chargeWord h) }
          (deleted ++ [p])

def Memory.evictFrom (fuel : Nat) (m : Memory ν) (charge : Nat) :
    Option (Memory ν × List Nat) := do
  let h ← m.lru.next none
  evictLoop fuel charge fuel h m []

def Memory.makeRoom (fuel : Nat) (m : Memory ν) (charge : Nat) :
    Option (Memory ν × List Nat) :=
  if (m.usage + charge) % sizes > m.capacity then m.evictFrom fuel charge else some (m, [])

def Memory.fresh (m : Memory ν) (key : List UInt8) (hash : UInt32) (value : ν) (charge : Nat) :
    Handle ν :=
  ⟨m.nextPtr, key, hash, value, charge, 0, true⟩

/-- `Insert` after the eviction. What was evicted, and a handle whose key is
present, is freed last. -/
def Memory.place (fuel : Nat) (m : Memory ν) (h : Handle ν) (deleted : List Nat) :
    Option (Memory ν × Nat) := do
  let (table, old) ← m.table.insert fuel h.slot
  let m := { m with table := table }
  if old.ptr ≠ h.ptr then
    let m ← m.modify old.ptr ref
    let m ← (deleted ++ [h.ptr]).foldlM Memory.free m
    return (m, old.ptr)
  else
    let m ← m.lruInsert h.ptr
    let m ← m.modify h.ptr ref
    let m ← deleted.foldlM Memory.free { m with usage := (m.usage + chargeWord h) % sizes }
    return (m, h.ptr)

def Memory.insert (fuel : Nat) (m : Memory ν) (key : List UInt8) (hash : UInt32) (value : ν)
    (charge : Nat) : Option (Memory ν × Nat) := do
  let h := m.fresh key hash value charge
  let (m, deleted) ← (m.alloc h).makeRoom fuel (chargeWord h)
  m.place fuel h deleted

def Memory.lookup (policy : Policy) (fuel : Nat) (m : Memory ν) (key : List UInt8)
    (hash : UInt32) : Option (Memory ν × Option Nat) := do
  match ← m.table.lookup fuel key hash with
  | none => return (m, none)
  | some e =>
    let m ← if policy = .lru then (m.lruRemove e.ptr).bind fun m => m.lruInsert e.ptr else some m
    let m ← m.modify e.ptr ref
    return (m, some e.ptr)

def Memory.discard (m : Memory ν) (h : Handle ν) : Option (Memory ν) := do
  let m ← m.lruRemove h.ptr
  { m with usage := subSize m.usage (chargeWord h) }.free h.ptr

def Memory.release (m : Memory ν) (p : Nat) : Option (Memory ν) := do
  let m ← m.modify p unref
  let h ← m.heap p
  if h.refs = 0 ∧ h.inCache = false then m.discard h else return m

def Memory.erase (fuel : Nat) (m : Memory ν) (key : List UInt8) (hash : UInt32) :
    Option (Memory ν × Bool) := do
  match ← m.table.remove fuel key hash with
  | (_, none) => return (m, false)
  | (table, some e) =>
    let m ← { m with table := table }.modify e.ptr Handle.setErased
    let h ← m.heap e.ptr
    let m ← if h.hasRefs then some m else m.discard h
    return (m, true)

/-- The handles of a bucket, each freed after its `next_hash` was read. -/
def Memory.freeChain : Nat → Option Slot → Memory ν → Option (Memory ν)
  | _, none, m => some m
  | 0, some _, _ => none
  | n + 1, some e, m => (m.free e.ptr).bind (freeChain n (m.table.links.next e))

/-- The destructor, which is that of the table. -/
def Memory.destroy (fuel : Nat) (m : Memory ν) : Option (Memory ν) :=
  m.table.buckets.foldlM (fun m b => freeChain fuel (m.table.links.heads b) m) m

structure Session (ν : Type) where
  memory : Memory ν
  held : List Nat

def start (fuel : Nat) (capacity : UInt64) : Option (Session ν) := do
  let m ← Memory.new fuel capacity.toNat
  return ⟨m, []⟩

def step (fuel : Nat) (policy : Policy) (hash : List UInt8 → UInt32) (c : Session ν) :
    Op ν → Option (Session ν)
  | .insert key value charge => do
    let (m, p) ← c.memory.insert fuel key (hash key) value charge.toNat
    return ⟨m, p :: c.held⟩
  | .lookup key => do
    let (m, p) ← c.memory.lookup policy fuel key (hash key)
    return ⟨m, p.toList ++ c.held⟩
  | .erase key => do
    let (m, _) ← c.memory.erase fuel key (hash key)
    return ⟨m, c.held⟩
  | .setCapacity capacity =>
    some { c with memory := { c.memory with capacity := capacity.toNat } }
  | .release p =>
    if p ∈ c.held then do
      let m ← c.memory.release p
      return ⟨m, c.held.erase p⟩
    else none

def run (fuel : Nat) (policy : Policy) (hash : List UInt8 → UInt32) (capacity : UInt64)
    (ops : List (Op ν)) : Option (Session ν) := do
  let c ← start fuel capacity
  ops.foldlM (step fuel policy hash) c

end WiscKey.ShardPointers
