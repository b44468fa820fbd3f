import WiscKey.FrequencyList
import WiscKey.ShardWords

namespace WiscKey.LfuCache

open WiscKey.CacheShard WiscKey.FrequencyList
open WiscKey.ShardWords (sizes counts subSize ref unref)

/-- `LFUHandle`, which also points to the node it is filed under. -/
structure LfuHandle (ν : Type) extends Handle ν where
  parent : Option Nat
deriving DecidableEq

variable {ν : Type}

def sizeofLfuHandle : Nat := 80

def totalCharge (h : Handle ν) : Nat := h.charge + sizeofLfuHandle - 1 + h.key.length

def chargeWord (h : Handle ν) : Nat := totalCharge h % sizes

/-- The address of the dummy head `freqList_`. -/
abbrev freqList : Nat := 0

/-- `LFUCacheShard`. The circular list of frequencies runs from `freqList_` on,
the table is the set of handles it points to, and `freed` and `deleted` list the
handles and the nodes that were given back. The array of the table is left to
`HandleTable`: it can be resized up to `2 ^ 30` new entries. -/
structure LfuShard (ν : Type) where
  capacity : Nat
  usage : Nat
  ring : List (Node (LfuHandle ν))
  table : List Slot
  nextPtr : Nat
  nextNode : Nat
  freed : List Nat
  deleted : List Nat
deriving DecidableEq

def LfuShard.new (capacity : Nat) : LfuShard ν :=
  { capacity := capacity, usage := 0, ring := [⟨freqList, 0, []⟩], table := [], nextPtr := 0
    nextNode := 1, freed := [], deleted := [] }

def LfuShard.setCapacity (s : LfuShard ν) (capacity : Nat) : LfuShard ν :=
  { s with capacity := capacity }

def LfuShard.listed (s : LfuShard ν) : List (LfuHandle ν) := entries s.ring

def LfuShard.find (s : LfuShard ν) (key : List UInt8) (hash : UInt32) : Option Nat :=
  (s.table.find? (Slot.isFor key hash)).map Slot.ptr

/-- There is no handle to be read at an address that was freed. -/
def LfuShard.handle (s : LfuShard ν) (p : Nat) : Option (LfuHandle ν) :=
  s.listed.find? (fun h => decide (h.ptr = p))

def LfuShard.node (s : LfuShard ν) (q : Nat) : Option (Node (LfuHandle ν)) :=
  s.ring.find? (fun n => decide (n.id = q))

def LfuShard.next (s : LfuShard ν) (q : Nat) : Option (Node (LfuHandle ν)) :=
  s.ring.head?.bind fun first => FrequencyList.next first q s.ring

def LfuShard.modify (s : LfuShard ν) (p : Nat) (f : Handle ν → Handle ν) : LfuShard ν :=
  { s with
    ring := s.ring.map (Node.withEntries (List.map fun h =>
      if h.ptr = p then { h with toHandle := f h.toHandle } else h)) }

/-- `LFU_Remove`. -/
def LfuShard.remove (s : LfuShard ν) (p : Nat) : LfuShard ν :=
  { s with
    ring := s.ring.map (Node.withEntries (List.filter fun h => decide (h.ptr ≠ p))) }

/-- The node behind another one, which is made if the one that is there has not
the frequency asked for. -/
def LfuShard.nodeBehind (s : LfuShard ν) (q frequency : Nat) : Option (LfuShard ν × Nat) :=
  (s.next q).map fun n =>
    if n.frequency = frequency then (s, n.id)
    else ({ s with
        ring := insertAfter q ⟨s.nextNode, frequency, []⟩ s.ring, nextNode := s.nextNode + 1 },
      s.nextNode)

/-- Delete a node that is empty. The dummy head is a member of the shard and
cannot be deleted. -/
def LfuShard.dropEmpty (s : LfuShard ν) (q : Nat) : Option (LfuShard ν) :=
  (s.node q).bind fun n =>
    if n.entries.isEmpty then
      if q = freqList then none
      else some { s with
        ring := s.ring.filter (fun n => decide (n.id ≠ q)), deleted := s.deleted ++ [q] }
    else some s

def LfuShard.fileUnder (s : LfuShard ν) (q : Nat) (h : LfuHandle ν) : LfuShard ν :=
  { s with ring := FrequencyList.fileUnder q { h with parent := some q } s.ring }

/-- `LFU_Insert`. -/
def LfuShard.lfuInsert (s : LfuShard ν) (h : LfuHandle ν) : Option (LfuShard ν) :=
  (s.nodeBehind freqList 1).map fun r => r.1.fileUnder r.2 h

/-- `LFU_Update`. The frequency is a `uint32_t`, and the list of the dummy head is
used if it wraps. -/
def LfuShard.lfuUpdate (s : LfuShard ν) (p : Nat) : Option (LfuShard ν) := do
  let h ← s.handle p
  let currFreq ← h.parent.bind s.node
  let r ← s.nodeBehind currFreq.id ((currFreq.frequency + 1) % counts)
  let t ← (r.1.remove p).dropEmpty currFreq.id
  some (t.fileUnder r.2 h)

def LfuShard.hit (s : LfuShard ν) (p : Nat) : Option (LfuShard ν) :=
  (s.lfuUpdate p).map fun t => t.modify p ref

/-- `EvictFromLFU`. -/
def LfuShard.evictFrom (s : LfuShard ν) (charge : Nat) : LfuShard ν :=
  let w := walk (fun usage => decide ((usage + charge) % sizes > s.capacity))
    (fun h => h.hasRefs) (fun usage h => subSize usage (chargeWord h.toHandle)) s.usage s.ring.tail
  { s with
    ring := s.ring.take 1 ++ w.nodes
    usage := w.usage
    table := (w.out.map LfuHandle.toHandle).foldl Shard.unlink s.table
    freed := s.freed ++ w.out.map (fun h => h.ptr)
    deleted := s.deleted ++ w.deleted }

def LfuShard.makeRoom (s : LfuShard ν) (h : Handle ν) : LfuShard ν :=
  if (chargeWord h + h.charge) % sizes > s.capacity then s.evictFrom (chargeWord h) else s

def LfuShard.alloc (s : LfuShard ν) (key : List UInt8) (hash : UInt32) (value : ν)
    (charge : Nat) : LfuHandle ν :=
  ⟨⟨s.nextPtr, key, hash, value, charge, 0, true⟩, none⟩

def LfuShard.insert (s : LfuShard ν) (key : List UInt8) (hash : UInt32) (value : ν)
    (charge : Nat) : Option (LfuShard ν × Nat) :=
  let h := s.alloc key hash value charge
  let r := { s.makeRoom h.toHandle with nextPtr := s.nextPtr + 1 }
  match r.find key hash with
  | some p => (r.hit p).map fun t => ({ t with freed := t.freed ++ [h.ptr] }, p)
  | none =>
    (LfuShard.lfuInsert { r with table := h.slot :: r.table } h).map fun t =>
      ({ t.modify h.ptr ref with usage := (t.usage + chargeWord h.toHandle) % sizes }, h.ptr)

def LfuShard.lookup (s : LfuShard ν) (key : List UInt8) (hash : UInt32) :
    Option (LfuShard ν × Option Nat) :=
  match s.find key hash with
  | some p => (s.hit p).map fun t => (t, some p)
  | none => some (s, none)

/-- `LFU_Remove` and `Free` of an entry that is no longer in the table. The node it
was in stays, even if it is empty then. -/
def LfuShard.discard (s : LfuShard ν) (h : LfuHandle ν) : LfuShard ν :=
  { s.remove h.ptr with
    usage := subSize s.usage (chargeWord h.toHandle), freed := s.freed ++ [h.ptr] }

def LfuShard.release (s : LfuShard ν) (p : Nat) : Option (LfuShard ν) :=
  let r := s.modify p unref
  (r.handle p).map fun h => if h.refs = 0 ∧ h.inCache = false then r.discard h else r

def LfuShard.erase (s : LfuShard ν) (key : List UInt8) (hash : UInt32) :
    Option (LfuShard ν × Bool) :=
  match s.find key hash with
  | some p =>
    let r := { s with table := s.table.eraseP (Slot.isFor key hash) }.modify p Handle.setErased
    (r.handle p).map fun h => (if h.hasRefs then r else r.discard h, true)
  | none => some (s, false)

end WiscKey.LfuCache
