import WiscKey.Database

namespace WiscKey.Iterator

open WiscKey.ValueLog WiscKey.Database

variable {ρ : Type}

/-- An iterator of RocksDB over a snapshot: the entries below the upper bound in
the order of their keys, and those from the current one on. -/
structure RocksIterator (ρ : Type) where
  entries : List (Key × ρ)
  rest : List (Key × ρ)

def belowUpper (upper : Option Key) (k : Key) : Bool := upper.all fun u => (compare k u).isLT

def RocksIterator.new (t : Std.ExtTreeMap Key ρ) (upper : Option Key) : RocksIterator ρ where
  entries := t.toList.filter fun e => belowUpper upper e.1
  rest := []

def RocksIterator.valid (it : RocksIterator ρ) : Bool := !it.rest.isEmpty

def RocksIterator.entry (it : RocksIterator ρ) : Option (Key × ρ) := it.rest.head?

def RocksIterator.seekToFirst (it : RocksIterator ρ) : RocksIterator ρ :=
  { it with rest := it.entries }

def RocksIterator.seek (it : RocksIterator ρ) (target : Key) : RocksIterator ρ :=
  { it with rest := it.entries.filter fun e => (compare target e.1).isLE }

def RocksIterator.next (it : RocksIterator ρ) : Option (RocksIterator ρ) :=
  match it.rest with
  | [] => none
  | _ :: rest => some { it with rest := rest }

/-- One position of `key_queue_`, `pkey_queue_`, `val_queue_` and `valid_queue_`. -/
structure Slot (ρ : Type) where
  key : Key
  pkey : Option ρ
  value : Value
  valid : Bool

def Slot.empty : Slot ρ := ⟨[], none, [], false⟩

/-- An access outside of the queues has no result. -/
def setSlot (slots : List (Slot ρ)) (i : Nat) (f : Slot ρ → Slot ρ) : Option (List (Slot ρ)) :=
  if i < slots.length then some (slots.modify i f) else none

def load (slots : List (Slot ρ)) (i : Nat) (it : RocksIterator ρ) : Option (List (Slot ρ)) :=
  match it.entry with
  | some e => setSlot slots i fun s => { s with key := e.1, pkey := some e.2, valid := true }
  | none => setSlot slots i fun s => { s with valid := false }

/-- The loop of `Next` from a slot on, with the number of rounds left. -/
def refill (it : RocksIterator ρ) (slots : List (Slot ρ)) (i : Nat) :
    Nat → Option (RocksIterator ρ × List (Slot ρ))
  | 0 => some (it, slots)
  | n + 1 => do
    let it ← it.next
    let slots ← load slots i it
    if it.valid then refill it slots (i + 1) n else some (it, slots)

/-- The loop of `Seek`, which looks at the iterator before it moves it. -/
def refillValid (it : RocksIterator ρ) (slots : List (Slot ρ)) (i : Nat) :
    Nat → Option (RocksIterator ρ × List (Slot ρ))
  | 0 => some (it, slots)
  | n + 1 =>
    if it.valid then do
      let it ← it.next
      let slots ← load slots i it
      if it.valid then refillValid it slots (i + 1) n else some (it, slots)
    else refillValid it slots (i + 1) n

/-- `DBIterator` of both libraries. The queues have `prefetchDepth` slots if
prefetching is enabled, `depth` is `prefetch_depth_` and `cur` is `queue_cur_`. -/
structure DBIterator (ρ : Type) where
  it : RocksIterator ρ
  valid : Bool
  prefetchEna : Bool
  prefetchDepth : Nat
  slots : List (Slot ρ)
  depth : Nat
  cur : Nat

def DBIterator.new (it : RocksIterator ρ) (prefetchEna : Bool) (prefetchDepth : Nat) :
    DBIterator ρ where
  it := it
  valid := false
  prefetchEna := prefetchEna
  prefetchDepth := prefetchDepth
  slots := if prefetchEna then List.replicate prefetchDepth Slot.empty else []
  depth := 1
  cur := 0

/-- `SeekToFirst`. With prefetching it reads the value of the current entry
whether there is one or not. -/
def DBIterator.seekToFirst (d : DBIterator ρ) : Option (DBIterator ρ) :=
  let it := d.it.seekToFirst
  if d.prefetchEna then do
    let slots ← load d.slots 0 it
    let e ← it.entry
    let slots ← setSlot slots 0 fun s => { s with pkey := some e.2 }
    return { d with it := it, valid := it.valid, slots := slots }
  else some { d with it := it, valid := it.valid }

/-- `Seek`. Its assertion on the cursor is compiled out. -/
def DBIterator.seek (d : DBIterator ρ) (target : Key) : Option (DBIterator ρ) :=
  let it := d.it.seek target
  if d.prefetchEna then do
    let slots ← load d.slots 0 it
    let (it', slots) ← refillValid it slots 1 (d.depth - 1)
    return { d with it := it', valid := it.valid, slots := slots }
  else some { d with it := it, valid := it.valid }

def DBIterator.nextDepth (d : DBIterator ρ) : Nat :=
  if d.depth < d.prefetchDepth then
    if d.depth = 0 then 1 else d.depth <<< 1
  else d.depth

def DBIterator.next (d : DBIterator ρ) : Option (DBIterator ρ) :=
  if d.prefetchEna then
    if d.cur + 1 = d.depth then do
      let (it, slots) ← refill d.it d.slots 0 d.nextDepth
      let s ← slots[0]?
      return { d with it := it, slots := slots, depth := d.nextDepth, cur := 0, valid := s.valid }
    else do
      let s ← d.slots[d.cur + 1]?
      return { d with cur := d.cur + 1, valid := s.valid }
  else do
    let it ← d.it.next
    return { d with it := it, valid := it.valid }

def DBIterator.key (d : DBIterator ρ) : Option Key :=
  if d.prefetchEna then d.slots[d.cur]?.map Slot.key else d.it.entry.map Prod.fst

/-- The values of a batch are read for the slots up to the first invalid one,
each into a buffer of its own. -/
def fetch (read : Nat → Key → ρ → Value) (i : Nat) :
    List (Slot ρ) → Nat → Option (List (Slot ρ))
  | slots, 0 => some slots
  | [], _ + 1 => none
  | s :: slots, n + 1 =>
    if s.valid then do
      let r ← s.pkey
      let slots ← fetch read (i + 1) slots n
      return { s with value := read i s.key r } :: slots
    else some (s :: slots)

/-- `value` of the wisckey iterator. A batch without reads waits for ever. Without
prefetching the key is looked up in the index again. -/
def DBIterator.value (index : Key → Option ρ) (read : Nat → Key → ρ → Value) (d : DBIterator ρ) :
    Option (DBIterator ρ × Value) :=
  if d.prefetchEna then
    if d.cur = 0 then do
      let slots ← fetch read 0 d.slots d.depth
      let s ← slots[0]?
      if s.valid then some ({ d with slots := slots }, s.value) else none
    else do
      let s ← d.slots[d.cur]?
      return (d, s.value)
  else do
    let k ← d.key
    let r ← index k
    return (d, read 0 k r)

/-- `value` of the newdb iterator goes through `Get` and leaves the queues alone.
The slice it returns is of a string that is gone by then, and is left out. -/
def DBIterator.valueThroughGet (d : DBIterator ρ) : Option (DBIterator ρ) := do
  let _ ← d.key
  return d

inductive Library where
  | wisckey
  | newdb

inductive Op (ρ : Type) where
  | seekToFirst
  | seek (target : Key)
  | next
  | value (read : Nat → Key → ρ → Value)

def step (lib : Library) (index : Key → Option ρ) (d : DBIterator ρ) :
    Op ρ → Option (DBIterator ρ)
  | .seekToFirst => d.seekToFirst
  | .seek target => d.seek target
  | .next => d.next
  | .value read =>
    match lib with
    | .wisckey => (d.value index read).map Prod.fst
    | .newdb => d.valueThroughGet

end WiscKey.Iterator
