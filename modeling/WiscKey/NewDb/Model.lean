import WiscKey.Maps

namespace WiscKey.NewDb.Model

open WiscKey.Maps

abbrev Key := List UInt8
abbrev Value := List UInt8

/-- The two RocksDB stores, which persist, and the members in memory. An entry
of `keydb_` holds the eight bytes of a physical key, which is a number here. -/
structure State where
  keydb : Std.ExtTreeMap Key UInt64
  valuedb : Std.ExtTreeMap UInt64 (List UInt8)
  sequence : UInt64
  phyKeysForGc : List UInt64

inductive Answer where
  | ok (v : Value)
  | notFound
deriving DecidableEq

def openFresh : State where
  keydb := ∅
  valuedb := ∅
  sequence := 0
  phyKeysForGc := []

def reopen (s : State) : State := { s with sequence := 0, phyKeysForGc := [] }

/-- What `Put` does with the physical key it read from `keydb_`. -/
def State.collectOld (s : State) (old : Option UInt64) : State :=
  { s with phyKeysForGc := s.phyKeysForGc ++ old.toList }

def State.getNewSeq (s : State) : State × UInt64 :=
  ({ s with sequence := s.sequence + 1 }, s.sequence)

def State.putKey (s : State) (k : Key) (p : UInt64) : State :=
  { s with keydb := s.keydb.insert k p }

def State.deleteKey (s : State) (k : Key) : State := { s with keydb := s.keydb.erase k }

def State.putValue (s : State) (p : UInt64) (pval : List UInt8) : State :=
  { s with valuedb := s.valuedb.insert p pval }

/-- The physical value: one byte for the length of the key, the key, the value. -/
def encode (k : Key) (v : Value) : List UInt8 := UInt8.ofNat k.length :: (k ++ v)

/-- The size of a physical value is an `int`. A larger one cannot be built. -/
def Fits (k : Key) (v : Value) : Prop := 1 + k.length + v.length < 2 ^ 31

instance (k : Key) (v : Value) : Decidable (Fits k v) :=
  inferInstanceAs (Decidable (1 + k.length + v.length < 2 ^ 31))

/-- The value in a physical value, appended as a C string. -/
def decode : List UInt8 → Value
  | [] => []
  | keyLen :: rest => (rest.drop keyLen.toNat).takeWhile (fun b => b ≠ 0)

/-- There is no result when the physical value cannot be built. -/
def put (s : State) (k : Key) (v : Value) : Option State :=
  let (t, seq) := (s.collectOld s.keydb[k]?).getNewSeq
  if Fits k v then some ((t.putKey k seq).putValue seq (encode k v)) else none

def delete (s : State) (k : Key) : State := s.deleteKey k

def lookup (s : State) (k : Key) : Option (List UInt8) := s.keydb[k]?.bind fun p => s.valuedb[p]?

/-- `Get` with an empty output string. -/
def get (s : State) (k : Key) : Answer :=
  match lookup s k with
  | none => .notFound
  | some pval => .ok (decode pval)

variable {s s' : State} {k : Key} {v : Value}

theorem put_eq_some : put s k v = some s' ↔ Fits k v ∧ s' =
    { keydb := s.keydb.insert k s.sequence
      valuedb := s.valuedb.insert s.sequence (encode k v)
      sequence := s.sequence + 1
      phyKeysForGc := s.phyKeysForGc ++ s.keydb[k]?.toList } := by
  rw [eq_comm (a := s')]
  simp only [put, State.getNewSeq, State.collectOld, State.putKey, State.putValue,
    Option.ite_none_right_eq_some, Option.some.injEq]

theorem lookup_eq_some {pval : List UInt8} :
    lookup s k = some pval ↔ ∃ p, s.keydb[k]? = some p ∧ s.valuedb[p]? = some pval :=
  Option.bind_eq_some_iff

theorem put_lookup (hf : ∀ k' : Key, s.keydb[k']? ≠ some s.sequence) (hp : put s k v = some s')
    (k' : Key) : lookup s' k' = if k = k' then some (encode k v) else lookup s k' := by
  obtain ⟨-, rfl⟩ := put_eq_some.mp hp
  simp only [lookup, getElem?_insert]
  by_cases he : k = k'
  · simp [he]
  · simp only [if_neg he]
    refine Option.bind_congr ?_
    intro p hp
    rw [if_neg]
    rintro rfl
    exact hf k' hp

theorem delete_lookup (s : State) (k k' : Key) :
    lookup (delete s k) k' = if k = k' then none else lookup s k' := by
  simp only [lookup, delete, State.deleteKey, getElem?_erase]
  split
  · rfl
  · rfl

theorem decode_encode (hk : k.length ≤ 255) (hv : ∀ b ∈ v, b ≠ 0) : decode (encode k v) = v := by
  have hl : (UInt8.ofNat k.length).toNat = k.length :=
    UInt8.toNat_ofNat_of_lt' (Nat.lt_succ_of_le hk)
  rw [encode, decode, hl, List.drop_left]
  exact List.takeWhile_eq_self_iff.mpr (fun b hb => by simpa using hv b hb)

end WiscKey.NewDb.Model
