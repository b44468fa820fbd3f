import Mathlib

namespace WiscKey.Hash

def multiplier : UInt64 := 0xc6a4a7935bd1e995

/-- The little-endian word a byte string of at most eight bytes stands for. -/
def littleEndian : List UInt8 → UInt64
  | [] => 0
  | b :: bs => b.toUInt64 ^^^ (littleEndian bs <<< 8)

def mixWord (h k : UInt64) : UInt64 :=
  let k := k * multiplier
  let k := k ^^^ (k >>> 47)
  let k := k * multiplier
  (h ^^^ k) * multiplier

/-- The loop over the whole words of the key. The bytes left over are returned
with the hash. -/
def mixWords (h : UInt64) : Nat → List UInt8 → UInt64 × List UInt8
  | 0, data => (h, data)
  | n + 1, data => mixWords (mixWord h (littleEndian (data.take 8))) n (data.drop 8)

@[irreducible]
def murmurHash64A (key : List UInt8) (seed : UInt64) : UInt64 :=
  let r := mixWords (seed ^^^ (UInt64.ofNat key.length * multiplier)) (key.length / 8) key
  let h := if r.2 = [] then r.1 else (r.1 ^^^ littleEndian r.2) * multiplier
  let h := (h ^^^ (h >>> 47)) * multiplier
  h ^^^ (h >>> 47)

def npHash64 (key : List UInt8) : UInt64 := murmurHash64A key 0

scoped instance partition_neZero : NeZero 4 := ⟨by decide⟩

/-- The log partition of a key, `Hash0(key) % LOG_PARTITION`. -/
def partition (key : List UInt8) : Fin 4 := Fin.ofNat 4 (npHash64 key % 4).toNat

/-- The 32-bit hash of the caches. -/
def hashSlice (key : List UInt8) : UInt32 := (npHash64 key).toUInt32

end WiscKey.Hash
