import WiscKey.CacheShard
import WiscKey.Hash

namespace WiscKey.ShardedCache

open WiscKey.CacheShard WiscKey.Hash

/-- `LRUCache` and `FIFOCache`. The values are the byte strings of the
`CacheEntry` objects. -/
structure Cache where
  policy : Policy
  numShardBits : Nat
  shards : Nat → Shard (List UInt8)

/-- A pointer to a handle, with the hash that `GetHash` reads from it. -/
structure Ref where
  hash : UInt32
  ptr : Nat
deriving DecidableEq

def sizeofCacheEntry : Nat := 16

def perShard (capacity numShardBits : Nat) : Nat :=
  (capacity + (2 ^ numShardBits - 1)) / 2 ^ numShardBits

def newCache (policy : Policy) (capacity numShardBits : Nat) : Cache :=
  { policy := policy, numShardBits := numShardBits,
    shards := fun _ => Shard.new (perShard capacity numShardBits) }

/-- The loop of `GetDefaultCacheShardBits`, with the number of rounds left. -/
def countShardBits : Nat → Nat → Nat
  | 0, _ => 0
  | n + 1, shards => if shards / 2 = 0 then 0 else countShardBits n (shards / 2) + 1

def getDefaultCacheShardBits (capacity : Nat) : Nat := countShardBits 6 (capacity / (512 * 1024))

def newLRUCache (capacity : Nat) : Cache :=
  newCache .lru capacity (getDefaultCacheShardBits capacity)

def newFIFOCache (capacity numShardBits : Nat) : Cache := newCache .fifo capacity numShardBits

/-- The shard of a hash, taken from its highest bits. -/
def Cache.shardOf (c : Cache) (hash : UInt32) : Nat :=
  if 0 < c.numShardBits then (hash >>> UInt32.ofNat (32 - c.numShardBits)).toNat else 0

def Cache.setShard (c : Cache) (i : Nat) (s : Shard (List UInt8)) : Cache :=
  { c with shards := Function.update c.shards i s }

def Cache.shard (c : Cache) (key : List UInt8) : Shard (List UInt8) :=
  c.shards (c.shardOf (hashSlice key))

/-- `insert_cache` and `insert_buffer` on a cache that exists. -/
def Cache.insert (c : Cache) (key value : List UInt8) : Cache × Ref :=
  let r := (c.shard key).insert key (hashSlice key) value (sizeofCacheEntry + value.length)
  (c.setShard (c.shardOf (hashSlice key)) r.1, ⟨hashSlice key, r.2⟩)

def Cache.lookup (c : Cache) (key : List UInt8) : Cache × Option Ref :=
  let r := (c.shard key).lookup c.policy key (hashSlice key)
  (c.setShard (c.shardOf (hashSlice key)) r.1, r.2.map (fun p => ⟨hashSlice key, p⟩))

def Cache.value (c : Cache) (h : Ref) : Option (List UInt8) :=
  (c.shards (c.shardOf h.hash)).value h.ptr

def Cache.release (c : Cache) (h : Ref) : Cache :=
  c.setShard (c.shardOf h.hash) ((c.shards (c.shardOf h.hash)).release h.ptr)

/-- `Erase`. The result only feeds a statistics counter and is left out. -/
def Cache.erase (c : Cache) (key : List UInt8) : Cache :=
  c.setShard (c.shardOf (hashSlice key)) ((c.shard key).erase key (hashSlice key)).1

/-- What one client does with a cache when it inserts or reads: the handle it
gets is released before it goes on. -/
def Cache.insertRelease (c : Cache) (key value : List UInt8) : Cache :=
  (c.insert key value).1.release (c.insert key value).2

def Cache.read (c : Cache) (key : List UInt8) : Cache × Option (List UInt8) :=
  match c.lookup key with
  | (c, some h) => (c.release h, c.value h)
  | (c, none) => (c, none)

end WiscKey.ShardedCache
