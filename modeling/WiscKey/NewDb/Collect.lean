import WiscKey.Vectors
import WiscKey.NewDb.Model

namespace WiscKey.NewDb.Collect

open WiscKey.Maps WiscKey.Vectors WiscKey.NewDb.Model

structure SstFile where
  name : String
  smallestkey : UInt64
  largestkey : UInt64
  beingCompacted : Bool
  ordered : smallestkey ≤ largestkey

structure Level where
  level : Int
  files : List SstFile

/-- Iterators into `phy_keys_for_gc` are positions in it. -/
structure GCMetadata where
  sstmeta : SstFile
  readyForGc : Bool
  level : Int
  smallestItr : Nat
  largestItr : Nat

def InInt (x : Int) : Prop := -2 ^ 31 ≤ x ∧ x < 2 ^ 31

instance (x : Int) : Decidable (InInt x) := inferInstanceAs (Decidable (_ ∧ _))

def toInt (x : Int) : Int := x.bmod (2 ^ 32)

/-- The division of `int`s, without a result where it has none. -/
def garbagePercent (noOfKeys numberOfKeyInFile : Int) : Option Int :=
  if numberOfKeyInFile ≠ 0 ∧ InInt (noOfKeys * 100)
  then some ((noOfKeys * 100).tdiv numberOfKeyInFile) else none

def gcMetadata (keys : List UInt64) (level : Int) (file : SstFile) : Option GCMetadata :=
  let small := lowerBound keys file.smallestkey
  let large := upperBound keys file.largestkey
  (garbagePercent (toInt (large - small)) (toInt (file.largestkey - file.smallestkey).toNat)).map
    fun (percent : Int) =>
      { sstmeta := file, level := level, smallestItr := small, largestItr := large
        readyForGc := !file.beingCompacted && decide (1 ≤ percent) }

/-- The files of all levels, by their smallest key. Their number is that of an
`int`. -/
def inputFiles (keys : List UInt64) (levels : List Level) : Option (List GCMetadata) :=
  let files := levels.flatMap fun l => l.files.map fun f => (l.level, f)
  if files.length < 2 ^ 31 then
    (files.mapM fun f => gcMetadata keys f.1 f.2).map
      (List.insertionSort fun a b => a.sstmeta.smallestkey ≤ b.sstmeta.smallestkey)
  else none

inductive Decision where
  | keep
  | remove
deriving DecidableEq

/-- The compaction filter, by its set of garbage keys, which may be null. -/
def filterV2 (garbageKeys : Option (List UInt64)) (p : UInt64) : Decision :=
  match garbageKeys with
  | none => .keep
  | some keys => if p ∈ keys then .remove else .keep

def rewrite (garbageKeys : Option (List UInt64)) (held : UInt64 → Bool)
    (valuedb : Std.ExtTreeMap UInt64 (List UInt8)) : Std.ExtTreeMap UInt64 (List UInt8) :=
  valuedb.filter fun p _ => !(held p && decide (filterV2 garbageKeys p = .remove))

/-- What `CompactFiles` does on a list of files and an output level: it fails,
or it rewrites the entries the files hold. -/
abbrev CompactFiles := List String → Int → Option (UInt64 → Bool)

structure Loop where
  compactionFiles : List String
  gcKeysSet : List UInt64
  deletionKeysTmp : List (Nat × Nat)
  nextLvl : Int
  deletionKeys : List (Nat × Nat)

def Loop.start : Loop := ⟨[], [], [], 0, []⟩

def Loop.gather (keys : List UInt64) (l : Loop) (f : GCMetadata) : Loop :=
  { l with
    compactionFiles := l.compactionFiles ++ [f.sstmeta.name]
    gcKeysSet := l.gcKeysSet ++ (keys.take f.largestItr).drop f.smallestItr
    deletionKeysTmp := l.deletionKeysTmp ++ [(f.smallestItr, f.largestItr)]
    nextLvl := max l.nextLvl (f.level + 1) }

def Loop.clear (l : Loop) : Loop :=
  { Loop.start with
    deletionKeys :=
      if 1 < l.compactionFiles.length then l.deletionKeys ++ l.deletionKeysTmp
      else l.deletionKeys }

def Loop.compact (l : Loop) (compactFiles : CompactFiles)
    (valuedb : Std.ExtTreeMap UInt64 (List UInt8)) : Std.ExtTreeMap UInt64 (List UInt8) :=
  if 1 < l.compactionFiles.length then
    match compactFiles l.compactionFiles l.nextLvl with
    | none => valuedb
    | some held => rewrite (some l.gcKeysSet) held valuedb
  else valuedb

/-- One round of the loop. Only a file that is not ready has the files before
it compacted. -/
def visit (compactFiles : CompactFiles) (keys : List UInt64)
    (c : Std.ExtTreeMap UInt64 (List UInt8) × Loop) (f : GCMetadata) :
    Std.ExtTreeMap UInt64 (List UInt8) × Loop :=
  if f.readyForGc then (c.1, c.2.gather keys f) else (c.2.compact compactFiles c.1, c.2.clear)

def sortedKeys (garbage : List UInt64) : List UInt64 := garbage.insertionSort fun a b => a ≤ b

/-- There is no result where a division or an `erase` has none. -/
def vLogGarbageCollect (s : State) (levels : List Level) (compactFiles : CompactFiles) :
    Option State := do
  let keys := sortedKeys s.phyKeysForGc
  let files ← inputFiles keys levels
  let (valuedb, l) := files.foldl (visit compactFiles keys) (s.valuedb, Loop.start)
  let rest ← eraseRanges keys l.deletionKeys
  return { s with valuedb := valuedb, phyKeysForGc := rest }

end WiscKey.NewDb.Collect
