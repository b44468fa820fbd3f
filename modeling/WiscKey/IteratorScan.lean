import WiscKey.Runs
import WiscKey.IteratorQueue

namespace WiscKey.IteratorScan

open WiscKey.Runs WiscKey.Database WiscKey.Iterator WiscKey.IteratorQueue

variable {ρ : Type}

/-- The entries of a map in the order of their keys, as far as the bound. -/
structure Ordered (t : Std.ExtTreeMap Key ρ) (upper : Option Key) (entries : List (Key × ρ)) :
    Prop where
  mem_iff : ∀ k r, (k, r) ∈ entries ↔ t[k]? = some r ∧ ∀ u ∈ upper, compare k u = .lt
  sorted : entries.Pairwise fun a b => compare a.1 b.1 = .lt

def range (entries : List (Key × ρ)) : Option Key → List (Key × ρ)
  | none => entries
  | some target => entries.filter fun e => (compare target e.1).isLE

def position (d : DBIterator ρ) : Option Key → Option (DBIterator ρ)
  | none => d.seekToFirst
  | some target => d.seek target

def nexts : Nat → DBIterator ρ → Option (DBIterator ρ)
  | 0, d => some d
  | n + 1, d => if d.valid then d.next.bind (nexts n) else none

def seen (d : DBIterator ρ) : Bool × Option Key := (d.valid, if d.valid then d.key else none)

def scan (d : DBIterator ρ) (start : Option Key) (n : Nat) : Option (Bool × Option Key) :=
  ((position d start).bind (nexts n)).map seen

def scanList (l : List (Key × ρ)) (n : Nat) : Option (Bool × Option Key) :=
  if n ≤ l.length then some (decide (n < l.length), l[n]?.map Prod.fst) else none

theorem new_ordered (t : Std.ExtTreeMap Key ρ) (upper : Option Key) :
    Ordered t upper (RocksIterator.new t upper).entries where
  mem_iff k r := by
    rw [RocksIterator.new, List.mem_filter, Std.ExtTreeMap.mem_toList_iff_getElem?_eq_some]
    cases upper with
    | none => simp [belowUpper]
    | some u => simp [belowUpper, Ordering.isLT_iff_eq_lt]
  sorted := Std.ExtTreeMap.ordered_keys_toList.filter _

structure Plain (entries : List (Key × ρ)) (d : DBIterator ρ) (rest : List (Key × ρ)) : Prop where
  ena : d.prefetchEna = false
  entries_eq : d.it.entries = entries
  it_rest : d.it.rest = rest
  valid : d.valid = !rest.isEmpty

variable {entries rest l : List (Key × ρ)} {d : DBIterator ρ} {e : Key × ρ}

theorem plain_next (h : Plain entries d (e :: l)) :
    ∃ d', d.next = some d' ∧ Plain entries d' l := by
  have hn := next_eq h.it_rest
  refine ⟨{ d with it := { d.it with rest := l }, valid := !l.isEmpty }, ?_, h.ena, h.entries_eq,
    rfl, rfl⟩
  rw [DBIterator.next, if_neg (by rw [h.ena]; exact Bool.false_ne_true), hn]
  rfl

theorem plain_key (h : Plain entries d (e :: l)) : d.key = some e.1 := by
  rw [DBIterator.key, if_neg (by rw [h.ena]; exact Bool.false_ne_true), RocksIterator.entry,
    h.it_rest]
  rfl

theorem plain_position (h : Plain entries d rest) (start : Option Key) :
    ∃ d', position d start = some d' ∧ Plain entries d' (range entries start) := by
  have hena : ¬ d.prefetchEna = true := by
    rw [h.ena]
    exact Bool.false_ne_true
  cases start with
  | none =>
    refine ⟨{ d with it := d.it.seekToFirst, valid := d.it.seekToFirst.valid }, if_neg hena, h.ena,
      h.entries_eq, h.entries_eq, ?_⟩
    rw [← h.entries_eq]
    rfl
  | some target =>
    refine ⟨{ d with it := d.it.seek target, valid := (d.it.seek target).valid }, if_neg hena,
      h.ena, h.entries_eq, ?_, ?_⟩
    · rw [← h.entries_eq]
      rfl
    · rw [← h.entries_eq]
      rfl

/-- The rule for scans: a relation with a list that gives the position and that
`Next` keeps. -/
theorem nexts_seen {R : DBIterator ρ → List (Key × ρ) → Prop}
    (hv : ∀ d l, R d l → d.valid = !l.isEmpty) (hk : ∀ d e l, R d (e :: l) → d.key = some e.1)
    (hn : ∀ d e l, R d (e :: l) → ∃ d', d.next = some d' ∧ R d' l) (n : Nat) (h : R d l) :
    (nexts n d).map seen = scanList l n := by
  induction n generalizing d l with
  | zero =>
    cases l with
    | nil =>
      have hd : d.valid = false := hv d [] h
      simp [nexts, seen, scanList, hd]
    | cons e l =>
      have hd : d.valid = true := hv d (e :: l) h
      simp [nexts, seen, scanList, hd, hk d e l h]
  | succ n ih =>
    cases l with
    | nil =>
      have hd : d.valid = false := hv d [] h
      simp [nexts, scanList, hd]
    | cons e l =>
      have hd : d.valid = true := hv d (e :: l) h
      obtain ⟨d', hnext, hr⟩ := hn d e l h
      rw [nexts, if_pos hd, hnext, Option.bind_some, ih hr]
      simp [scanList]

theorem plain_scan (t : Std.ExtTreeMap Key ρ) (upper : Option Key) (depth : Nat)
    (start : Option Key) (n : Nat) :
    scan (DBIterator.new (.new t upper) false depth) start n =
      scanList (range (RocksIterator.new t upper).entries start) n := by
  have h0 : Plain (RocksIterator.new t upper).entries
      (DBIterator.new (.new t upper) false depth) [] := ⟨rfl, rfl, rfl, rfl⟩
  obtain ⟨d, hd, hr⟩ := plain_position h0 start
  rw [scan, hd, Option.bind_some]
  exact nexts_seen (fun _ _ h => h.valid) (fun _ _ _ => plain_key) (fun _ _ _ => plain_next) n hr

theorem tracks_scan {start : Option Key} (h : Tracks entries d rest) (hc : d.cur = 0)
    (hd : d.depth = 1) (hne : start = none → entries ≠ []) (n : Nat) :
    scan d start n = scanList (range entries start) n := by
  have hp : ∃ d', position d start = some d' ∧ Tracks entries d' (range entries start) := by
    cases start with
    | none => exact seekToFirst_tracks h hc hd (hne rfl)
    | some target => exact seek_tracks h hc target
  obtain ⟨d', hd', hr⟩ := hp
  rw [scan, hd', Option.bind_some]
  exact nexts_seen (fun _ _ h => h.valid) (fun _ _ _ => Tracks.key_eq) (fun _ _ _ => next_tracks)
    n hr

theorem tracks_seekToFirst_nil (h : Tracks [] d rest) : d.seekToFirst = none := by
  have he : d.it.seekToFirst.entry = none := by
    rw [RocksIterator.entry, RocksIterator.seekToFirst, h.entries_eq]
    rfl
  rw [DBIterator.seekToFirst, if_pos h.ena, he]
  cases load d.slots 0 d.it.seekToFirst with
  | none => rfl
  | some slots => rfl

/-- A scan with prefetching shows what one without shows, the entries from the
first one at or past the target on, unless `SeekToFirst` is called and there are
no entries. -/
theorem prefetch_scan_iff (t : Std.ExtTreeMap Key ρ) (upper start : Option Key) (e : Nat) :
    Ordered t upper (RocksIterator.new t upper).entries ∧
    (∀ n, scan (DBIterator.new (.new t upper) false (2 ^ e)) start n =
      scanList (range (RocksIterator.new t upper).entries start) n) ∧
    ((∀ n, scan (DBIterator.new (.new t upper) true (2 ^ e)) start n =
        scan (DBIterator.new (.new t upper) false (2 ^ e)) start n) ↔
      (start = none → (RocksIterator.new t upper).entries ≠ [])) := by
  have h := new_tracks (RocksIterator.new t upper) rfl e
  refine ⟨new_ordered t upper, plain_scan t upper (2 ^ e) start, fun hs => ?_, fun hne n => ?_⟩
  · rintro rfl he
    have h0 := hs 0
    rw [he] at h
    rw [plain_scan, scan, position, tracks_seekToFirst_nil h] at h0
    cases h0
  · rw [plain_scan, tracks_scan h rfl rfl hne]

def threeKeys : Std.ExtTreeMap Key Nat :=
  (((∅ : Std.ExtTreeMap Key Nat).insert [1] 1).insert [2] 2).insert [3] 3

theorem prefetch_scan_three :
    scan (DBIterator.new (.new threeKeys none) true 2) none 2 =
      scan (DBIterator.new (.new threeKeys none) false 2) none 2 :=
  (prefetch_scan_iff threeKeys none none 1).2.2.mpr (fun _ => by decide +kernel) 2

/-- On an empty database `SeekToFirst` has a result only without prefetching. -/
theorem prefetch_first_of_empty :
    scan (DBIterator.new (.new (∅ : Std.ExtTreeMap Key Record) none) true 4) none 0 ≠
      scan (DBIterator.new (.new (∅ : Std.ExtTreeMap Key Record) none) false 4) none 0 := by
  decide +kernel

end WiscKey.IteratorScan
