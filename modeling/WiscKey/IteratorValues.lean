import WiscKey.LogRecords
import WiscKey.Sequential
import WiscKey.IteratorHistory

namespace WiscKey.IteratorValues

open WiscKey.Runs WiscKey.Bytes WiscKey.ValueLog WiscKey.LogLayout WiscKey.LogRecords
  WiscKey.Database WiscKey.Iterator WiscKey.IteratorQueue WiscKey.IteratorScan
  WiscKey.IteratorHistory

/-- The buffer of an aligned read. Where the file ends before, the buffer keeps
whatever was in memory. -/
def readBuffer (file : List UInt8) (r : Record) (mem : Nat → UInt8) : List UInt8 :=
  let data := alignedRead file r
  let size := roundUp (r.offset - roundDown r.offset pageSize + r.size) pageSize
  data ++ (List.range' data.length (size - data.length)).map mem

/-- The `pread` of the iterator, whose result is not looked at. -/
def readValue (s : State) (mem : Nat → UInt8) (k : Key) (r : Record) : Value :=
  cut (readBuffer (s.log k).file r mem) r

def stored (s : State) (e : Key × Record) : Value := slice (s.log e.1).file e.2.offset e.2.size

variable {s : State} {mem : Nat → UInt8} {k : Key} {r : Record}

theorem readValue_flushed (h : r.offset + r.size ≤ (s.log k).file.length) :
    readValue s mem k r = stored s (k, r) := by
  have ha := roundDown_le r.offset pageSize
  have hr := le_roundUp (r.offset - roundDown r.offset pageSize + r.size) (m := pageSize)
    (by decide)
  have hlen : r.offset - roundDown r.offset pageSize + r.size ≤
      (alignedRead (s.log k).file r).length := by
    rw [alignedRead, length_slice]
    omega
  rw [readValue, readBuffer, cut, slice_append_left _ _ _ _ hlen]
  exact cut_alignedRead (s.log k).file r

variable {ρ : Type}

/-- The slots from a position on have the values of the entries of a list, as far
as a number of slots goes. -/
def Filled (bytes : Key × ρ → Value) (slots : List (Slot ρ)) (i : Nat) :
    Nat → List (Key × ρ) → Prop
  | 0, _ | _ + 1, [] => True
  | n + 1, e :: l => (∃ s, slots[i]? = some s ∧ s.value = bytes e) ∧ Filled bytes slots (i + 1) n l

variable {bytes : Key × ρ → Value} {slots slots' : List (Slot ρ)} {i n : Nat}
  {l : List (Key × ρ)}

theorem filled_cons {s : Slot ρ} :
    Filled bytes (s :: slots) (i + 1) n l ↔ Filled bytes slots i n l := by
  induction n generalizing i l with
  | zero => simp [Filled]
  | succ n ih =>
    cases l with
    | nil => simp [Filled]
    | cons e l => simp [Filled, ih]

theorem fetch_filled {read : Nat → Key → ρ → Value} (h : Window slots 0 n l)
    (hr : ∀ i, ∀ e ∈ l, read i e.1 e.2 = bytes e) (hf : fetch read i slots n = some slots') :
    Filled bytes slots' 0 n l := by
  induction n generalizing slots slots' i l with
  | zero => simp [Filled]
  | succ n ih =>
    cases l with
    | nil => simp [Filled]
    | cons e l =>
      obtain ⟨⟨s, hi, hv⟩, hw⟩ := h
      cases slots with
      | nil => cases hi
      | cons s' slots =>
        cases hi
        rw [fetch, if_pos hv.1, hv.2.2] at hf
        obtain ⟨_, ⟨⟩, hf⟩ := Option.bind_eq_some_iff.mp hf
        obtain ⟨rest, hrest, hf⟩ := Option.bind_eq_some_iff.mp hf
        cases hf
        refine ⟨⟨_, rfl, ?_⟩, filled_cons.mpr (ih (window_cons.mp hw) ?_ hrest)⟩
        · rw [hv.2.1]
          exact hr i e List.mem_cons_self
        · exact fun i a ha => hr i a (List.mem_cons_of_mem e ha)

/-- An iterator, and whether `value` was called at the start of its queues since
they were filled. -/
structure Visited (ρ : Type) where
  iter : DBIterator ρ
  fetched : Bool

inductive Visit where
  | next
  | value (mem : Nat → Nat → UInt8)

def valueOf (s : State) (mem : Nat → Nat → UInt8) (d : DBIterator Record) :
    Option (DBIterator Record × Value) :=
  d.value (fun k => s.index[k]?) (fun i => readValue s (mem i))

def visit (s : State) (c : Visited Record) : Visit → Option (Visited Record)
  | .next => c.iter.next.map fun d => ⟨d, c.fetched && decide (c.iter.cur + 1 ≠ c.iter.depth)⟩
  | .value mem => (valueOf s mem c.iter).map fun r => ⟨r.1, c.fetched || decide (c.iter.cur = 0)⟩

/-- `value` is called at the start of the queues, or it was called there. -/
def Prefetched (c : Visited ρ) : Visit → Prop
  | .next => True
  | .value _ => c.iter.cur = 0 ∨ c.fetched = true

instance (c : Visited ρ) : DecidablePred (Prefetched c)
  | .next => inferInstanceAs (Decidable True)
  | .value _ => inferInstanceAs (Decidable (_ ∨ _))

structure Reads (s : State) (entries : List (Key × Record)) (c : Visited Record)
    (rest : List (Key × Record)) : Prop where
  tracks : Tracks entries c.iter rest
  rest_subset : rest ⊆ entries
  filled : c.fetched = true →
    Filled (stored s) c.iter.slots c.iter.cur (c.iter.depth - c.iter.cur) rest

variable {entries : List (Key × Record)} {c : Visited Record} {e : Key × Record}
  {tail : List (Key × Record)}

theorem next_cur {d d' : DBIterator ρ} (hn : d.next = some d') (he : d.prefetchEna = true)
    (hc : d.cur + 1 ≠ d.depth) : d'.slots = d.slots ∧ d'.cur = d.cur + 1 ∧ d'.depth = d.depth := by
  rw [DBIterator.next, if_pos he, if_neg hc] at hn
  obtain ⟨s, -, hn⟩ := Option.bind_eq_some_iff.mp hn
  cases hn
  exact ⟨rfl, rfl, rfl⟩

theorem next_filled {d d' : DBIterator ρ} {e : Key × ρ} (hn : d.next = some d')
    (he : d.prefetchEna = true) (hlt : d.cur < d.depth) (hc : d.cur + 1 ≠ d.depth)
    (h : Filled bytes d.slots d.cur (d.depth - d.cur) (e :: l)) :
    Filled bytes d'.slots d'.cur (d'.depth - d'.cur) l := by
  obtain ⟨hs, hcur, hdep⟩ := next_cur hn he hc
  rw [show d.depth - d.cur = d.depth - (d.cur + 1) + 1 by omega] at h
  rw [hs, hcur, hdep]
  exact h.2

theorem value_filled (index : Key → Option ρ) {read : Nat → Key → ρ → Value}
    {entries tail : List (Key × ρ)} {d : DBIterator ρ} {e : Key × ρ}
    (h : Tracks entries d (e :: tail)) (hr : ∀ i, ∀ a ∈ e :: tail, read i a.1 a.2 = bytes a)
    (hp : d.cur ≠ 0 → Filled bytes d.slots d.cur (d.depth - d.cur) (e :: tail)) :
    ∃ d', d.value index read = some (d', bytes e) ∧ Tracks entries d' (e :: tail) ∧
      Filled bytes d'.slots d'.cur (d'.depth - d'.cur) (e :: tail) := by
  obtain ⟨m, hm⟩ := Nat.exists_eq_add_of_lt h.cur_lt
  obtain ⟨hc, slots', sl, hf, hsh, hsi, hv⟩ | ⟨hc, sl, hsi, hv⟩ := value_cases index read h
  · have hw := h.window
    rw [hc, Nat.sub_zero] at hw
    have hfill : Filled bytes slots' 0 d.depth (e :: tail) := fetch_filled hw hr hf
    refine ⟨{ d with slots := slots' }, ?_, fetched_tracks h hsh, ?_⟩
    · rw [show d.depth = m + 1 by omega] at hfill
      obtain ⟨⟨sl', hsi', hval⟩, -⟩ := hfill
      cases hsi.symm.trans hsi'
      rw [hv, hval]
    · change Filled bytes slots' d.cur (d.depth - d.cur) (e :: tail)
      rw [hc, Nat.sub_zero]
      exact hfill
  · have hfill := hp hc
    refine ⟨d, ?_, h, hfill⟩
    rw [show d.depth - d.cur = m + 1 by omega] at hfill
    obtain ⟨⟨sl', hsi', hval⟩, -⟩ := hfill
    cases hsi.symm.trans hsi'
    rw [hv, hval]

theorem next_reads (h : Reads s entries c (e :: tail)) :
    ∃ c', visit s c .next = some c' ∧ Reads s entries c' tail := by
  obtain ⟨d, hd, ht⟩ := next_tracks h.tracks
  refine ⟨⟨d, c.fetched && decide (c.iter.cur + 1 ≠ c.iter.depth)⟩, ?_, ht,
    (List.cons_subset.mp h.rest_subset).2, ?_⟩
  · rw [visit, hd]
    rfl
  · intro hf
    obtain ⟨hf, hc⟩ := Bool.and_eq_true_iff.mp hf
    exact next_filled hd h.tracks.ena h.tracks.cur_lt (of_decide_eq_true hc) (h.filled hf)

theorem value_reads (hs : Flushed s) (hi : ∀ e ∈ entries, s.index[e.1]? = some e.2)
    (h : Reads s entries c (e :: tail)) (hp : c.iter.cur = 0 ∨ c.fetched = true)
    (mem : Nat → Nat → UInt8) :
    ∃ d', valueOf s mem c.iter = some (d', stored s e) ∧
      Reads s entries ⟨d', c.fetched || decide (c.iter.cur = 0)⟩ (e :: tail) := by
  obtain ⟨d', hv, ht, hf⟩ := value_filled (fun k => s.index[k]?) h.tracks
    (fun i a ha => readValue_flushed (hs.le (hi a (h.rest_subset ha))))
    (fun hc => h.filled (hp.resolve_left hc))
  exact ⟨d', hv, ht, h.rest_subset, fun _ => hf⟩

def visitList (rest : List (Key × Record)) : Visit → List (Key × Record)
  | .next => rest.tail
  | .value _ => rest

theorem visit_reads (hs : Flushed s) (hi : ∀ e ∈ entries, s.index[e.1]? = some e.2)
    {rest : List (Key × Record)} (h : Reads s entries c rest) (hv : c.iter.valid = true) {v : Visit}
    (hp : Prefetched c v) :
    ∃ c', visit s c v = some c' ∧ Reads s entries c' (visitList rest v) := by
  rw [h.tracks.valid] at hv
  obtain ⟨e, tail, rfl⟩ := List.exists_cons_of_ne_nil (by simpa using hv : rest ≠ [])
  cases v with
  | next => exact next_reads h
  | value mem =>
    obtain ⟨d', hd, hr⟩ := value_reads hs hi h hp mem
    refine ⟨_, ?_, hr⟩
    rw [visit, hd]
    rfl

theorem position_reads {upper start : Option Key} {e : Nat} {d : DBIterator Record}
    (hd : position (DBIterator.new (.new s.index upper) true (2 ^ e)) start = some d) :
    Reads s (RocksIterator.new s.index upper).entries ⟨d, false⟩
      (range (RocksIterator.new s.index upper).entries start) := by
  have h := new_tracks (RocksIterator.new s.index upper) rfl e
  cases start with
  | none =>
    have hne : (RocksIterator.new s.index upper).entries ≠ [] := by
      intro he
      rw [he] at h
      cases (tracks_seekToFirst_nil h).symm.trans hd
    obtain ⟨d', hd', ht⟩ := seekToFirst_tracks h rfl rfl hne
    cases hd'.symm.trans hd
    exact ⟨ht, List.Subset.refl _, nofun⟩
  | some target =>
    obtain ⟨d', hd', ht⟩ := seek_tracks h rfl target
    cases hd'.symm.trans hd
    exact ⟨ht, List.filter_subset_self _, nofun⟩

/-- If `value` is called in every batch at its start before it is called
elsewhere, it returns the bytes stored for the current key. -/
theorem value_returns_stored (hs : Flushed s) {upper start : Option Key} {e : Nat}
    {d : DBIterator Record}
    (hd : position (DBIterator.new (.new s.index upper) true (2 ^ e)) start = some d)
    (visits : List Visit)
    (hl : AlongM (visit s) (fun c _ => c.iter.valid = true) ⟨d, false⟩ visits)
    (hp : AlongM (visit s) Prefetched ⟨d, false⟩ visits) :
    ∃ c, visits.foldlM (visit s) ⟨d, false⟩ = some c ∧
      (c.iter.valid = true → c.iter.cur = 0 ∨ c.fetched = true → ∀ mem, ∃ d' k r,
        valueOf s mem c.iter = some (d', stored s (k, r)) ∧ c.iter.key = some k ∧
          s.index[k]? = some r) := by
  have hi : ∀ e ∈ (RocksIterator.new s.index upper).entries, s.index[e.1]? = some e.2 :=
    fun e he => (((new_ordered s.index upper).mem_iff e.1 e.2).mp he).1
  obtain ⟨c, hc, hr⟩ := (hl.and hp).refines visitList
    (Reads s (RocksIterator.new s.index upper).entries) (position_reads hd)
    (fun c rest v h hp => visit_reads hs hi h hp.1 hp.2)
  refine ⟨c, hc, fun hv hcur mem => ?_⟩
  rw [hr.tracks.valid] at hv
  obtain ⟨e, tail, he⟩ := List.exists_cons_of_ne_nil (by simpa using hv)
  rw [he] at hr
  obtain ⟨d', hval, -⟩ := value_reads hs hi hr hcur mem
  exact ⟨d', e.1, e.2, hval, hr.tracks.key_eq,
    hi e (hr.rest_subset List.mem_cons_self)⟩

def threeValues : State :=
  [Sequential.Op.put [1] [11], .put [2] [12], .put [3] [13], .flush].foldl
    (Sequential.step ⟨32768, 0⟩) (openFresh ⟨32768, 0⟩ fun _ _ => 0)

def started : Option (DBIterator Record) :=
  position (DBIterator.new (.new threeValues.index none) true (2 ^ 1)) (some [1])

theorem value_returns_stored_second :
    ∃ d c, started = some d ∧
      [Visit.next, .value fun _ _ => 0, .next].foldlM (visit threeValues) ⟨d, false⟩ = some c ∧
      ∃ d' k r, valueOf threeValues (fun _ _ => 0) c.iter = some (d', stored threeValues (k, r)) ∧
        c.iter.key = some k ∧ threeValues.index[k]? = some r := by
  have hrun : (started.bind fun d => [Visit.next, .value fun _ _ => 0, .next].foldlM
      (visit threeValues) ⟨d, false⟩).map (fun c => (c.iter.valid, c.fetched)) =
        some (true, true) := by
    decide +kernel
  have hleg : ∀ d ∈ started, AlongM (visit threeValues) (fun c _ => c.iter.valid = true) ⟨d, false⟩
      [.next, .value fun _ _ => 0, .next] := by
    decide +kernel
  have hpre : ∀ d ∈ started, AlongM (visit threeValues) Prefetched ⟨d, false⟩
      [.next, .value fun _ _ => 0, .next] := by
    decide +kernel
  obtain ⟨c, hc, he⟩ := Option.map_eq_some_iff.mp hrun
  obtain ⟨d, hd, hc⟩ := Option.bind_eq_some_iff.mp hc
  obtain ⟨c', hc', hv⟩ := value_returns_stored (by decide +kernel) hd _ (hleg d hd) (hpre d hd)
  cases hc.symm.trans hc'
  simp only [Prod.mk.injEq] at he
  exact ⟨d, c, hd, hc, hv he.1 (Or.inr he.2) _⟩

/-- The second batch is entered without a call of `value`, and its second value
is not there. -/
theorem value_not_fetched :
    (started.bind fun d => [Visit.next, .next].foldlM (visit threeValues) ⟨d, false⟩).bind
        (fun c => (valueOf threeValues (fun _ _ => 0) c.iter).map
          fun r => (c.iter.valid, c.iter.key, r.2)) = some (true, some [3], []) ∧
      (threeValues.index[([3] : Key)]?).map (fun r => stored threeValues ([3], r)) =
        some [13] ∧ Flushed threeValues := by
  decide +kernel

end WiscKey.IteratorValues
