import WiscKey.BufferCoverage
import WiscKey.IteratorValues

namespace WiscKey.IteratorStore

open WiscKey.Bytes WiscKey.ValueLog WiscKey.LogLayout WiscKey.LogRecords WiscKey.Database
  WiscKey.Representation WiscKey.Sequential WiscKey.BufferCoverage WiscKey.Iterator
  WiscKey.IteratorQueue WiscKey.IteratorScan WiscKey.IteratorValues

/-- The loop over an iterator until it is not valid, with the number of rounds
left and what is in memory in each of them. -/
def collect (s : State) (mem : Nat → Nat → UInt8) :
    Nat → DBIterator Record → Option (List (Key × Value))
  | 0, d => if d.valid then none else some []
  | n + 1, d =>
    if d.valid then do
      let k ← d.key
      let (d, v) ← valueOf s (fun _ => mem n) d
      let d ← d.next
      let l ← collect s mem n d
      return (k, v) :: l
    else some []

/-- A list has the keys of a map in order, each once and with its value. -/
structure Enumerates (m : Store) (l : List (Key × Value)) : Prop where
  sorted : l.Pairwise fun a b => compare a.1 b.1 = .lt
  mem_iff : ∀ k v, (k, v) ∈ l ↔ m k = some v

def storeIterator (s : State) : DBIterator Record := .new (.new s.index none) false 0

variable {s : State} {mem : Nat → Nat → UInt8} {d : DBIterator Record}
  {entries rest : List (Key × Record)} {f : Key × Record → Value}

theorem valueOf_plain {e : Key × Record} (h : Plain entries d (e :: rest)) :
    valueOf s mem d = s.index[e.1]?.map fun r => (d, readValue s (mem 0) e.1 r) := by
  rw [valueOf, DBIterator.value, if_neg (by rw [h.ena]; exact Bool.false_ne_true), plain_key h,
    Option.map_eq_bind]
  rfl

theorem collect_eq (hi : ∀ e ∈ rest, s.index[e.1]? = some e.2)
    (hf : ∀ e ∈ rest, ∀ n, readValue s (mem n) e.1 e.2 = f e) (h : Plain entries d rest) (n : Nat) :
    collect s mem n d =
      if rest.length ≤ n then some (rest.map fun e => (e.1, f e)) else none := by
  induction n generalizing d rest with
  | zero =>
    cases rest with
    | nil =>
      have hv : d.valid = false := h.valid
      simp [collect, hv]
    | cons e rest =>
      have hv : d.valid = true := h.valid
      simp [collect, hv]
  | succ n ih =>
    cases rest with
    | nil =>
      have hv : d.valid = false := h.valid
      simp [collect, hv]
    | cons e rest =>
      have hv : d.valid = true := h.valid
      obtain ⟨d', hd, hp⟩ := plain_next h
      have hval : valueOf s (fun _ => mem n) d = some (d, f e) := by
        rw [valueOf_plain h, hi e List.mem_cons_self, Option.map_some, hf e List.mem_cons_self]
      have hrest := ih (fun a ha => hi a (List.mem_cons_of_mem e ha))
        (fun a ha => hf a (List.mem_cons_of_mem e ha)) hp
      simp only [collect, hv, if_true, plain_key h, hval, hd, hrest, Option.bind_eq_bind,
        Option.bind_some, List.length_cons, Nat.add_le_add_iff_right]
      split
      · rfl
      · rfl

theorem new_entries (s : State) : (RocksIterator.new s.index none).entries = s.index.toList :=
  List.filter_eq_self.mpr (fun _ _ => rfl)

theorem collect_store (mem : Nat → Nat → UInt8)
    (hf : ∀ e ∈ s.index.toList, ∀ n, readValue s (mem n) e.1 e.2 = f e) :
    ∃ d, (storeIterator s).seekToFirst = some d ∧ ∀ n, collect s mem n d =
      if s.index.toList.length ≤ n then some (s.index.toList.map fun e => (e.1, f e))
      else none := by
  have h0 : Plain (RocksIterator.new s.index none).entries (storeIterator s) [] :=
    ⟨rfl, rfl, rfl, rfl⟩
  obtain ⟨d, hd, hp⟩ := plain_position h0 none
  rw [range, new_entries] at hp
  refine ⟨d, hd, collect_eq (fun e ha => ?_) hf hp⟩
  exact Std.ExtTreeMap.mem_toList_iff_getElem?_eq_some.mp ha

variable {o : Options} {m : Store} {k : Key} {r : Record} {v : Value}

theorem stored_eq (h : Represents o m s) (hr : s.index[k]? = some r) (hm : m k = some v)
    (hl : r.offset + r.size ≤ (s.log k).file.length) : stored s (k, r) = v := by
  obtain ⟨w, hw, hs⟩ := h.stored hr
  cases hm.symm.trans hw
  have hwin := (h.layout_log k).toWithin
  rw [stored, ← file_slice hwin (hwin.lba_eq ▸ hl), hs.size_eq, hs.bytes]

theorem readValue_unflushed {size : Nat} (h : Within size (s.log k)) (hl : (s.log k).lba ≤ r.offset)
    (b : UInt8) : readValue s (fun _ => b) k r = List.replicate r.size b := by
  have ha := roundDown_le r.offset pageSize
  have hr := le_roundUp (r.offset - roundDown r.offset pageSize + r.size) (m := pageSize)
    (by decide)
  have hle := le_roundDown h.lba_dvd hl
  have hdata : alignedRead (s.log k).file r = [] := by
    apply List.eq_nil_of_length_eq_zero
    rw [alignedRead, length_slice, ← h.lba_eq]
    omega
  rw [readValue, readBuffer, hdata, List.nil_append, List.length_nil, Nat.sub_zero,
    List.map_const', List.length_range', cut, slice, List.drop_replicate, List.take_replicate]
  congr 1
  omega

theorem index_of_live (h : Represents o m s) (hm : m k = some v) : ∃ r, s.index[k]? = some r := by
  have hrel := h.records k
  rw [hm] at hrel
  cases hi : s.index[k]? with
  | none =>
    rw [hi] at hrel
    cases hrel
  | some r => exact ⟨r, rfl⟩

def snapshot (s : State) (upper : Option Key) : List (Key × Value) :=
  (RocksIterator.new s.index upper).entries.map fun e => (e.1, stored s e)

theorem snapshot_enumerates (h : Represents o m s) (hf : Flushed s) (upper : Option Key) :
    Enumerates (fun k => if belowUpper upper k then m k else none) (snapshot s upper) where
  sorted := by
    rw [snapshot, List.pairwise_map]
    exact (new_ordered s.index upper).sorted
  mem_iff k v := by
    rw [snapshot, List.mem_map, Option.ite_none_right_eq_some]
    constructor
    · rintro ⟨⟨k', r⟩, hmem, he⟩
      obtain ⟨hmem, hu⟩ := List.mem_filter.mp hmem
      have hr := Std.ExtTreeMap.mem_toList_iff_getElem?_eq_some.mp hmem
      cases he
      obtain ⟨w, hw, -⟩ := h.stored hr
      rw [stored_eq h hr hw (hf.le hr)]
      exact ⟨hu, hw⟩
    · rintro ⟨hu, hm⟩
      obtain ⟨r, hr⟩ := index_of_live h hm
      have hmem := Std.ExtTreeMap.mem_toList_iff_getElem?_eq_some.mpr hr
      refine ⟨(k, r), List.mem_filter.mpr ⟨hmem, hu⟩, ?_⟩
      rw [stored_eq h hr hm (hf.le hr)]

theorem flushed_of_enumerates (h : Represents o m s) (hpos : Positive m)
    (he : ∀ b : UInt8, Enumerates m
      (s.index.toList.map fun e => (e.1, readValue s (fun _ => b) e.1 e.2))) : Flushed s := by
  rintro ⟨k, r⟩ hmem
  have hr := Std.ExtTreeMap.mem_toList_iff_getElem?_eq_some.mp hmem
  obtain ⟨v, hv, hs⟩ := h.stored hr
  have hwin := (h.layout_log k).toWithin
  obtain hl | hl := hs.whole
  · exact hwin.lba_eq ▸ hl
  · have hval : ∀ b : UInt8, v = List.replicate r.size b := by
      intro b
      have hb := ((he b).mem_iff k (readValue s (fun _ => b) k r)).mp
        (List.mem_map.mpr ⟨(k, r), hmem, rfl⟩)
      cases hv.symm.trans hb
      exact readValue_unflushed hwin hl b
    have h01 := (hval 0).symm.trans (hval 1)
    have hlen := hpos k v hv
    rw [← hs.size_eq] at hlen
    obtain ⟨n, hn⟩ := Nat.exists_eq_succ_of_ne_zero hlen.ne'
    rw [hn] at h01
    cases h01

/-- A scan of the store gives the live keys in order with the values last put,
whatever is in memory, just when no live value is in a log buffer only. -/
theorem iterator_enumerates_iff (hb : PageBuffer o.logBufSize) (mem₀ : Fin 4 → Nat → UInt8)
    {ops : List Op} (hsized : ∀ op ∈ ops, op.Sized) :
    (∀ mem, ∃ d n l,
      (storeIterator (ops.foldl (step o) (openFresh o mem₀))).seekToFirst = some d ∧
      collect (ops.foldl (step o) (openFresh o mem₀)) mem n d = some l ∧
      Enumerates (lastWrite ops) l) ↔
    Flushed (ops.foldl (step o) (openFresh o mem₀)) := by
  obtain ⟨h, hpos⟩ := run_represents hb mem₀ hsized
  constructor
  · intro hall
    refine flushed_of_enumerates h hpos (fun b => ?_)
    obtain ⟨d, n, l, hd, hl, he⟩ := hall (fun _ _ => b)
    obtain ⟨d', hd', hc⟩ := collect_store (fun _ _ => b) (fun _ _ _ => rfl)
    cases hd'.symm.trans hd
    rw [hc n] at hl
    obtain ⟨-, hl⟩ := Option.ite_none_right_eq_some.mp hl
    cases hl
    exact he
  · intro hf mem
    obtain ⟨d, hd, hc⟩ := collect_store mem (f := stored _) (fun e he _ =>
      readValue_flushed (hf.le (Std.ExtTreeMap.mem_toList_iff_getElem?_eq_some.mp he)))
    have he := snapshot_enumerates h hf none
    rw [snapshot, new_entries] at he
    exact ⟨d, _, _, hd, (hc _).trans (if_pos le_rfl), he⟩

def twoValues : List Op := [.put [2] [12], .put [1] [11], .delete [2], .put [2] [22], .flush]

theorem iterator_enumerates_two :
    ∃ d n l, (storeIterator (twoValues.foldl (step ⟨32768, 0⟩)
        (openFresh ⟨32768, 0⟩ fun _ _ => 0))).seekToFirst = some d ∧
      collect (twoValues.foldl (step ⟨32768, 0⟩) (openFresh ⟨32768, 0⟩ fun _ _ => 0))
        (fun _ _ => 0) n d = some l ∧ Enumerates (lastWrite twoValues) l :=
  (iterator_enumerates_iff (by decide) (fun _ _ => 0) (by decide)).mpr (by decide +kernel) _

/-- The value is still in the log buffer, and the iterator shows a byte of the
memory. -/
theorem iterator_reads_noise :
    (storeIterator (step ⟨32768, 0⟩ (openFresh ⟨32768, 0⟩ fun _ _ => 0)
        (.put [1] [11]))).seekToFirst.bind
      (collect (step ⟨32768, 0⟩ (openFresh ⟨32768, 0⟩ fun _ _ => 0) (.put [1] [11]))
        (fun _ _ => 0) 1) = some [([1], [0])] ∧
      lastWrite [.put [1] [11]] [1] = some [11] := by
  decide +kernel

end WiscKey.IteratorStore
