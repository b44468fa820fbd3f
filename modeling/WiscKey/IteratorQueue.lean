import WiscKey.Iterator
import Mathlib

namespace WiscKey.IteratorQueue

open WiscKey.Database WiscKey.Iterator

variable {ρ : Type}

def Shows (s : Slot ρ) (e : Key × ρ) : Prop := s.valid = true ∧ s.key = e.1 ∧ s.pkey = some e.2

/-- The slots from a position on show the entries of a list, as far as a number
of slots goes. Behind a list that ends before there is an invalid slot. -/
def Window (slots : List (Slot ρ)) (i : Nat) : Nat → List (Key × ρ) → Prop
  | 0, _ => True
  | _ + 1, [] => ∃ s, slots[i]? = some s ∧ s.valid = false
  | n + 1, e :: l => (∃ s, slots[i]? = some s ∧ Shows s e) ∧ Window slots (i + 1) n l

structure Loaded (slots slots' : List (Slot ρ)) (i : Nat) (p : Slot ρ → Prop) : Prop where
  length : slots'.length = slots.length
  others : ∀ j, j ≠ i → slots'[j]? = slots[j]?
  slot : ∃ s, slots'[i]? = some s ∧ p s

variable {slots slots' : List (Slot ρ)} {it : RocksIterator ρ} {i n : Nat} {e : Key × ρ}
  {l : List (Key × ρ)}

theorem setSlot_loaded {p : Slot ρ → Prop} {f : Slot ρ → Slot ρ} (hi : i < slots.length)
    (hf : ∀ s ∈ slots[i]?, p (f s)) :
    ∃ slots', setSlot slots i f = some slots' ∧ Loaded slots slots' i p := by
  refine ⟨slots.modify i f, if_pos hi, ?_, ?_, ?_⟩
  · exact List.length_modify _ _ _
  · intro j hj
    simp [Ne.symm hj]
  · have hs := List.getElem?_eq_getElem hi
    refine ⟨f slots[i], ?_, hf _ hs⟩
    simp [hs]

theorem load_some (hi : i < slots.length) (he : it.rest = e :: l) :
    ∃ slots', load slots i it = some slots' ∧ Loaded slots slots' i (Shows · e) := by
  rw [load, RocksIterator.entry, he]
  exact setSlot_loaded hi (fun s _ => ⟨rfl, rfl, rfl⟩)

theorem load_none (hi : i < slots.length) (he : it.rest = []) :
    ∃ slots', load slots i it = some slots' ∧ Loaded slots slots' i (·.valid = false) := by
  rw [load, RocksIterator.entry, he]
  exact setSlot_loaded hi (fun s _ => rfl)

theorem next_eq (he : it.rest = e :: l) : it.next = some { it with rest := l } := by
  rw [RocksIterator.next, he]

theorem valid_cons (he : it.rest = e :: l) : it.valid = true := by
  rw [RocksIterator.valid, he]
  rfl

theorem valid_nil (he : it.rest = []) : it.valid = false := by
  rw [RocksIterator.valid, he]
  rfl

structure Refilled (it it' : RocksIterator ρ) (slots slots' : List (Slot ρ)) (i n : Nat)
    (l : List (Key × ρ)) : Prop where
  entries : it'.entries = it.entries
  rest : it'.rest = it.rest.drop n
  length : slots'.length = slots.length
  before : ∀ j, j < i → slots'[j]? = slots[j]?
  window : Window slots' i n l

theorem refill_refilled (he : it.rest = e :: l) (hi : i + n ≤ slots.length) :
    ∃ it' slots', refill it slots i n = some (it', slots') ∧
      Refilled it it' slots slots' i n l := by
  induction n generalizing it slots i e l with
  | zero => exact ⟨it, slots, rfl, rfl, rfl, rfl, fun _ _ => rfl, trivial⟩
  | succ n ih =>
    cases l with
    | nil =>
      have hr : RocksIterator.rest { it with rest := [] } = [] := rfl
      obtain ⟨slots', hl, hs⟩ := load_none (by omega : i < slots.length) hr
      refine ⟨{ it with rest := [] }, slots', ?_, rfl, ?_, hs.length,
        fun j hj => hs.others j (by omega), hs.slot⟩
      · simp only [refill, next_eq he, Option.bind_eq_bind, Option.bind_some, hl, valid_nil hr,
          Bool.false_eq_true, if_false]
      · rw [he, List.drop_succ_cons, List.drop_nil]
    | cons e' l =>
      have hr : RocksIterator.rest { it with rest := e' :: l } = e' :: l := rfl
      obtain ⟨slots', hl, hs⟩ := load_some (by omega : i < slots.length) hr
      obtain ⟨it', slots'', hf, hi'⟩ := ih hr (by rw [hs.length]; omega : i + 1 + n ≤ slots'.length)
      refine ⟨it', slots'', ?_, hi'.entries, ?_, hi'.length.trans hs.length, fun j hj => ?_, ?_⟩
      · simp only [refill, next_eq he, Option.bind_eq_bind, Option.bind_some, hl, valid_cons hr, hf,
          if_true]
      · rw [hi'.rest, he, List.drop_succ_cons]
      · rw [hi'.before j (by omega), hs.others j (by omega)]
      · obtain ⟨s, hsi, hv⟩ := hs.slot
        exact ⟨⟨s, (hi'.before i (by omega)).trans hsi, hv⟩, hi'.window⟩

theorem refillValid_nil (he : it.rest = []) : refillValid it slots i n = some (it, slots) := by
  induction n generalizing i with
  | zero => rfl
  | succ n ih =>
    rw [refillValid, valid_nil he, if_neg Bool.false_ne_true]
    exact ih

theorem refillValid_cons (he : it.rest = e :: l) :
    refillValid it slots i n = refill it slots i n := by
  induction n generalizing it slots i e l with
  | zero => rfl
  | succ n ih =>
    rw [refillValid, valid_cons he, if_pos rfl, refill, next_eq he]
    cases l with
    | nil => rfl
    | cons e' l =>
      have hr : RocksIterator.rest { it with rest := e' :: l } = e' :: l := rfl
      simp only [Option.bind_eq_bind, Option.bind_some, valid_cons hr, if_true, ih hr]

def shape (s : Slot ρ) : Key × Option ρ × Bool := (s.key, s.pkey, s.valid)

theorem getElem?_of_shape (hs : slots'.map shape = slots.map shape) {s : Slot ρ}
    (hi : slots[i]? = some s) : ∃ s', slots'[i]? = some s' ∧ shape s' = shape s := by
  have hm : (slots'.map shape)[i]? = some (shape s) := by
    rw [hs, List.getElem?_map, hi]
    rfl
  rw [List.getElem?_map] at hm
  exact Option.map_eq_some_iff.mp hm

theorem Shows.of_shape {s s' : Slot ρ} (hs : shape s' = shape s) (h : Shows s e) : Shows s' e := by
  simp only [shape, Prod.mk.injEq] at hs
  exact ⟨hs.2.2.trans h.1, hs.1.trans h.2.1, hs.2.1.trans h.2.2⟩

theorem Window.of_shape (h : Window slots i n l) (hs : slots'.map shape = slots.map shape) :
    Window slots' i n l := by
  induction n generalizing i l with
  | zero => trivial
  | succ n ih =>
    cases l with
    | nil =>
      obtain ⟨s, hi, hv⟩ := h
      obtain ⟨s', hi', he⟩ := getElem?_of_shape hs hi
      exact ⟨s', hi', (congrArg (·.2.2) he).trans hv⟩
    | cons e l =>
      obtain ⟨⟨s, hi, hv⟩, hw⟩ := h
      obtain ⟨s', hi', he⟩ := getElem?_of_shape hs hi
      exact ⟨⟨s', hi', hv.of_shape he⟩, ih hw⟩

theorem window_cons {s : Slot ρ} : Window (s :: slots) (i + 1) n l ↔ Window slots i n l := by
  induction n generalizing i l with
  | zero => rfl
  | succ n ih =>
    cases l with
    | nil => simp [Window]
    | cons e l => simp [Window, ih]

theorem fetch_shape {read : Nat → Key → ρ → Value} (h : Window slots 0 n l)
    (hn : n ≤ slots.length) :
    ∃ slots', fetch read i slots n = some slots' ∧ slots'.map shape = slots.map shape := by
  induction n generalizing slots i l with
  | zero => exact ⟨slots, by rw [fetch], rfl⟩
  | succ n ih =>
    cases slots with
    | nil => cases hn
    | cons s slots =>
      rw [fetch]
      cases l with
      | nil =>
        obtain ⟨_, hi, hv⟩ := h
        cases hi
        exact ⟨s :: slots, by rw [hv]; rfl, rfl⟩
      | cons e l =>
        obtain ⟨⟨_, hi, hv⟩, hw⟩ := h
        cases hi
        obtain ⟨slots', hf, hs⟩ := ih (i := i + 1) (window_cons.mp hw) (by simpa using hn)
        refine ⟨{ s with value := read i s.key e.2 } :: slots', ?_, ?_⟩
        · rw [hv.1, if_pos rfl, hv.2.2, hf]
          rfl
        · rw [List.map_cons, List.map_cons, hs]
          rfl

/-- With prefetching, the entries from the current one on are the list, and the
queues and the iterator of RocksDB are ahead of the cursor by the slots left. -/
structure Tracks (entries : List (Key × ρ)) (d : DBIterator ρ) (rest : List (Key × ρ)) :
    Prop where
  ena : d.prefetchEna = true
  entries_eq : d.it.entries = entries
  size : d.slots.length = d.prefetchDepth
  power : ∃ i j, d.depth = 2 ^ i ∧ d.prefetchDepth = 2 ^ (i + j)
  cur_lt : d.cur < d.depth
  window : Window d.slots d.cur (d.depth - d.cur) rest
  it_rest : d.it.rest = rest.drop (d.depth - d.cur - 1)
  valid : d.valid = !rest.isEmpty

variable {entries rest : List (Key × ρ)} {d : DBIterator ρ}

theorem new_tracks (it : RocksIterator ρ) (hr : it.rest = []) (e : Nat) :
    Tracks it.entries (DBIterator.new it true (2 ^ e)) [] where
  ena := rfl
  entries_eq := rfl
  size := List.length_replicate
  power := ⟨0, e, rfl, by rw [Nat.zero_add]; rfl⟩
  cur_lt := Nat.one_pos
  window := by
    refine ⟨Slot.empty, ?_, rfl⟩
    exact List.getElem?_replicate_of_lt (by positivity)
  it_rest := hr
  valid := rfl

theorem Tracks.depth_le (h : Tracks entries d rest) : d.depth ≤ d.slots.length := by
  obtain ⟨i, j, hd, hp⟩ := h.power
  rw [h.size, hd, hp]
  exact Nat.pow_le_pow_right Nat.two_pos (Nat.le_add_right i j)

theorem Tracks.key_eq (h : Tracks entries d (e :: l)) : d.key = some e.1 := by
  have hw := h.window
  obtain ⟨n, hn⟩ := Nat.exists_eq_add_of_lt h.cur_lt
  rw [show d.depth - d.cur = n + 1 by omega] at hw
  obtain ⟨⟨s, hs, -, hk, -⟩, -⟩ := hw
  rw [DBIterator.key, h.ena, if_pos rfl, hs, Option.map_some, hk]

theorem nextDepth_power {i j : Nat} (hd : d.depth = 2 ^ i) (hp : d.prefetchDepth = 2 ^ (i + j)) :
    ∃ i j, d.nextDepth = 2 ^ i ∧ d.prefetchDepth = 2 ^ (i + j) := by
  have hpos : d.depth ≠ 0 := by
    rw [hd]
    positivity
  rw [DBIterator.nextDepth, if_neg hpos]
  split
  · rename_i hlt
    have hj : j ≠ 0 := by
      rintro rfl
      rw [hd, hp, Nat.add_zero] at hlt
      exact lt_irrefl _ hlt
    obtain ⟨m, rfl⟩ := Nat.exists_eq_succ_of_ne_zero hj
    refine ⟨i + 1, m, ?_, ?_⟩
    · rw [hd, Nat.shiftLeft_eq, pow_one, pow_succ]
    · rw [hp]
      congr 1
      omega
  · exact ⟨i, j, hd, hp⟩

theorem Tracks.nextDepth (h : Tracks entries d rest) :
    ∃ i j, d.nextDepth = 2 ^ i ∧ d.prefetchDepth = 2 ^ (i + j) := by
  obtain ⟨i, j, hd, hp⟩ := h.power
  exact nextDepth_power hd hp

theorem window_valid {m : Nat} (h : Window slots i (m + 1) l) :
    ∃ s, slots[i]? = some s ∧ s.valid = !l.isEmpty := by
  cases l with
  | nil => exact h
  | cons e l =>
    obtain ⟨⟨s, hs, hv⟩, -⟩ := h
    exact ⟨s, hs, hv.1⟩

theorem next_tracks (h : Tracks entries d (e :: l)) :
    ∃ d', d.next = some d' ∧ Tracks entries d' l := by
  obtain ⟨m, hm⟩ := Nat.exists_eq_add_of_lt h.cur_lt
  have hw := h.window
  rw [show d.depth - d.cur = m + 1 by omega] at hw
  rw [DBIterator.next, if_pos h.ena]
  by_cases hc : d.cur + 1 = d.depth
  · have hit : d.it.rest = e :: l := by
      rw [h.it_rest, show d.depth - d.cur - 1 = 0 by omega, List.drop_zero]
    obtain ⟨i, j, hd, hp⟩ := h.nextDepth
    have hle : 0 + d.nextDepth ≤ d.slots.length := by
      rw [h.size, hd, hp, Nat.zero_add]
      exact Nat.pow_le_pow_right Nat.two_pos (Nat.le_add_right i j)
    obtain ⟨it', slots', hf, hr⟩ := refill_refilled hit hle
    have hpos : 0 < d.nextDepth := by
      rw [hd]
      positivity
    obtain ⟨q, hq⟩ := Nat.exists_eq_succ_of_ne_zero hpos.ne'
    have hwin := hr.window
    rw [hq] at hwin
    obtain ⟨s, hs, hv⟩ := window_valid hwin
    refine ⟨{ d with it := it', slots := slots', depth := d.nextDepth, cur := 0, valid := s.valid },
      ?_, ?_⟩
    · rw [if_pos hc, hf]
      simp only [Option.bind_eq_bind, Option.bind_some, hs]
      rfl
    · refine ⟨h.ena, hr.entries.trans h.entries_eq, hr.length.trans h.size, ⟨i, j, hd, hp⟩, hpos,
        hr.window, ?_, hv⟩
      rw [hr.rest, hit, hq]
      rfl
  · obtain ⟨q, rfl⟩ := Nat.exists_eq_succ_of_ne_zero (by omega : m ≠ 0)
    obtain ⟨s, hs, hv⟩ := window_valid hw.2
    refine ⟨{ d with cur := d.cur + 1, valid := s.valid }, ?_, ?_⟩
    · rw [if_neg hc, hs]
      rfl
    · refine ⟨h.ena, h.entries_eq, h.size, h.power, (by omega : d.cur + 1 < d.depth), ?_, ?_, hv⟩
      · rw [show d.depth - (d.cur + 1) = q + 1 by omega]
        exact hw.2
      · rw [h.it_rest, show d.depth - d.cur - 1 = q + 1 by omega, List.drop_succ_cons,
          show d.depth - (d.cur + 1) - 1 = q by omega]

theorem seek_tracks (h : Tracks entries d rest) (hc : d.cur = 0) (target : Key) :
    ∃ d', d.seek target = some d' ∧
      Tracks entries d' (entries.filter fun e => (compare target e.1).isLE) := by
  have hlt := h.cur_lt
  have hpos : 0 < d.slots.length := lt_of_lt_of_le (Nat.zero_lt_of_lt hlt) h.depth_le
  obtain ⟨m, hm⟩ := Nat.exists_eq_succ_of_ne_zero (Nat.ne_zero_of_lt hlt)
  have hit : (d.it.seek target).rest = entries.filter fun e => (compare target e.1).isLE := by
    rw [← h.entries_eq]
    rfl
  rw [DBIterator.seek, if_pos h.ena]
  cases hl : entries.filter (fun e => (compare target e.1).isLE) with
  | nil =>
    rw [hl] at hit
    obtain ⟨slots', hs, hload⟩ := load_none hpos hit
    refine ⟨{ d with it := d.it.seek target, valid := false, slots := slots' }, ?_, ?_⟩
    · simp only [hs, refillValid_nil hit, Option.bind_eq_bind, Option.bind_some, valid_nil hit]
      rfl
    · refine ⟨h.ena, h.entries_eq, hload.length.trans h.size, h.power, h.cur_lt, ?_, ?_, rfl⟩
      · simp only [hc, hm, Nat.sub_zero]
        exact hload.slot
      · rw [hit, List.drop_nil]
  | cons e l =>
    rw [hl] at hit
    obtain ⟨slots', hs, hload⟩ := load_some hpos hit
    have hle : 1 + m ≤ slots'.length := by
      rw [hload.length]
      have hd := h.depth_le
      omega
    obtain ⟨it', slots'', hf, hr⟩ := refill_refilled hit hle
    rw [← refillValid_cons hit] at hf
    refine ⟨{ d with it := it', valid := true, slots := slots'' }, ?_, ?_⟩
    · rw [show d.depth - 1 = m by omega]
      simp only [hs, hf, Option.bind_eq_bind, Option.bind_some, valid_cons hit]
      rfl
    · refine ⟨h.ena, hr.entries.trans h.entries_eq, hr.length.trans (hload.length.trans h.size),
        h.power, h.cur_lt, ?_, ?_, rfl⟩
      · simp only [hc, hm, Nat.sub_zero]
        obtain ⟨s, hsi, hv⟩ := hload.slot
        exact ⟨⟨s, (hr.before 0 Nat.one_pos).trans hsi, hv⟩, hr.window⟩
      · simp only [hc, hm]
        rw [hr.rest, hit]
        rfl

theorem seekToFirst_tracks (h : Tracks entries d rest) (hc : d.cur = 0) (hd : d.depth = 1)
    (hne : entries ≠ []) : ∃ d', d.seekToFirst = some d' ∧ Tracks entries d' entries := by
  have hpos : 0 < d.slots.length := lt_of_lt_of_le (Nat.zero_lt_of_lt h.cur_lt) h.depth_le
  obtain ⟨e, l, he⟩ := List.exists_cons_of_ne_nil hne
  have hit : d.it.seekToFirst.rest = e :: l := by
    rw [← he, ← h.entries_eq]
    rfl
  obtain ⟨slots', hs, hload⟩ := load_some hpos hit
  obtain ⟨s, hsi, hv⟩ := hload.slot
  have hpos' : 0 < slots'.length := by
    rw [hload.length]
    exact hpos
  have hset : ∃ slots'', setSlot slots' 0 (fun s => { s with pkey := some e.2 }) = some slots'' ∧
      Loaded slots' slots'' 0 (Shows · e) := by
    apply setSlot_loaded hpos'
    intro s' hs'
    cases hsi.symm.trans hs'
    exact ⟨hv.1, hv.2.1, rfl⟩
  obtain ⟨slots'', hs'', hload'⟩ := hset
  refine ⟨{ d with it := d.it.seekToFirst, valid := true, slots := slots'' }, ?_, ?_⟩
  · rw [DBIterator.seekToFirst, if_pos h.ena]
    simp only [hs, RocksIterator.entry, hit, List.head?_cons, Option.bind_eq_bind, Option.bind_some,
      hs'', valid_cons hit]
    rfl
  · refine ⟨h.ena, h.entries_eq, hload'.length.trans (hload.length.trans h.size), h.power,
      h.cur_lt, ?_, ?_, ?_⟩
    · simp only [hc, hd, he]
      exact ⟨hload'.slot, trivial⟩
    · simp only [hc, hd, he]
      rw [hit]
      rfl
    · rw [he]
      rfl

end WiscKey.IteratorQueue
