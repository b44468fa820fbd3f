import WiscKey.IteratorScan

namespace WiscKey.IteratorHistory

open WiscKey.Runs WiscKey.Database WiscKey.Iterator WiscKey.IteratorQueue WiscKey.IteratorScan

variable {ρ : Type}

def listStep (entries rest : List (Key × ρ)) : Op ρ → List (Key × ρ)
  | .seekToFirst => range entries none
  | .seek target => range entries (some target)
  | .next => rest.tail
  | .value _ => rest

def Legal (d : DBIterator ρ) : Op ρ → Prop
  | .next | .value _ => d.valid = true
  | .seekToFirst | .seek _ => True

/-- The iterator is moved to a new position when the cursor is at the start of
the queues. `SeekToFirst` moreover comes before the first batch, and finds an
entry. -/
def Aligned (d : DBIterator ρ) : Op ρ → Prop
  | .seek _ => d.cur = 0
  | .seekToFirst => d.cur = 0 ∧ d.depth = 1 ∧ d.it.entries.isEmpty = false
  | .next | .value _ => True

instance (d : DBIterator ρ) : DecidablePred (Legal d)
  | .next | .value _ => inferInstanceAs (Decidable (d.valid = true))
  | .seekToFirst | .seek _ => inferInstanceAs (Decidable True)

instance (d : DBIterator ρ) : DecidablePred (Aligned d)
  | .seek _ => inferInstanceAs (Decidable (d.cur = 0))
  | .seekToFirst => inferInstanceAs
      (Decidable (d.cur = 0 ∧ d.depth = 1 ∧ d.it.entries.isEmpty = false))
  | .next | .value _ => inferInstanceAs (Decidable True)

variable {entries rest l : List (Key × ρ)} {d : DBIterator ρ} {e : Key × ρ}

theorem value_cases (index : Key → Option ρ) (read : Nat → Key → ρ → Value)
    (h : Tracks entries d (e :: l)) :
    (d.cur = 0 ∧ ∃ slots' s, fetch read 0 d.slots d.depth = some slots' ∧
      slots'.map shape = d.slots.map shape ∧ slots'[0]? = some s ∧
      d.value index read = some ({ d with slots := slots' }, s.value)) ∨
    d.cur ≠ 0 ∧ ∃ s, d.slots[d.cur]? = some s ∧ d.value index read = some (d, s.value) := by
  obtain ⟨m, hm⟩ := Nat.exists_eq_add_of_lt h.cur_lt
  have hw := h.window
  rw [show d.depth - d.cur = m + 1 by omega] at hw
  rw [DBIterator.value, if_pos h.ena]
  by_cases hc : d.cur = 0
  · rw [hc, show m + 1 = d.depth by omega] at hw
    obtain ⟨slots', hf, hs⟩ := fetch_shape (i := 0) hw h.depth_le
    have hw' := hw.of_shape hs
    rw [show d.depth = m + 1 by omega] at hw'
    obtain ⟨s, hsi, hv⟩ := window_valid hw'
    refine Or.inl ⟨hc, slots', s, hf, hs, hsi, ?_⟩
    simp only [if_pos hc, hf, Option.bind_eq_bind, Option.bind_some, hsi, hv]
    rfl
  · obtain ⟨s, hsi, -⟩ := window_valid hw
    refine Or.inr ⟨hc, s, hsi, ?_⟩
    rw [if_neg hc, hsi]
    rfl

theorem fetched_tracks {slots' : List (Slot ρ)} (h : Tracks entries d rest)
    (hs : slots'.map shape = d.slots.map shape) :
    Tracks entries { d with slots := slots' } rest := by
  refine ⟨h.ena, h.entries_eq, ?_, h.power, h.cur_lt, h.window.of_shape hs, h.it_rest, h.valid⟩
  have hlen := congrArg List.length hs
  rw [List.length_map, List.length_map] at hlen
  exact hlen.trans h.size

theorem step_tracks (lib : Library) (index : Key → Option ρ) {op : Op ρ}
    (h : Tracks entries d rest) (hl : Legal d op) (ha : Aligned d op) :
    ∃ d', step lib index d op = some d' ∧ Tracks entries d' (listStep entries rest op) := by
  have hcons : d.valid = true → ∃ e l, rest = e :: l := by
    intro hv
    rw [h.valid] at hv
    exact List.exists_cons_of_ne_nil (by simpa using hv)
  cases op with
  | seekToFirst =>
    refine seekToFirst_tracks h ha.1 ha.2.1 ?_
    have hne := ha.2.2
    rw [h.entries_eq] at hne
    simpa using hne
  | seek target => exact seek_tracks h ha target
  | next =>
    obtain ⟨e, l, rfl⟩ := hcons hl
    exact next_tracks h
  | value read =>
    obtain ⟨e, l, rfl⟩ := hcons hl
    cases lib with
    | wisckey =>
      obtain ⟨-, slots', s, -, hs, -, hv⟩ | ⟨-, s, -, hv⟩ := value_cases index read h
      · refine ⟨{ d with slots := slots' }, ?_, fetched_tracks h hs⟩
        rw [step, hv]
        rfl
      · refine ⟨d, ?_, h⟩
        rw [step, hv]
        rfl
    | newdb =>
      refine ⟨d, ?_, h⟩
      rw [step, DBIterator.valueThroughGet, h.key_eq]
      rfl

theorem tracks_seen (h : Tracks entries d rest) :
    seen d = (!rest.isEmpty, rest.head?.map Prod.fst) := by
  cases rest with
  | nil =>
    have hv : d.valid = false := h.valid
    simp [seen, hv]
  | cons e l =>
    have hv : d.valid = true := h.valid
    simp [seen, hv, h.key_eq]

/-- Whatever the calls before, if every move to a new position is made at the
start of the queues, the iterator is where it should be. -/
theorem history_position (lib : Library) (t : Std.ExtTreeMap Key ρ) (upper : Option Key)
    (index : Key → Option ρ) (e : Nat) (ops : List (Op ρ))
    (hl : AlongM (step lib index) Legal (DBIterator.new (.new t upper) true (2 ^ e)) ops)
    (ha : AlongM (step lib index) Aligned (DBIterator.new (.new t upper) true (2 ^ e)) ops) :
    Ordered t upper (RocksIterator.new t upper).entries ∧
    ∃ d, ops.foldlM (step lib index) (DBIterator.new (.new t upper) true (2 ^ e)) = some d ∧
      seen d = ((!(ops.foldl (listStep (RocksIterator.new t upper).entries) []).isEmpty),
        (ops.foldl (listStep (RocksIterator.new t upper).entries) []).head?.map Prod.fst) := by
  refine ⟨new_ordered t upper, ?_⟩
  obtain ⟨d, hd, ht⟩ := (hl.and ha).refines (listStep (RocksIterator.new t upper).entries)
    (Tracks (RocksIterator.new t upper).entries) (new_tracks _ rfl e)
    (fun d rest op h hp => step_tracks lib index h hp.1 hp.2)
  exact ⟨d, hd, tracks_seen ht⟩

theorem history_position_back :
    ∃ d, [Op.seek [1], .next, .seek [2], .next].foldlM (step .wisckey (threeKeys[·]?))
        (DBIterator.new (.new threeKeys none) true (2 ^ 1)) = some d ∧
      seen d = (true, some [3]) := by
  obtain ⟨d, hd, hs⟩ := (history_position .wisckey threeKeys none (threeKeys[·]?) 1
    [.seek [1], .next, .seek [2], .next] (by decide +kernel) (by decide +kernel)).2
  refine ⟨d, hd, hs.trans ?_⟩
  decide +kernel

def restarted : List (Op Nat) := [.seek [1], .next, .seekToFirst, .next]

/-- After the call of `SeekToFirst` the second slot is still that of the batch
before, and a key is skipped. -/
theorem seekToFirst_skips_key :
    (restarted.foldlM (step .wisckey (threeKeys[·]?))
        (DBIterator.new (.new threeKeys none) true 2)).map seen = some (true, some [3]) ∧
      (restarted.foldlM (step .newdb (threeKeys[·]?))
        (DBIterator.new (.new threeKeys none) true 2)).map seen = some (true, some [3]) ∧
      (restarted.foldl (listStep (RocksIterator.new threeKeys none).entries) []).head? =
        some ([2], 2) := by
  decide +kernel

end WiscKey.IteratorHistory
