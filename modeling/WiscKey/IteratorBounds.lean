import WiscKey.IteratorQueue
import WiscKey.Runs

namespace WiscKey.IteratorBounds

open WiscKey.Runs WiscKey.Database WiscKey.Iterator WiscKey.IteratorQueue

variable {ρ : Type}

def refillIndices (it : RocksIterator ρ) (i : Nat) : Nat → List Nat
  | 0 => []
  | n + 1 =>
    match it.next with
    | none => []
    | some it => i :: if it.valid then refillIndices it (i + 1) n else []

def refillValidIndices (it : RocksIterator ρ) (i : Nat) : Nat → List Nat
  | 0 => []
  | n + 1 =>
    if it.valid then
      match it.next with
      | none => []
      | some it => i :: if it.valid then refillValidIndices it (i + 1) n else []
    else refillValidIndices it (i + 1) n

def fetchIndices (i : Nat) : List (Slot ρ) → Nat → List Nat
  | _, 0 => []
  | [], _ + 1 => [i]
  | s :: slots, n + 1 => i :: if s.valid then fetchIndices (i + 1) slots n else []

/-- The positions of the queues that a call on a prefetching iterator uses. -/
def indices (lib : Library) (d : DBIterator ρ) : Op ρ → List Nat
  | .seekToFirst => [0]
  | .seek target => 0 :: refillValidIndices (d.it.seek target) 1 (d.depth - 1)
  | .next =>
    if d.cur + 1 = d.depth then refillIndices d.it 0 d.nextDepth ++ [0] else [d.cur + 1]
  | .value _ =>
    match lib with
    | .wisckey => (if d.cur = 0 then fetchIndices 0 d.slots d.depth else []) ++ [d.cur]
    | .newdb => [d.cur]

variable {slots slots' : List (Slot ρ)} {it it' : RocksIterator ρ} {i j n : Nat}
  {d d' : DBIterator ρ} {lib : Library} {index : Key → Option ρ} {op : Op ρ}

theorem refillIndices_lt (h : j ∈ refillIndices it i n) : j < i + n := by
  induction n generalizing it i with
  | zero => cases h
  | succ n ih =>
    rw [refillIndices] at h
    split at h
    · cases h
    · obtain rfl | h := List.mem_cons.mp h
      · omega
      · split at h
        · have hlt := ih h
          omega
        · cases h

theorem refillValidIndices_lt (h : j ∈ refillValidIndices it i n) : j < i + n := by
  induction n generalizing it i with
  | zero => cases h
  | succ n ih =>
    rw [refillValidIndices] at h
    split at h
    · split at h
      · cases h
      · obtain rfl | h := List.mem_cons.mp h
        · omega
        · split at h
          · have hlt := ih h
            omega
          · cases h
    · have hlt := ih h
      omega

theorem fetchIndices_lt (h : j ∈ fetchIndices i slots n) : j < i + n := by
  induction n generalizing slots i with
  | zero => cases h
  | succ n ih =>
    cases slots with
    | nil =>
      rw [fetchIndices, List.mem_singleton] at h
      omega
    | cons s slots =>
      rw [fetchIndices] at h
      obtain rfl | h := List.mem_cons.mp h
      · omega
      · split at h
        · have hlt := ih h
          omega
        · cases h

theorem refillIndices_eq (h : n < it.rest.length) : refillIndices it i n = List.range' i n := by
  induction n generalizing it i with
  | zero => rfl
  | succ n ih =>
    cases hr : it.rest with
    | nil =>
      rw [hr] at h
      cases h
    | cons e l =>
      rw [hr, List.length_cons] at h
      have hl : n < (RocksIterator.mk it.entries l).rest.length := Nat.succ_lt_succ_iff.mp h
      rw [refillIndices, next_eq hr, List.range'_succ]
      simp only
      rw [ih hl]
      cases l with
      | nil => simp at h
      | cons e' l => rfl

theorem setSlot_eq_some {f : Slot ρ → Slot ρ} (h : setSlot slots i f = some slots') :
    i < slots.length ∧ slots'.length = slots.length := by
  obtain ⟨hi, h⟩ := Option.ite_none_right_eq_some.mp h
  cases h
  exact ⟨hi, List.length_modify _ _ _⟩

theorem load_eq_some (h : load slots i it = some slots') :
    i < slots.length ∧ slots'.length = slots.length := by
  rw [load] at h
  split at h
  · exact setSlot_eq_some h
  · exact setSlot_eq_some h

theorem refill_eq_some (h : refill it slots i n = some (it', slots')) :
    slots'.length = slots.length ∧ ∀ j ∈ refillIndices it i n, j < slots.length := by
  induction n generalizing it slots i with
  | zero =>
    cases h
    exact ⟨rfl, by simp [refillIndices]⟩
  | succ n ih =>
    rw [refill] at h
    obtain ⟨it₁, h₁, h⟩ := Option.bind_eq_some_iff.mp h
    obtain ⟨slots₁, hl, h⟩ := Option.bind_eq_some_iff.mp h
    obtain ⟨hi, hlen⟩ := load_eq_some hl
    rw [refillIndices, h₁]
    simp only [List.forall_mem_cons]
    cases hv : it₁.valid with
    | true =>
      rw [hv, if_pos rfl] at h
      obtain ⟨hs, hj⟩ := ih h
      rw [hlen] at hs hj
      exact ⟨hs, hi, hj⟩
    | false =>
      rw [hv, if_neg Bool.false_ne_true] at h
      cases h
      exact ⟨hlen, hi, by simp⟩

theorem refillValid_eq_some (h : refillValid it slots i n = some (it', slots')) :
    slots'.length = slots.length ∧ ∀ j ∈ refillValidIndices it i n, j < slots.length := by
  induction n generalizing it slots i with
  | zero =>
    cases h
    exact ⟨rfl, by simp [refillValidIndices]⟩
  | succ n ih =>
    rw [refillValid] at h
    rw [refillValidIndices]
    cases hv : it.valid with
    | true =>
      rw [hv, if_pos rfl] at h
      obtain ⟨it₁, h₁, h⟩ := Option.bind_eq_some_iff.mp h
      obtain ⟨slots₁, hl, h⟩ := Option.bind_eq_some_iff.mp h
      obtain ⟨hi, hlen⟩ := load_eq_some hl
      rw [h₁, if_pos rfl]
      simp only [List.forall_mem_cons]
      cases hv' : it₁.valid with
      | true =>
        rw [hv', if_pos rfl] at h
        obtain ⟨hs, hj⟩ := ih h
        rw [hlen] at hs hj
        exact ⟨hs, hi, hj⟩
      | false =>
        rw [hv', if_neg Bool.false_ne_true] at h
        cases h
        exact ⟨hlen, hi, by simp⟩
    | false =>
      rw [hv, if_neg Bool.false_ne_true] at h
      exact ih h

theorem fetch_eq_some {read : Nat → Key → ρ → Value} (h : fetch read i slots n = some slots') :
    slots'.length = slots.length ∧ ∀ j ∈ fetchIndices i slots n, j < i + slots.length := by
  induction n generalizing i slots slots' with
  | zero =>
    rw [fetch] at h
    cases h
    exact ⟨rfl, by simp [fetchIndices]⟩
  | succ n ih =>
    cases slots with
    | nil => cases h
    | cons s slots =>
      rw [fetch] at h
      rw [fetchIndices, List.length_cons, List.forall_mem_cons]
      cases hv : s.valid with
      | true =>
        rw [hv, if_pos rfl] at h
        obtain ⟨r, -, h⟩ := Option.bind_eq_some_iff.mp h
        obtain ⟨slots₁, hf, h⟩ := Option.bind_eq_some_iff.mp h
        cases h
        obtain ⟨hs, hj⟩ := ih hf
        refine ⟨congrArg (· + 1) hs, by omega, fun j hm => ?_⟩
        have hlt := hj j hm
        omega
      | false =>
        rw [hv, if_neg Bool.false_ne_true] at h
        cases h
        exact ⟨rfl, by omega, by simp⟩

inductive Moves (d d' : DBIterator ρ) : Prop where
  | same (hd : d'.depth = d.depth) (hc : d'.cur = d.cur)
  | inside (hd : d'.depth = d.depth) (hc : d'.cur = d.cur + 1) (hne : d.cur + 1 ≠ d.depth)
  | refilled (hd : d'.depth = d.nextDepth) (hc : d'.cur = 0)

structure Called (d d' : DBIterator ρ) : Prop where
  ena : d'.prefetchEna = true
  limit : d'.prefetchDepth = d.prefetchDepth
  size : d'.slots.length = d.slots.length
  moves : Moves d d'

theorem step_called (he : d.prefetchEna = true) (h : step lib index d op = some d') :
    Called d d' ∧ ∀ j ∈ indices lib d op, j < d.slots.length := by
  cases op with
  | seekToFirst =>
    rw [step, DBIterator.seekToFirst, if_pos he] at h
    obtain ⟨slots₁, hl, h⟩ := Option.bind_eq_some_iff.mp h
    obtain ⟨e, -, h⟩ := Option.bind_eq_some_iff.mp h
    obtain ⟨slots₂, hs, h⟩ := Option.bind_eq_some_iff.mp h
    cases h
    obtain ⟨hi, hlen⟩ := load_eq_some hl
    refine ⟨⟨he, rfl, (setSlot_eq_some hs).2.trans hlen, Moves.same rfl rfl⟩, ?_⟩
    simpa [indices] using hi
  | seek target =>
    rw [step, DBIterator.seek, if_pos he] at h
    obtain ⟨slots₁, hl, h⟩ := Option.bind_eq_some_iff.mp h
    obtain ⟨⟨it₁, slots₂⟩, hr, h⟩ := Option.bind_eq_some_iff.mp h
    cases h
    obtain ⟨hi, hlen⟩ := load_eq_some hl
    obtain ⟨hs, hj⟩ := refillValid_eq_some hr
    refine ⟨⟨he, rfl, hs.trans hlen, Moves.same rfl rfl⟩, ?_⟩
    rw [indices, List.forall_mem_cons, ← hlen]
    exact ⟨hlen ▸ hi, hj⟩
  | next =>
    rw [step, DBIterator.next, if_pos he] at h
    rw [indices]
    by_cases hc : d.cur + 1 = d.depth
    · rw [if_pos hc] at h ⊢
      obtain ⟨⟨it₁, slots₁⟩, hr, h⟩ := Option.bind_eq_some_iff.mp h
      obtain ⟨s, hs, h⟩ := Option.bind_eq_some_iff.mp h
      cases h
      obtain ⟨hlen, hj⟩ := refill_eq_some hr
      have h0 := (List.getElem?_eq_some_iff.mp hs).1
      refine ⟨⟨he, rfl, hlen, Moves.refilled rfl rfl⟩, ?_⟩
      intro j hm
      obtain hm | hm := List.mem_append.mp hm
      · exact hj j hm
      · rw [List.mem_singleton.mp hm, ← hlen]
        exact h0
    · rw [if_neg hc] at h ⊢
      obtain ⟨s, hs, h⟩ := Option.bind_eq_some_iff.mp h
      cases h
      refine ⟨⟨he, rfl, rfl, Moves.inside rfl rfl hc⟩, ?_⟩
      simpa using (List.getElem?_eq_some_iff.mp hs).1
  | value read =>
    cases lib with
    | wisckey =>
      change (d.value index read).map Prod.fst = some d' at h
      obtain ⟨⟨d₁, v⟩, hv, rfl⟩ := Option.map_eq_some_iff.mp h
      rw [DBIterator.value, if_pos he] at hv
      rw [indices]
      by_cases hc : d.cur = 0
      · rw [if_pos hc] at hv
        obtain ⟨slots₁, hf, hv⟩ := Option.bind_eq_some_iff.mp hv
        obtain ⟨s, hs, hv⟩ := Option.bind_eq_some_iff.mp hv
        obtain ⟨-, hv⟩ := Option.ite_none_right_eq_some.mp hv
        cases hv
        obtain ⟨hlen, hj⟩ := fetch_eq_some hf
        have h0 := (List.getElem?_eq_some_iff.mp hs).1
        refine ⟨⟨he, rfl, hlen, Moves.same rfl rfl⟩, ?_⟩
        intro j hm
        simp only [if_pos hc] at hm
        obtain hm | hm := List.mem_append.mp hm
        · simpa using hj j hm
        · rw [List.mem_singleton.mp hm, hc, ← hlen]
          exact h0
      · rw [if_neg hc] at hv
        obtain ⟨s, hs, hv⟩ := Option.bind_eq_some_iff.mp hv
        cases hv
        refine ⟨⟨he, rfl, rfl, Moves.same rfl rfl⟩, ?_⟩
        simpa [hc] using (List.getElem?_eq_some_iff.mp hs).1
    | newdb =>
      rw [step, DBIterator.valueThroughGet] at h
      obtain ⟨k, hk, h⟩ := Option.bind_eq_some_iff.mp h
      cases h
      rw [DBIterator.key, if_pos he] at hk
      obtain ⟨s, hs, -⟩ := Option.map_eq_some_iff.mp hk
      refine ⟨⟨he, rfl, rfl, Moves.same rfl rfl⟩, ?_⟩
      simpa [indices] using (List.getElem?_eq_some_iff.mp hs).1

structure Bounded (d : DBIterator ρ) : Prop where
  ena : d.prefetchEna = true
  power : ∃ i j, d.depth = 2 ^ i ∧ d.prefetchDepth = 2 ^ (i + j)
  cur_lt : d.cur < d.depth

theorem Bounded.depth_le (h : Bounded d) : d.depth ≤ d.prefetchDepth := by
  obtain ⟨i, j, hd, hp⟩ := h.power
  rw [hd, hp]
  exact Nat.pow_le_pow_right Nat.two_pos (Nat.le_add_right i j)

theorem Bounded.nextDepth (h : Bounded d) :
    ∃ i j, d.nextDepth = 2 ^ i ∧ d.prefetchDepth = 2 ^ (i + j) := by
  obtain ⟨i, j, hd, hp⟩ := h.power
  exact nextDepth_power hd hp

theorem Bounded.nextDepth_le (h : Bounded d) : d.nextDepth ≤ d.prefetchDepth := by
  obtain ⟨i, j, hd, hp⟩ := h.nextDepth
  rw [hd, hp]
  exact Nat.pow_le_pow_right Nat.two_pos (Nat.le_add_right i j)

theorem step_bounded (h : Bounded d) (hs : step lib index d op = some d') :
    Bounded d' ∧ d'.prefetchDepth = d.prefetchDepth := by
  obtain ⟨⟨he, hl, -, hm⟩, -⟩ := step_called h.ena hs
  have hlt := h.cur_lt
  refine ⟨?_, hl⟩
  cases hm with
  | same hd hc => exact ⟨he, by rw [hd, hl]; exact h.power, by omega⟩
  | inside hd hc hne => exact ⟨he, by rw [hd, hl]; exact h.power, by omega⟩
  | refilled hd hc =>
    refine ⟨he, by rw [hd, hl]; exact h.nextDepth, ?_⟩
    obtain ⟨i, j, hi, -⟩ := h.nextDepth
    rw [hd, hc, hi]
    positivity

theorem Bounded.indices_lt (h : Bounded d) (op : Op ρ) :
    ∀ j ∈ indices lib d op, j < d.prefetchDepth := by
  have hd := h.depth_le
  have hn := h.nextDepth_le
  have hc := h.cur_lt
  intro j hj
  cases op with
  | seekToFirst =>
    rw [indices, List.mem_singleton] at hj
    omega
  | seek target =>
    obtain rfl | hj := List.mem_cons.mp hj
    · omega
    · have hlt := refillValidIndices_lt hj
      omega
  | next =>
    rw [indices] at hj
    split at hj
    · obtain hj | hj := List.mem_append.mp hj
      · have hlt := refillIndices_lt hj
        omega
      · rw [List.mem_singleton] at hj
        omega
    · rw [List.mem_singleton] at hj
      omega
  | value read =>
    have hcur : j ∈ [d.cur] → j < d.prefetchDepth := by
      rw [List.mem_singleton]
      omega
    cases lib with
    | newdb => exact hcur hj
    | wisckey =>
      obtain hj | hj := List.mem_append.mp hj
      · split at hj
        · have hlt := fetchIndices_lt hj
          omega
        · cases hj
      · exact hcur hj

structure Batch (limit i cur left : Nat) (d : DBIterator ρ) : Prop where
  ena : d.prefetchEna = true
  limit_eq : d.prefetchDepth = limit
  size : d.slots.length = limit
  depth_eq : d.depth = 2 ^ i
  cur_eq : d.cur = cur
  left_lt : left < d.it.rest.length

variable {limit cur left : Nat}

theorem Batch.nextDepth (h : Batch limit i cur left d) (hlt : 2 ^ i < limit) :
    d.nextDepth = 2 ^ (i + 1) := by
  have hpos : d.depth ≠ 0 := by
    rw [h.depth_eq]
    positivity
  rw [DBIterator.nextDepth, h.depth_eq, h.limit_eq, if_pos hlt, if_neg (h.depth_eq ▸ hpos),
    Nat.shiftLeft_eq, pow_one, pow_succ]

theorem next_inside (h : Batch limit i cur left d) (hc : cur + 1 < 2 ^ i) (hi : 2 ^ i ≤ limit) :
    ∃ d', d.next = some d' ∧ Batch limit i (cur + 1) left d' := by
  have hlt : d.cur + 1 < d.slots.length := by
    rw [h.size, h.cur_eq]
    omega
  have hne : d.cur + 1 ≠ d.depth := by
    rw [h.cur_eq, h.depth_eq]
    exact hc.ne
  refine ⟨{ d with cur := d.cur + 1, valid := d.slots[d.cur + 1].valid }, ?_,
    h.ena, h.limit_eq, h.size, h.depth_eq, congrArg (· + 1) h.cur_eq, h.left_lt⟩
  rw [DBIterator.next, if_pos h.ena, if_neg hne, List.getElem?_eq_getElem hlt]
  rfl

theorem next_refilled (h : Batch limit i cur (left + 2 ^ (i + 1)) d) (hc : cur + 1 = 2 ^ i)
    (hi : 2 ^ (i + 1) ≤ limit) : ∃ d', d.next = some d' ∧ Batch limit (i + 1) 0 left d' := by
  have hpow : 0 < 2 ^ i := Nat.two_pow_pos i
  have hn := h.nextDepth (by rw [pow_succ] at hi; omega)
  have hleft := h.left_lt
  obtain ⟨e, l, hr⟩ := List.exists_cons_of_length_pos (Nat.zero_lt_of_lt hleft)
  have hle : 0 + d.nextDepth ≤ d.slots.length := by
    rw [hn, h.size, Nat.zero_add]
    exact hi
  obtain ⟨it', slots', hf, hd⟩ := refill_refilled hr hle
  have hlen : slots'.length = limit := hd.length.trans h.size
  have h0 : 0 < slots'.length := by
    rw [hlen]
    exact (Nat.two_pow_pos _).trans_le hi
  obtain ⟨s, hs⟩ : ∃ s, slots'[0]? = some s := ⟨_, List.getElem?_eq_getElem h0⟩
  refine ⟨{ d with it := it', slots := slots', depth := d.nextDepth, cur := 0, valid := s.valid },
    ?_, h.ena, h.limit_eq, hlen, hn, rfl, ?_⟩
  · rw [DBIterator.next, if_pos h.ena, if_pos (by rw [h.cur_eq, h.depth_eq, hc]), hf]
    simp only [Option.bind_eq_bind, Option.bind_some, hs]
    rfl
  · rw [hd.rest, hn, List.length_drop]
    omega

theorem foldlM_inside (lib : Library) (index : Key → Option ρ) (n : Nat)
    (h : Batch limit i cur left d) (hc : cur + n < 2 ^ i) (hi : 2 ^ i ≤ limit) :
    ∃ d', (List.replicate n Op.next).foldlM (step lib index) d = some d' ∧
      Batch limit i (cur + n) left d' := by
  induction n generalizing cur d with
  | zero => exact ⟨d, rfl, h⟩
  | succ n ih =>
    obtain ⟨d₁, h₁, hb⟩ := next_inside h (by omega) hi
    obtain ⟨d', hr, hb'⟩ := ih hb (by omega)
    refine ⟨d', ?_, by rwa [Nat.add_assoc, Nat.add_comm 1] at hb'⟩
    rw [List.replicate_succ, List.foldlM_cons]
    exact (congrArg (· >>= _) h₁).trans hr

theorem exists_entries (ρ : Type) [Inhabited ρ] (n : Nat) :
    ∃ t : Std.ExtTreeMap Key ρ, n < (RocksIterator.new t none).entries.length := by
  have hsize : ∀ n, ∃ t : Std.ExtTreeMap Key ρ, t.size = n := by
    intro n
    induction n with
    | zero => exact ⟨∅, rfl⟩
    | succ n ih =>
      obtain ⟨t, ht⟩ := ih
      obtain ⟨k, hk⟩ := Infinite.exists_notMem_finset t.keys.toFinset
      refine ⟨t.insert k default, ?_⟩
      rw [Std.ExtTreeMap.size_insert, if_neg (by simpa using hk), ht]
  obtain ⟨t, ht⟩ := hsize (n + 1)
  refine ⟨t, ?_⟩
  have hall : (RocksIterator.new t none).entries = t.toList :=
    List.filter_eq_self.mpr (fun _ _ => rfl)
  rw [hall, Std.ExtTreeMap.length_toList, ht]
  exact Nat.lt_succ_self n

theorem seekToFirst_batch {it : RocksIterator ρ} (hlim : 0 < limit)
    (hl : left < it.entries.length) :
    ∃ d', (DBIterator.new it true limit).seekToFirst = some d' ∧ Batch limit 0 0 left d' := by
  have hlen : (DBIterator.new it true limit).slots.length = limit := List.length_replicate
  obtain ⟨e, l, he⟩ := List.exists_cons_of_length_pos (Nat.zero_lt_of_lt hl)
  have hr : (DBIterator.new it true limit).it.seekToFirst.rest = e :: l := he
  obtain ⟨slots₁, hl₁, hs₁⟩ := load_some (hlim.trans_eq hlen.symm) hr
  have h₁ : 0 < slots₁.length := by
    rw [hs₁.length, hlen]
    exact hlim
  obtain ⟨slots₂, hl₂, hs₂⟩ := setSlot_loaded (p := fun _ => True)
    (f := fun s => { s with pkey := some e.2 }) h₁ (fun _ _ => trivial)
  refine ⟨{ DBIterator.new it true limit with
    it := it.seekToFirst, valid := true, slots := slots₂ }, ?_, rfl, rfl,
    hs₂.length.trans (hs₁.length.trans hlen), rfl, rfl, hl⟩
  have hena : (DBIterator.new it true limit).prefetchEna = true := rfl
  rw [DBIterator.seekToFirst, if_pos hena]
  simp only [hl₁, RocksIterator.entry, hr, List.head?_cons, Option.bind_eq_bind, Option.bind_some,
    hl₂, valid_cons hr]
  rfl

/-- The depth doubles from one on as long as it is below the limit. -/
theorem exists_batch [Inhabited ρ] (lib : Library) (index : Key → Option ρ) (i left : Nat)
    (hi : 2 ^ i ≤ limit) : ∃ (t : Std.ExtTreeMap Key ρ) (ops : List (Op ρ)) (d : DBIterator ρ),
      ops.foldlM (step lib index) (DBIterator.new (RocksIterator.new t none) true limit) =
        some d ∧ Batch limit i 0 left d := by
  induction i generalizing left with
  | zero =>
    obtain ⟨t, ht⟩ := exists_entries ρ left
    obtain ⟨d, hd, hb⟩ := seekToFirst_batch hi ht
    exact ⟨t, [Op.seekToFirst], d, by simp [step, hd], hb⟩
  | succ i ih =>
    have hlt : 2 ^ i ≤ limit := (Nat.pow_le_pow_right Nat.two_pos (Nat.le_succ i)).trans hi
    have hpos : 0 < 2 ^ i := Nat.two_pow_pos i
    obtain ⟨t, ops, d, hr, hb⟩ := ih (left + 2 ^ (i + 1)) hlt
    obtain ⟨d₁, hr₁, hb₁⟩ := foldlM_inside lib index (2 ^ i - 1) hb (by omega) hlt
    obtain ⟨d', hn, hb'⟩ := next_refilled hb₁ (by omega) hi
    refine ⟨t, ops ++ List.replicate (2 ^ i - 1) Op.next ++ [Op.next], d', ?_, hb'⟩
    rw [List.foldlM_append, List.foldlM_append, hr]
    simp [hr₁, step, hn]

/-- Every position used is within the queues, and so is the depth, for every store
and every sequence of calls, just when the limit is a power of two. -/
theorem indices_lt_iff [Inhabited ρ] (prefetchDepth : Nat) :
    (∀ (lib : Library) (t : Std.ExtTreeMap Key ρ) (upper : Option Key) (index : Key → Option ρ)
      (ops : List (Op ρ)) (d : DBIterator ρ),
      ops.foldlM (step lib index) (DBIterator.new (RocksIterator.new t upper) true prefetchDepth) =
        some d →
      d.depth ≤ prefetchDepth ∧ ∀ op, ∀ i ∈ indices lib d op, i < prefetchDepth) ↔
    ∃ e, prefetchDepth = 2 ^ e := by
  constructor
  · intro h
    have hpos : 1 ≤ prefetchDepth := (h .wisckey ∅ none (fun _ => none) [] _ rfl).1
    refine ⟨Nat.log 2 prefetchDepth, ?_⟩
    have hle := Nat.pow_log_le_self 2 (Nat.ne_of_gt hpos)
    have hlt := Nat.lt_pow_succ_log_self Nat.one_lt_two prefetchDepth
    by_contra hne
    have hpow : 0 < 2 ^ Nat.log 2 prefetchDepth := Nat.two_pow_pos _
    obtain ⟨t, ops, d, hr, hb⟩ := exists_batch .wisckey (fun _ => (none : Option ρ))
      (Nat.log 2 prefetchDepth) (2 ^ (Nat.log 2 prefetchDepth + 1)) hle
    obtain ⟨d₁, hr₁, hb₁⟩ := foldlM_inside .wisckey (fun _ => none)
      (2 ^ Nat.log 2 prefetchDepth - 1) hb (by omega) hle
    have hrun : (ops ++ List.replicate (2 ^ Nat.log 2 prefetchDepth - 1) Op.next).foldlM
        (step .wisckey fun _ => none)
        (DBIterator.new (RocksIterator.new t none) true prefetchDepth) = some d₁ := by
      rw [List.foldlM_append, hr]
      exact hr₁
    have hmem : prefetchDepth ∈ indices .wisckey d₁ .next := by
      rw [indices, if_pos (by rw [hb₁.cur_eq, hb₁.depth_eq]; omega),
        hb₁.nextDepth (by omega), refillIndices_eq hb₁.left_lt]
      apply List.mem_append_left
      rw [List.mem_range'_1]
      exact ⟨Nat.zero_le _, by rwa [Nat.zero_add]⟩
    exact lt_irrefl _ ((h .wisckey t none _ _ d₁ hrun).2 .next _ hmem)
  · rintro ⟨e, rfl⟩ lib t upper index ops d hrun
    have hb : Bounded d ∧ d.prefetchDepth = 2 ^ e := by
      refine foldlM_invariant (I := fun d => Bounded d ∧ d.prefetchDepth = 2 ^ e) ?_ ?_ hrun
      · rintro d op - d' ⟨hb, hl⟩ hs
        obtain ⟨hb', hl'⟩ := step_bounded hb hs
        exact ⟨hb', hl'.trans hl⟩
      · exact ⟨⟨rfl, ⟨0, e, rfl, by rw [Nat.zero_add]; rfl⟩, Nat.one_pos⟩, rfl⟩
    rw [← hb.2]
    exact ⟨hb.1.depth_le, hb.1.indices_lt⟩

def sixKeys : Std.ExtTreeMap Key UInt64 :=
  [1, 2, 3, 4, 5, 6].foldl (fun t i => t.insert [i] 0) ∅

def thirdKey (prefetchDepth : Nat) : Option (DBIterator UInt64) :=
  [Op.seekToFirst, .next, .next].foldlM (step .newdb fun _ => none)
    (DBIterator.new (RocksIterator.new sixKeys none) true prefetchDepth)

theorem indices_lt_four : ∃ d, thirdKey 4 = some d ∧ indices .newdb d .next = [0, 1, 2, 3, 0] ∧
    d.depth ≤ 4 ∧ ∀ op, ∀ i ∈ indices .newdb d op, i < 4 := by
  have hrun : ∃ d ∈ thirdKey 4, indices .newdb d .next = [0, 1, 2, 3, 0] := by
    decide +kernel
  obtain ⟨d, hd, hi⟩ := hrun
  exact ⟨d, hd, hi, (indices_lt_iff 4).mpr ⟨2, rfl⟩ .newdb _ none _ _ d hd⟩

/-- From a depth of two, which is below three, the depth goes on to four. -/
theorem indices_past_three : ∃ d, thirdKey 3 = some d ∧ d.nextDepth = 4 ∧
    (∃ i ∈ indices .newdb d .next, ¬ i < 3) ∧ d.next = none := by
  have hrun : ∃ d ∈ thirdKey 3, d.nextDepth = 4 ∧
    (∃ i ∈ indices .newdb d .next, ¬ i < 3) ∧ d.next.isNone := by
    decide +kernel
  obtain ⟨d, hd, hn, hi, hnone⟩ := hrun
  exact ⟨d, hd, hn, hi, Option.isNone_iff_eq_none.mp hnone⟩

end WiscKey.IteratorBounds
