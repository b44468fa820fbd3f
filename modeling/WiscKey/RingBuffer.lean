import Mathlib

namespace WiscKey.RingBuffer

variable {α : Type}

/-- A queue in a circular buffer. A slot that was never written holds
nothing. -/
structure Circular (α : Type) where
  slots : List (Option α)
  head : Nat
  tail : Nat
  count : Nat
deriving DecidableEq

def Circular.empty (n : Nat) : Circular α := ⟨List.replicate n none, 0, 0, 0⟩

def Circular.size (r : Circular α) : Nat := r.slots.length

def Circular.push (r : Circular α) (a : α) : Circular α :=
  { r with
    slots := r.slots.set r.tail (some a)
    tail := (r.tail + 1) % r.size
    count := r.count + 1 }

def Circular.front (r : Circular α) : Option α := r.slots[r.head]?.join

def Circular.pop (r : Circular α) : Circular α :=
  { r with head := (r.head + 1) % r.size, count := r.count - 1 }

/-- The slots from the head on, as many as are counted. -/
def Circular.contents (r : Circular α) : List (Option α) :=
  (List.range r.count).map (fun i => r.slots[(r.head + i) % r.size]?.join)

/-- The buffer is a queue with the given elements. -/
structure Circular.Holds (r : Circular α) (l : List α) : Prop where
  count_eq : r.count = l.length
  fits : l.length ≤ r.size
  head_lt : r.head < r.size
  tail_eq : r.tail = (r.head + l.length) % r.size
  cells : ∀ i a, l[i]? = some a → r.slots[(r.head + i) % r.size]? = some (some a)

variable {r : Circular α} {l : List α}

@[simp] theorem size_push (r : Circular α) (a : α) : (r.push a).size = r.size :=
  List.length_set

@[simp] theorem size_pop (r : Circular α) : r.pop.size = r.size := rfl

@[simp] theorem size_empty (n : Nat) : (Circular.empty n : Circular α).size = n :=
  List.length_replicate

theorem index_inj {n h i j : Nat} (hi : i < n) (hj : j < n) (he : (h + i) % n = (h + j) % n) :
    i = j := by
  have hm : i ≡ j [MOD n] := Nat.ModEq.add_left_cancel' h he
  rwa [Nat.ModEq, Nat.mod_eq_of_lt hi, Nat.mod_eq_of_lt hj] at hm

theorem holds_empty {n : Nat} (hn : 0 < n) : (Circular.empty n : Circular α).Holds [] where
  count_eq := rfl
  fits := Nat.zero_le _
  head_lt := by
    rw [size_empty]
    exact hn
  tail_eq := (Nat.zero_mod _).symm
  cells := by
    intro i a h
    cases h

theorem Circular.Holds.contents_eq (h : r.Holds l) : r.contents = l.map some := by
  apply List.ext_getElem?
  intro i
  rw [Circular.contents, h.count_eq, List.getElem?_map, List.getElem?_map]
  by_cases hi : i < l.length
  · have hc := h.cells i l[i] (List.getElem?_eq_getElem hi)
    rw [List.getElem?_range hi, List.getElem?_eq_getElem hi, Option.map_some, Option.map_some, hc]
    rfl
  · rw [List.getElem?_eq_none (by simpa using hi), List.getElem?_eq_none (by simpa using hi)]
    rfl

theorem Circular.Holds.push (h : r.Holds l) (hl : l.length < r.size) (a : α) :
    (r.push a).Holds (l ++ [a]) where
  count_eq := by
    rw [List.length_append, Circular.push, h.count_eq]
    rfl
  fits := by
    rw [List.length_append, size_push]
    exact hl
  head_lt := by
    rw [size_push]
    exact h.head_lt
  tail_eq := by
    rw [List.length_append, size_push]
    simp only [Circular.push, h.tail_eq, Nat.mod_add_mod]
    rfl
  cells := by
    intro i b hb
    rw [size_push]
    change (r.slots.set r.tail (some a))[(r.head + i) % r.size]? = some (some b)
    by_cases hi : i < l.length
    · have hne : r.tail ≠ (r.head + i) % r.size := by
        intro he
        rw [h.tail_eq] at he
        exact absurd (index_inj hl (hi.trans hl) he) (Nat.ne_of_gt hi)
      rw [List.getElem?_append_left hi] at hb
      rw [List.getElem?_set_ne hne]
      exact h.cells i b hb
    · have hlen := (List.getElem?_eq_some_iff.mp hb).1
      rw [List.length_append, List.length_singleton] at hlen
      obtain rfl : i = l.length := by omega
      rw [List.getElem?_concat_length] at hb
      cases hb
      have hlt : r.tail < r.slots.length := by
        rw [h.tail_eq]
        exact Nat.mod_lt _ (Nat.zero_lt_of_lt h.head_lt)
      rw [← h.tail_eq, List.getElem?_set_self hlt]

theorem Circular.Holds.front {a : α} (h : r.Holds (a :: l)) : r.front = some a := by
  have hc := h.cells 0 a rfl
  rw [Nat.add_zero, Nat.mod_eq_of_lt h.head_lt] at hc
  rw [Circular.front, hc]
  rfl

theorem Circular.Holds.pop {a : α} (h : r.Holds (a :: l)) : r.pop.Holds l where
  count_eq := by
    rw [Circular.pop, h.count_eq]
    rfl
  fits := (Nat.le_succ _).trans h.fits
  head_lt := Nat.mod_lt _ (Nat.zero_lt_of_lt h.head_lt)
  tail_eq := by
    rw [size_pop]
    simp only [Circular.pop, h.tail_eq, Nat.mod_add_mod, List.length_cons]
    congr 1
    omega
  cells := by
    intro i b hb
    have hc := h.cells (i + 1) b hb
    rw [size_pop]
    simp only [Circular.pop, Nat.mod_add_mod]
    rwa [Nat.add_assoc, Nat.add_comm 1 i]

end WiscKey.RingBuffer
