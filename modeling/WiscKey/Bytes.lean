import Mathlib

namespace WiscKey.Bytes

variable {α : Type}

/-- The `n` elements from offset `off` on. The result is shorter when the
source ends before. -/
def slice (b : List α) (off n : Nat) : List α := (b.drop off).take n

/-- Copy `v` over the elements of `b` from offset `off` on, as `memcpy` does. -/
def overwrite (b : List α) (off : Nat) (v : List α) : List α :=
  b.take off ++ v ++ b.drop (off + v.length)

theorem length_slice (b : List α) (off n : Nat) :
    (slice b off n).length = min n (b.length - off) := by
  simp [slice]

theorem slice_append_left (a b : List α) (off n : Nat) (h : off + n ≤ a.length) :
    slice (a ++ b) off n = slice a off n := by
  have hd : off - a.length = 0 := by omega
  rw [slice, List.drop_append, hd, List.drop_zero, List.take_append_of_le_length, slice]
  simp only [List.length_drop]
  omega

theorem slice_append_right (a b : List α) (off n : Nat) (h : a.length ≤ off) :
    slice (a ++ b) off n = slice b (off - a.length) n := by
  rw [slice, List.drop_append, List.drop_eq_nil_of_le h, List.nil_append, slice]

theorem slice_self (v : List α) : slice v 0 v.length = v := by
  simp [slice]

theorem slice_middle (a v b : List α) : slice (a ++ v ++ b) a.length v.length = v := by
  rw [slice_append_left _ _ _ _ (by simp), slice_append_right _ _ _ _ le_rfl, Nat.sub_self,
    slice_self]

theorem slice_slice (b : List α) (a n i k : Nat) (h : i + k ≤ n) :
    slice (slice b a n) i k = slice b (a + i) k := by
  have hk : min k (n - i) = k := by omega
  simp only [slice, List.drop_take, List.drop_drop, List.take_take, hk]

theorem slice_eq_of_prefix {a b v : List α} {off : Nat} (h : a <+: b)
    (hv : slice a off v.length = v) : slice b off v.length = v := by
  obtain ⟨c, rfl⟩ := h
  by_cases hl : off + v.length ≤ a.length
  · rw [slice_append_left _ _ _ _ hl, hv]
  · have hlen := congrArg List.length hv
    rw [length_slice] at hlen
    have hv0 : v = [] := List.length_eq_zero_iff.mp (by omega)
    simp [hv0, slice]

theorem length_overwrite (b v : List α) (off : Nat) (h : off + v.length ≤ b.length) :
    (overwrite b off v).length = b.length := by
  simp only [overwrite, List.length_append, List.length_take, List.length_drop]
  omega

theorem take_overwrite (b v : List α) (off : Nat) (h : off ≤ b.length) :
    (overwrite b off v).take (off + v.length) = b.take off ++ v := by
  have hl : (b.take off ++ v).length = off + v.length := by
    simp only [List.length_append, List.length_take]
    omega
  rw [overwrite, ← hl, List.take_left]

end WiscKey.Bytes
