import Mathlib

namespace WiscKey.Attempts

structure Outcome where
  applied : Bool
  acknowledged : Bool
deriving DecidableEq

/-- The loop around a failed write, with the number of rounds before the last
one. The last attempt counts as failed whatever its result. -/
def retry (ok : Nat → Bool) : Nat → Nat → Outcome
  | 0, i => ⟨ok i, false⟩
  | n + 1, i => if ok i then ⟨true, true⟩ else retry ok n (i + 1)

/-- A write and up to four more attempts, where `ok i` is the result of the
attempt `i`. -/
def write (ok : Nat → Bool) : Outcome := if ok 0 then ⟨true, true⟩ else retry ok 3 1

theorem retry_applied {ok : Nat → Bool} {n i : Nat} (h : (retry ok n i).acknowledged = true) :
    (retry ok n i).applied = true := by
  induction n generalizing i with
  | zero => cases h
  | succ n ih =>
    rw [retry] at h ⊢
    split
    · rfl
    · rw [if_neg ‹_›] at h
      exact ih h

theorem write_applied {ok : Nat → Bool} (h : (write ok).acknowledged = true) :
    (write ok).applied = true := by
  rw [write] at h ⊢
  split
  · rfl
  · rw [if_neg ‹_›] at h
    exact retry_applied h

theorem retry_acknowledged_iff {ok : Nat → Bool} {n i : Nat} :
    (retry ok n i).acknowledged = true ↔ ∃ j < n, ok (i + j) = true := by
  induction n generalizing i with
  | zero => simp [retry]
  | succ n ih =>
    rw [retry, Nat.exists_lt_succ_left, Nat.add_zero]
    split
    · simp [*]
    · rw [ih]
      simp [*, Nat.add_right_comm, Nat.add_assoc]

theorem write_acknowledged_iff {ok : Nat → Bool} :
    (write ok).acknowledged = true ↔ ∃ i < 4, ok i = true := by
  rw [write, Nat.exists_lt_succ_left]
  split
  · simp [*]
  · rw [retry_acknowledged_iff]
    simp [*, Nat.add_comm]

end WiscKey.Attempts
