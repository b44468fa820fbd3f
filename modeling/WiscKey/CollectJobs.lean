import WiscKey.Collect
import WiscKey.WorkShares

namespace WiscKey.CollectJobs

open WiscKey.Database WiscKey.Collect WiscKey.WorkShares

theorem int32_of_lt {x : Int} (h0 : 0 ≤ x) (h1 : x < 2 ^ 31) : int32 x = x := by
  rw [int32, Int.bmod_def]
  split <;> omega

theorem int32_lt (x : Int) : int32 x < 2 ^ 31 := by
  rw [int32, Int.bmod_def]
  split <;> omega

theorem uint64_of_lt {x : Int} (h0 : 0 ≤ x) (h1 : x < 2 ^ 64) : uint64 x = x :=
  Int.emod_eq_of_lt h0 h1

def todo (keys : List (Key × Record)) (w : Worker) : List (Key × Record) :=
  (keys.drop w.i.toNat).take (w.stop - w.i).toNat

def share (keys : List (Key × Record)) (w : Worker) : Share (Key × Record) where
  todo := todo keys w
  busy := w.pending.isSome

structure InRange (keys : List (Key × Record)) (w : Worker) : Prop where
  nonneg : 0 ≤ w.i
  le : w.i ≤ w.stop
  stop_le : w.stop ≤ keys.length

variable {keys : List (Key × Record)} {w : Worker}

def ofJob (j : Int × Int) : Worker := { i := j.1, stop := int32 (j.1 + j.2), pending := none }

theorem jobs_inRange (hn : keys.length < 2 ^ 31) (q : Nat) (threads : Nat) {start remain : Nat}
    (he : start + remain = keys.length) (hq : q * threads ≤ remain) :
    ∀ j ∈ jobs q (threads + 1) start remain, InRange keys (ofJob j) := by
  induction threads generalizing start remain with
  | zero =>
    intro j hj
    rw [List.mem_singleton.mp hj, ofJob, int32_of_lt (x := remain) (by omega) (by omega),
      int32_of_lt (by omega) (by omega)]
    exact ⟨by simp, by simp, by simp only; omega⟩
  | succ threads ih =>
    rw [Nat.mul_succ] at hq
    intro j hj
    obtain rfl | hj := List.mem_cons.mp hj
    · rw [ofJob, int32_of_lt (by omega) (by omega)]
      exact ⟨by simp, by simp, by simp only; omega⟩
    · have hs : int32 (start + q) = (start + q : Nat) := int32_of_lt (by omega) (by omega)
      have hr : uint64 (remain - q) = (remain - q : Nat) := by
        rw [uint64_of_lt (by omega) (by omega)]
        omega
      rw [hs, hr] at hj
      exact ih (by omega) (by omega) j hj

theorem jobs_todo (hn : keys.length < 2 ^ 31) (q : Nat) (threads : Nat) {start remain : Nat}
    (he : start + remain = keys.length) (hq : q * threads ≤ remain) :
    (jobs q (threads + 1) start remain).flatMap (fun j => todo keys (ofJob j)) =
      keys.drop start := by
  induction threads generalizing start remain with
  | zero =>
    have ht : todo keys (ofJob (start, int32 remain)) = keys.drop start := by
      rw [todo, ofJob, int32_of_lt (x := remain) (by omega) (by omega),
        int32_of_lt (by omega) (by omega)]
      refine List.take_of_length_le ?_
      simp only [List.length_drop]
      omega
    rw [zero_add, jobs, List.flatMap_cons, ht, List.flatMap_nil, List.append_nil]
  | succ threads ih =>
    rw [Nat.mul_succ] at hq
    have hs : int32 (start + q) = (start + q : Nat) := int32_of_lt (by omega) (by omega)
    have hr : uint64 (remain - q) = (remain - q : Nat) := by
      rw [uint64_of_lt (by omega) (by omega)]
      omega
    have ht : todo keys (ofJob (start, q)) = (keys.drop start).take q := by
      have hd : (((start + q : Nat) : Int) - start).toNat = q := by omega
      simp only [todo, ofJob]
      rw [hs, hd, Int.toNat_natCast]
    rw [jobs, List.flatMap_cons, ht, hs, hr, ih (by omega) (by omega), ← List.drop_drop,
      List.take_append_drop]

section Spawn

variable {threads : Nat} (hn : keys.length < 2 ^ 31)

include hn

theorem spawn_eq :
    spawn threads keys.length =
      (jobs ((keys.length / threads : Nat) : Int) threads (0 : Nat) keys.length).map ofJob := by
  have hq := Nat.div_le_self keys.length threads
  have hi : int32 ((keys.length / threads : Nat) : Int) = (keys.length / threads : Nat) :=
    int32_of_lt (Int.natCast_nonneg _) (by exact_mod_cast hq.trans_lt hn)
  rw [spawn, ← Int.natCast_ediv, hi]
  rfl

theorem spawn_inRange (ht : 0 < threads) :
    ∀ w ∈ spawn threads keys.length, InRange keys w := by
  obtain ⟨n, rfl⟩ : ∃ n, threads = n + 1 := ⟨threads - 1, by omega⟩
  have hq := (Nat.mul_le_mul_left _ n.le_succ).trans (Nat.div_mul_le_self keys.length (n + 1))
  rw [spawn_eq hn]
  intro w hw
  obtain ⟨j, hj, rfl⟩ := List.mem_map.mp hw
  exact jobs_inRange hn _ n (zero_add _) hq j hj

theorem spawn_todo (ht : 0 < threads) :
    (spawn threads keys.length).flatMap (todo keys) = keys := by
  obtain ⟨n, rfl⟩ : ∃ n, threads = n + 1 := ⟨threads - 1, by omega⟩
  have hq := (Nat.mul_le_mul_left _ n.le_succ).trans (Nat.div_mul_le_self keys.length (n + 1))
  rw [spawn_eq hn, List.flatMap_map]
  exact jobs_todo hn _ n (zero_add _) hq

end Spawn

theorem spawn_pending {threads n : Nat} (hw : w ∈ spawn threads n) : w.pending = none := by
  obtain ⟨j, -, rfl⟩ := List.mem_map.mp hw
  rfl

theorem spawn_stop_lt {threads n : Nat} (hw : w ∈ spawn threads n) : w.stop < 2 ^ 31 := by
  obtain ⟨j, -, rfl⟩ := List.mem_map.mp hw
  exact int32_lt _

end WiscKey.CollectJobs
