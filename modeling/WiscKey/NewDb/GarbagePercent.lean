import WiscKey.NewDb.CollectDefined

namespace WiscKey.NewDb.GarbagePercent

open WiscKey.Vectors WiscKey.NewDb.Collect WiscKey.NewDb.CollectSpec WiscKey.NewDb.CollectDefined

def span (f : SstFile) : Nat := f.largestkey.toNat - f.smallestkey.toNat

/-- The selection of a file is right: the division has a result, it is that of the
numbers before they were converted to `int`, and the file is ready when it is not
being compacted and a hundredth of its keys is garbage. -/
structure Right (keys : List UInt64) (level : Int) (f : SstFile) : Prop where
  percent : garbagePercent (toInt (upperBound keys f.largestkey - lowerBound keys f.smallestkey))
    (toInt (f.largestkey - f.smallestkey).toNat) =
      some ((100 * garbageIn keys f / span f : Nat) : Int)
  ready : ∃ m, gcMetadata keys level f = some m ∧
    (m.readyForGc = true ↔ f.beingCompacted = false ∧ span f ≤ 100 * garbageIn keys f)

/-- The divisor is not zero, the product fits, and either the span keeps its value or
both quotients are zero. A count that does not fit itself leaves only the comparison. -/
def Fits (g n : Nat) : Prop :=
  n % 2 ^ 32 ≠ 0 ∧
    if g < 2 ^ 31 then 100 * g < 2 ^ 31 ∧ (n < 2 ^ 31 ∨ 100 * g < (toInt n).natAbs)
    else InInt (toInt g * 100) ∧ (toInt g * 100).tdiv (toInt n) = (100 * g / n : Nat)

instance (g n : Nat) : Decidable (Fits g n) := inferInstanceAs (Decidable (_ ∧ _))

variable {keys : List UInt64} {f : SstFile} {g n : Nat}

theorem toInt_of_lt (h : n < 2 ^ 31) : toInt n = n := by
  rw [toInt, Int.bmod]
  split
  · omega
  · omega

theorem toInt_ne_zero : toInt n ≠ 0 ↔ n % 2 ^ 32 ≠ 0 := by
  rw [toInt, Int.bmod]
  split
  · omega
  · omega

theorem numberOfKeyInFile_eq : numberOfKeyInFile f = toInt (span f) := by
  rw [numberOfKeyInFile, UInt64.toNat_sub_of_le _ _ f.ordered, span]

theorem tdiv_eq_zero_iff {d : Int} (hd : d ≠ 0) :
    ((g : Int) * 100).tdiv d = 0 ↔ 100 * g < d.natAbs := by
  have hz : ((g : Int) * 100).natAbs = 100 * g := by omega
  rw [← Int.natAbs_eq_zero, Int.natAbs_tdiv, hz]
  exact Nat.div_eq_zero_iff.trans (or_iff_right (Int.natAbs_ne_zero.mpr hd))

theorem tdiv_span (h : n < 2 ^ 31) :
    ((g : Int) * 100).tdiv (toInt n) = (100 * g / n : Nat) := by
  rw [toInt_of_lt h, Int.tdiv_eq_ediv_of_nonneg (by omega)]
  push_cast
  rw [mul_comm]

theorem garbagePercent_iff :
    garbagePercent (toInt g) (toInt n) = some ((100 * g / n : Nat) : Int) ↔ Fits g n := by
  rw [garbagePercent, Option.ite_none_right_eq_some, Option.some.injEq, Fits, and_assoc,
    toInt_ne_zero]
  refine and_congr_right fun hn => ?_
  split
  · rename_i hg
    have hp : InInt ((g : Int) * 100) ↔ 100 * g < 2 ^ 31 := by
      rw [InInt]
      omega
    rw [toInt_of_lt hg, hp]
    refine and_congr_right fun hlt => ?_
    by_cases hs : n < 2 ^ 31
    · simp only [tdiv_span hs, hs, true_or]
    · -- A span that does not fit is more than any product that does.
      have hz : 100 * g / n = 0 := Nat.div_eq_of_lt (by omega)
      simp only [hz, Nat.cast_zero, hs, false_or]
      exact tdiv_eq_zero_iff (toInt_ne_zero.mpr hn)
  · rfl

theorem one_le_percent (hn : n ≠ 0) : (1 : Int) ≤ (100 * g / n : Nat) ↔ n ≤ 100 * g := by
  rw [Nat.one_le_cast, Nat.one_le_div_iff (Nat.pos_of_ne_zero hn)]

theorem ready_of_fits (hs : keys.Pairwise (fun a b => a ≤ b)) (level : Int)
    (h : Fits (garbageIn keys f) (span f)) :
    ∃ m, gcMetadata keys level f = some m ∧
      (m.readyForGc = true ↔ f.beingCompacted = false ∧ span f ≤ 100 * garbageIn keys f) := by
  have hp := garbagePercent_iff.mpr h
  rw [garbagePercent, Option.ite_none_right_eq_some, Option.some.injEq] at hp
  obtain ⟨hm, hq⟩ := hp
  have hn := numberOfKeyInFile_eq (f := f)
  have hd : Measurable keys f := ⟨by rw [hn]; exact hm.1, hm.2⟩
  refine ⟨metadata keys level f, ?_, ?_⟩
  · rw [gcMetadata_eq hs, if_pos hd]
  · have h0 : span f ≠ 0 := by
      have h1 := h.1
      omega
    rw [metadata, ready, hn, hq, Bool.and_eq_true, Bool.not_eq_true', decide_eq_true_eq,
      one_le_percent h0]

end WiscKey.NewDb.GarbagePercent
