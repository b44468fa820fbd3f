import Mathlib

namespace WiscKey.Mutex

variable {ι : Type*} {holds holds' : ι → Prop} {lock : Option ι} {q : ι}

/-- Whoever is in a critical section owns the lock. -/
def Exclusive (holds : ι → Prop) (lock : Option ι) : Prop := ∀ q, holds q → lock = some q

/-- The owner of the lock is in a critical section. -/
def Owned (holds : ι → Prop) (lock : Option ι) : Prop := ∀ q, lock = some q → holds q

def Only (q : ι) (holds holds' : ι → Prop) : Prop := ∀ q', q' ≠ q → (holds' q' ↔ holds q')

theorem Exclusive.acquire (h : Exclusive holds none) (ho : Only q holds holds') :
    Exclusive holds' (some q) := by
  intro q' hq'
  by_cases he : q' = q
  · rw [he]
  · exact absurd (h q' ((ho q' he).mp hq')) (by simp)

theorem Exclusive.release (h : Exclusive holds lock) (hq : holds q) (ho : Only q holds holds')
    (hq' : ¬ holds' q) : Exclusive holds' none := by
  intro q' hh
  by_cases he : q' = q
  · rw [he] at hh
    exact absurd hh hq'
  · have h₁ := h q hq
    rw [h q' ((ho q' he).mp hh)] at h₁
    cases h₁
    exact absurd rfl he

theorem Exclusive.keep (h : Exclusive holds lock) (hh : ∀ q, holds' q → holds q) :
    Exclusive holds' lock :=
  fun q hq => h q (hh q hq)

theorem Owned.acquire (hq : holds' q) : Owned holds' (some q) := by
  rintro q' ⟨⟩
  exact hq

theorem Owned.release : Owned holds' none := by
  rintro q' ⟨⟩

theorem Owned.keep (h : Owned holds lock) (hh : ∀ q, holds q → holds' q) : Owned holds' lock :=
  fun q hq => hh q (h q hq)

end WiscKey.Mutex
