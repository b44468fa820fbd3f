import Mathlib

namespace WiscKey.Maps

variable {α β : Type*} [Ord α] [Std.TransOrd α] [Std.LawfulEqOrd α] [DecidableEq α]

theorem getElem?_insert (t : Std.ExtTreeMap α β) (a b : α) (v : β) :
    (t.insert a v)[b]? = if a = b then some v else t[b]? := by
  simp only [Std.ExtTreeMap.getElem?_insert, Std.LawfulEqOrd.compare_eq_iff_eq]

theorem getElem?_erase (t : Std.ExtTreeMap α β) (a b : α) :
    (t.erase a)[b]? = if a = b then none else t[b]? := by
  simp only [Std.ExtTreeMap.getElem?_erase, Std.LawfulEqOrd.compare_eq_iff_eq]

end WiscKey.Maps
