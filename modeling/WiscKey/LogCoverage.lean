import WiscKey.LogHistory

namespace WiscKey.LogCoverage

open WiscKey.ValueLog WiscKey.LogLayout WiscKey.LogHistory

def Padding (as : List Access) (x : Nat) : Prop :=
  ∃ lba used len, Access.pwrite lba used len ∈ as ∧ lba + used ≤ x ∧ x < lba + len

theorem Padding.mono {as cs : List Access} {x : Nat} (h : Padding as x) (hs : as ⊆ cs) :
    Padding cs x := by
  obtain ⟨lba, used, len, hm, hx⟩ := h
  exact ⟨lba, used, len, hs hm, hx⟩

theorem writeOut_covered {size : Nat} {l : VLog} (h : Within size l) (hs : pageSize ∣ size)
    {x : Nat} (hx : x < l.writeOut.contents.length) :
    x < l.contents.length ∨ Padding [writeAccess l] x := by
  rw [length_contents (writeOut_layout h hs).toWithin] at hx
  rw [length_contents h]
  obtain hlt | hge := Nat.lt_or_ge x (l.lba + l.bufOffset)
  · exact Or.inl hlt
  · exact Or.inr ⟨_, _, _, List.mem_singleton_self _, hge, hx⟩

theorem append_covered {b : UInt64} (hb : PageBuffer b) {s : Session}
    (h : Layout (bufSize b) s.log) {v : List UInt8} (hv : v.length ≤ pageSize) {x : Nat}
    (hx : x < (s.append b v).log.contents.length) :
    x < s.log.contents.length ∨
      (s.log.append b v).2 ≤ x ∧ x < (s.log.append b v).2 + v.length ∨
      Padding (s.append b v).accesses x := by
  have hw := copyIn_within h.toWithin (room_for_page h (pageSize_le hb) hv)
  have hc : (s.log.copyIn v).contents.length = s.log.contents.length + v.length := by
    rw [copyIn_contents h.toWithin, List.length_append]
  have ho := (append_contents h v).1
  have hold : x < (s.log.copyIn v).contents.length → x < s.log.contents.length ∨
      (s.log.append b v).2 ≤ x ∧ x < (s.log.append b v).2 + v.length := by
    omega
  simp only [Session.append, VLog.append] at hx
  split at hx
  · rename_i hf
    obtain hlt | hp := writeOut_covered hw hb.2 hx
    · exact (hold hlt).imp_right Or.inl
    · refine Or.inr (Or.inr (hp.mono ?_))
      simp [Session.append, appendAccesses, hf]
  · exact (hold hx).imp_right Or.inl

theorem flush_covered {size : Nat} {s : Session} (h : Within size s.log) (hs : pageSize ∣ size)
    {x : Nat} (hx : x < s.flush.log.contents.length) :
    x < s.log.contents.length ∨ Padding s.flush.accesses x := by
  simp only [Session.flush, VLog.flush] at hx
  split at hx
  · exact Or.inl hx
  · rename_i h0
    refine (writeOut_covered h hs hx).imp_right (fun hp => hp.mono ?_)
    simp [Session.flush, flushAccesses, h0]

theorem append_accesses {b : UInt64} {s : Session} {v : List UInt8} {x : Nat}
    (h : Padding s.accesses x) : Padding (s.append b v).accesses x :=
  h.mono (List.subset_append_left _ _)

theorem flush_accesses {s : Session} {x : Nat} (h : Padding s.accesses x) :
    Padding s.flush.accesses x :=
  h.mono (List.subset_append_left _ _)

end WiscKey.LogCoverage
