import WiscKey.LogLayout
import WiscKey.Database

namespace WiscKey.LogRecords

open WiscKey.Bytes WiscKey.ValueLog WiscKey.LogLayout WiscKey.Database

/-- A record points at the bytes of a value. The bytes are all in the file or
all in the buffer. -/
structure Stored (l : VLog) (r : Record) (v : Value) : Prop where
  size_eq : r.size = v.length
  bytes : slice l.contents r.offset v.length = v
  below : r.offset + r.size ≤ l.contents.length
  whole : r.offset + r.size ≤ l.lba ∨ l.lba ≤ r.offset

/-- Every record of the index points at bytes in the log file of its key. -/
def Flushed (s : State) : Prop :=
  ∀ e ∈ s.index.toList, e.2.offset + e.2.size ≤ (s.log e.1).file.length

instance (s : State) : Decidable (Flushed s) := List.decidableBAll _ _

theorem Flushed.le {s : State} (h : Flushed s) {k : Key} {r : Record} (hr : s.index[k]? = some r) :
    r.offset + r.size ≤ (s.log k).file.length :=
  h (k, r) (Std.ExtTreeMap.mem_toList_iff_getElem?_eq_some.mpr hr)

/-- What any operation does to a log: contents are only added, and the file
grows by nothing or by all the contents there were. -/
structure Grows (l l' : VLog) : Prop where
  contents : l.contents <+: l'.contents
  lba : l'.lba = l.lba ∨ l.contents.length ≤ l'.lba

theorem Stored.grow {l l' : VLog} {r : Record} {v : Value} (h : Stored l r v)
    (hg : Grows l l') : Stored l' r v where
  size_eq := h.size_eq
  bytes := slice_eq_of_prefix hg.contents h.bytes
  below := h.below.trans hg.contents.length_le
  whole := by
    obtain he | hl := hg.lba
    · rw [he]
      exact h.whole
    · exact Or.inl (h.below.trans hl)

theorem rel_grow {l l' : VLog} {r : Option Record} {v : Option Value}
    (h : Option.Rel (Stored l) r v) (hg : Grows l l') : Option.Rel (Stored l') r v := by
  cases h with
  | some h => exact Option.Rel.some (h.grow hg)
  | none => exact Option.Rel.none

theorem Grows.refl (l : VLog) : Grows l l := ⟨List.prefix_rfl, Or.inl rfl⟩

theorem Grows.trans {l l' l'' : VLog} (h : Grows l l') (h' : Grows l' l'') : Grows l l'' where
  contents := h.contents.trans h'.contents
  lba := by
    obtain he' | hl' := h'.lba
    · rw [he']
      exact h.lba
    · exact Or.inr (h.contents.length_le.trans hl')

theorem Grows.lba_le {size : Nat} {l l' : VLog} (h : Within size l) (hg : Grows l l') :
    l.lba ≤ l'.lba := by
  obtain he | hl := hg.lba
  · exact he.ge
  · rw [length_contents h] at hl
    exact (Nat.le_add_right _ _).trans hl

theorem writeOut_lba {size : Nat} {l : VLog} (h : Within size l) :
    l.contents.length ≤ l.writeOut.lba := by
  rw [length_contents h]
  exact Nat.add_le_add_left (le_roundUp _ (by decide)) _

theorem append_grows {b : UInt64} (hb : PageBuffer b) {l : VLog} (h : Layout (bufSize b) l)
    {v : Value} (hv : v.length ≤ pageSize) : Grows l (l.append b v).1 where
  contents := (List.prefix_append _ v).trans (append_contents h v).2
  lba := by
    have hw := copyIn_within h.toWithin (room_for_page h (pageSize_le hb) hv)
    simp only [VLog.append]
    split
    · refine Or.inr (le_trans ?_ (writeOut_lba hw))
      rw [copyIn_contents h.toWithin, List.length_append]
      exact Nat.le_add_right _ _
    · exact Or.inl rfl

theorem append_stored {b : UInt64} (hb : PageBuffer b) {l : VLog} (h : Layout (bufSize b) l)
    {v : Value} (hv : v.length ≤ pageSize) :
    Stored (l.append b v).1 ⟨(l.append b v).2, v.length⟩ v := by
  obtain ⟨ho, hp⟩ := append_contents h v
  have hw := copyIn_within h.toWithin (room_for_page h (pageSize_le hb) hv)
  have hlen := hp.length_le
  rw [List.length_append] at hlen
  refine ⟨rfl, ?_, ?_, ?_⟩
  · refine slice_eq_of_prefix hp ?_
    simpa [ho] using slice_middle l.contents v []
  · simpa only [ho] using hlen
  · simp only [ho]
    simp only [VLog.append]
    split
    · refine Or.inl (le_trans ?_ (writeOut_lba hw))
      rw [copyIn_contents h.toWithin, List.length_append]
    · refine Or.inr ?_
      rw [length_contents h.toWithin]
      exact Nat.le_add_right _ _

theorem flush_grows {size : Nat} {l : VLog} (h : Within size l) : Grows l l.flush where
  contents := flush_contents l
  lba := by
    unfold VLog.flush
    split
    · exact Or.inl rfl
    · exact Or.inr (writeOut_lba h)

theorem flush_lba {size : Nat} {l : VLog} (h : Within size l) :
    l.contents.length ≤ l.flush.lba := by
  unfold VLog.flush
  split
  · rename_i h0
    rw [length_contents h, h0, Nat.add_zero]
  · exact writeOut_lba h

theorem reopen_grows {size : Nat} {l : VLog} (h : Layout size l) (hs : pageSize ∣ size) (b : UInt64)
    (mem : Nat → UInt8) : Grows l (l.reopen b mem) where
  contents := reopen_contents b l mem
  lba := by
    refine Or.inr ?_
    have hl := (flush_layout hs h).lba_eq
    rw [VLog.reopen, VLog.openLog, ← hl]
    exact flush_lba h.toWithin

theorem file_slice {size : Nat} {l : VLog} (h : Within size l) {off n : Nat}
    (hl : off + n ≤ l.lba) : slice l.contents off n = slice l.file off n :=
  slice_append_left _ _ _ _ (h.lba_eq ▸ hl)

theorem cut_alignedRead (file : List UInt8) (r : Record) :
    cut (alignedRead file r) r = slice file r.offset r.size := by
  have ha := roundDown_le r.offset pageSize
  have hr := le_roundUp (r.offset - roundDown r.offset pageSize + r.size) (m := pageSize)
    (by decide)
  rw [cut, alignedRead, slice_slice _ _ _ _ _ hr, Nat.add_sub_of_le ha]

theorem cut_stored {size : Nat} {l : VLog} (h : Within size l) {r : Record} {v : Value}
    (hs : Stored l r v) (hl : r.offset + r.size ≤ l.lba) : cut (alignedRead l.file r) r = v := by
  rw [cut_alignedRead, ← file_slice h hl, hs.size_eq, hs.bytes]

theorem readLog_eq_some {size : Nat} {l : VLog} (h : Within size l) {r : Record}
    (hl : r.offset + r.size ≤ l.lba) (h0 : 0 < r.size) :
    readLog l.file r = some (cut (alignedRead l.file r) r) := by
  have ha := roundDown_le r.offset pageSize
  have hr := le_roundUp (r.offset - roundDown r.offset pageSize + r.size) (m := pageSize)
    (by decide)
  have hlba := h.lba_eq
  rw [readLog, if_neg]
  rw [alignedRead, length_slice]
  omega

theorem readLog_unflushed {size : Nat} {l : VLog} (h : Within size l) {r : Record}
    (hl : l.lba ≤ r.offset) : readLog l.file r = none := by
  have ha := le_roundDown h.lba_dvd hl
  have hlba := h.lba_eq
  rw [readLog, if_pos]
  rw [alignedRead, length_slice]
  omega

theorem readLog_stored {size : Nat} {l : VLog} (h : Within size l) {r : Record} {v w : Value}
    (hs : Stored l r v) (hw : readLog l.file r = some w) : w = v := by
  obtain hl | hl := hs.whole
  · rw [readLog] at hw
    split at hw
    · cases hw
    · rw [cut_stored h hs hl] at hw
      exact (Option.some.inj hw).symm
  · rw [readLog_unflushed h hl] at hw
    cases hw

end WiscKey.LogRecords
