import WiscKey.ValueLog

namespace WiscKey.LogLayout

open WiscKey.Bytes WiscKey.ValueLog

/-- The buffers of the partitions are whole pages, and there is at least one. -/
def PageBuffer (logBufSize : UInt64) : Prop :=
  0 < bufSize logBufSize ∧ pageSize ∣ bufSize logBufSize

instance (logBufSize : UInt64) : Decidable (PageBuffer logBufSize) :=
  inferInstanceAs (Decidable (_ ∧ _))

structure Within (size : Nat) (l : VLog) : Prop where
  lba_eq : l.lba = l.file.length
  lba_dvd : pageSize ∣ l.lba
  buf_length : l.buf.length = size
  offset_le : l.bufOffset ≤ size

/-- What holds of a partition between two operations. There is room for one
more page in the buffer. -/
structure Layout (size : Nat) (l : VLog) : Prop extends Within size l where
  room : l.bufOffset = 0 ∨ l.bufOffset + pageSize < size

theorem pageSize_le {b : UInt64} (hb : PageBuffer b) : pageSize ≤ bufSize b :=
  Nat.le_of_dvd hb.1 hb.2

theorem flushThreshold_eq {b : UInt64} (hb : PageBuffer b) :
    flushThreshold b = bufSize b - pageSize := by
  have hle : (4096 : UInt64) ≤ b / 4 := UInt64.le_iff_toNat_le.mpr (pageSize_le hb)
  exact UInt64.toNat_sub_of_le _ _ hle

theorem length_contents {size : Nat} {l : VLog} (h : Within size l) :
    l.contents.length = l.lba + l.bufOffset := by
  have ho := h.offset_le
  rw [VLog.contents, List.length_append, List.length_take, h.buf_length, h.lba_eq]
  omega

theorem room_for_page {size : Nat} {l : VLog} (h : Layout size l) (hs : pageSize ≤ size)
    {v : List UInt8} (hv : v.length ≤ pageSize) : l.bufOffset + v.length ≤ size := by
  rcases h.room with h0 | h1 <;> omega

theorem copyIn_within {size : Nat} {l : VLog} (h : Within size l) {v : List UInt8}
    (hv : l.bufOffset + v.length ≤ size) : Within size (l.copyIn v) :=
  ⟨h.lba_eq, h.lba_dvd, by rw [← h.buf_length] at hv ⊢; exact length_overwrite _ _ _ hv, hv⟩

theorem copyIn_contents {size : Nat} {l : VLog} (h : Within size l) (v : List UInt8) :
    (l.copyIn v).contents = l.contents ++ v := by
  have ho : l.bufOffset ≤ l.buf.length := h.buf_length ▸ h.offset_le
  simp only [VLog.contents, VLog.copyIn, take_overwrite _ _ _ ho, List.append_assoc]

theorem writeOut_layout {size : Nat} {l : VLog} (h : Within size l) (hs : pageSize ∣ size) :
    Layout size l.writeOut := by
  have hr : roundUp l.bufOffset pageSize ≤ size := roundUp_le (by decide) hs h.offset_le
  refine ⟨⟨?_, ?_, h.buf_length, Nat.zero_le _⟩, Or.inl rfl⟩
  · rw [VLog.writeOut, List.length_append, List.length_take, h.buf_length, min_eq_left hr,
      ← h.lba_eq]
  · exact (Nat.dvd_add_right h.lba_dvd).mpr (dvd_roundUp _)

theorem writeOut_contents (l : VLog) :
    l.contents <+: l.writeOut.contents := by
  have hw : l.writeOut.contents = l.writeOut.file := by simp [VLog.contents, VLog.writeOut]
  rw [hw, VLog.writeOut, VLog.contents, List.prefix_append_right_inj]
  exact List.take_prefix_take_left (le_roundUp _ (by decide))

theorem append_layout {b : UInt64} (hb : PageBuffer b) {l : VLog} (h : Layout (bufSize b) l)
    {v : List UInt8} (hv : v.length ≤ pageSize) : Layout (bufSize b) (l.append b v).1 := by
  have hw := copyIn_within h.toWithin (room_for_page h (pageSize_le hb) hv)
  simp only [VLog.append]
  split
  · exact writeOut_layout hw hb.2
  · rename_i hlt
    rw [flushThreshold_eq hb] at hlt
    exact ⟨hw, Or.inr (by omega)⟩

theorem append_contents {b : UInt64} {l : VLog} (h : Layout (bufSize b) l) (v : List UInt8) :
    (l.append b v).2 = l.contents.length ∧ l.contents ++ v <+: (l.append b v).1.contents := by
  refine ⟨(length_contents h.toWithin).symm, ?_⟩
  rw [← copyIn_contents h.toWithin v]
  simp only [VLog.append]
  split
  · exact writeOut_contents _
  · exact List.prefix_rfl

theorem flush_layout {size : Nat} (hs : pageSize ∣ size) {l : VLog} (h : Layout size l) :
    Layout size l.flush := by
  unfold VLog.flush
  split
  · exact h
  · exact writeOut_layout h.toWithin hs

theorem flush_offset (l : VLog) : l.flush.bufOffset = 0 := by
  unfold VLog.flush
  split
  · assumption
  · rfl

theorem flush_contents (l : VLog) :
    l.contents <+: l.flush.contents := by
  unfold VLog.flush
  split
  · exact List.prefix_rfl
  · exact writeOut_contents l

theorem openLog_layout (b : UInt64) (file : List UInt8) (mem : Nat → UInt8)
    (hf : pageSize ∣ file.length) : Layout (bufSize b) (VLog.openLog b file mem) :=
  ⟨⟨rfl, hf, by simp [VLog.openLog], Nat.zero_le _⟩, Or.inl rfl⟩

theorem reopen_layout {b : UInt64} (hb : PageBuffer b) {l : VLog} (h : Layout (bufSize b) l)
    (mem : Nat → UInt8) : Layout (bufSize b) (l.reopen b mem) := by
  have hl := flush_layout hb.2 h
  exact openLog_layout b _ mem (hl.lba_eq ▸ hl.lba_dvd)

theorem reopen_contents (b : UInt64) (l : VLog) (mem : Nat → UInt8) :
    l.contents <+: (l.reopen b mem).contents := by
  have hf : (l.reopen b mem).contents = l.flush.contents := by
    simp [VLog.contents, VLog.reopen, VLog.openLog, flush_offset]
  rw [hf]
  exact flush_contents l

end WiscKey.LogLayout
