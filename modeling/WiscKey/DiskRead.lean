import WiscKey.OutputString

namespace WiscKey.DiskRead

open WiscKey.Runs WiscKey.ValueLog WiscKey.LogLayout WiscKey.LogRecords WiscKey.Bytes
  WiscKey.Database WiscKey.Representation WiscKey.OutputString

variable {o : Options} {m : Store} {s : State} {k : Key} {v : Value} {r : Record}

theorem roundDown_of_dvd {n d : Nat} (h : d ∣ n) : roundDown n d = n := by
  rw [roundDown, if_pos (Nat.mod_eq_zero_of_dvd h)]

theorem roundDown_lt {n d : Nat} (h : ¬ d ∣ n) : roundDown n d < n := by
  have hm : n % d ≠ 0 := fun he => h (Nat.dvd_of_mod_eq_zero he)
  have hle := Nat.mod_le n d
  rw [roundDown, if_neg hm]
  omega

theorem readLog_unaligned {size : Nat} {l : VLog} (h : Within size l)
    (hl : r.offset + r.size ≤ l.lba) (ha : ¬ pageSize ∣ r.offset) :
    readLog l.file r = some (cut (alignedRead l.file r) r) := by
  have hlt := roundDown_lt ha
  have hr := le_roundUp (r.offset - roundDown r.offset pageSize + r.size) (m := pageSize)
    (by decide)
  have hlba := h.lba_eq
  rw [readLog, if_neg]
  rw [alignedRead, length_slice]
  omega

theorem readLog_empty (file : List UInt8) (h0 : r.size = 0) (ha : pageSize ∣ r.offset) :
    readLog file r = none := by
  rw [readLog, if_pos]
  rw [alignedRead, roundDown_of_dvd ha, h0, length_slice]
  simp [roundUp]

theorem readLog_eq_value_iff {size : Nat} {l : VLog} (h : Within size l) (hst : Stored l r v)
    (hl : r.offset + r.size ≤ l.lba) :
    readLog l.file r = some v ↔ ¬ (v = [] ∧ pageSize ∣ r.offset) := by
  have hcut := cut_stored h hst hl
  constructor
  · rintro hr ⟨rfl, ha⟩
    rw [readLog_empty _ hst.size_eq ha] at hr
    cases hr
  · intro hn
    by_cases ha : pageSize ∣ r.offset
    · have h0 : 0 < r.size := by
        rw [hst.size_eq]
        exact List.length_pos_iff.mpr (fun he => hn ⟨he, ha⟩)
      rw [readLog_eq_some h hl h0, hcut]
    · rw [readLog_unaligned h hl ha, hcut]

theorem get_eq (s : State) (k : Key) : (Database.get s k).2 =
    match (s.readCache k).2 with
    | some v => .ok v
    | none =>
      match s.index[k]? with
      | none => .notFound
      | some r =>
        match (s.readBuffer k).2 with
        | some v => .ok v
        | none =>
          match readLog (s.log k).file r with
          | none => .notFound
          | some v => .ok v := by
  have hb : (s.readBuffer k).2 = ((s.readCache k).1.readBuffer k).2 := by
    rw [State.readBuffer, State.readBuffer, State.buffer, State.buffer, (readCache_frame s k).2.2]
  have hg := Sequential.get_gets s k
  rw [hb]
  generalize Database.get s k = p at hg ⊢
  cases hg with
  | cached v hv => simp only [hv, List.nil_append]
  | unindexed hv hi => simp only [hv, hi]
  | buffered r v hv hi hw => simp only [hv, hi, hw, List.nil_append]
  | unread r hv hi hw hl => simp only [hv, hi, hw, hl]
  | loaded r v hv hi hw hl => simp only [hv, hi, hw, hl, List.nil_append]

theorem get_of_misses (hr : s.index[k]? = some r) (hc : (s.readCache k).2 = none)
    (hb : (s.readBuffer k).2 = none) :
    (Database.get s k).2 = .ok v ↔ readLog (s.log k).file r = some v := by
  rw [get_eq]
  simp only [hc, hr, hb]
  cases readLog (s.log k).file r with
  | none => simp
  | some w => simp

/-- A value that is in the log file and in no cache is read back, unless it is
empty and starts a page. -/
theorem get_from_disk_iff (hb : PageBuffer o.logBufSize) (mem : Fin 4 → Nat → UInt8)
    (calls : List Call) (s : State) (ha : AlongM (step o) Admitted (openFresh o mem) calls)
    (hrun : calls.foldlM (step o) (openFresh o mem) = some s) (k : Key) (v : Value) (r : Record)
    (hv : lastWrite calls k = some v) (hr : s.index[k]? = some r)
    (hl : r.offset + r.size ≤ (s.log k).lba) (hc : (s.readCache k).2 = none)
    (hbuf : (s.readBuffer k).2 = none) :
    (Database.get s k).2 = .ok v ↔ ¬ (v = [] ∧ pageSize ∣ r.offset) := by
  have h := run_represents hb mem ha hrun
  obtain ⟨w, hw, hst⟩ := h.stored hr
  rw [hv] at hw
  cases hw
  rw [get_of_misses hr hc hbuf]
  exact readLog_eq_value_iff (h.layout_log k).toWithin hst hl

theorem get_from_disk_reopened : ∃ s r,
    reopened.foldlM (step ⟨32768, 0⟩) (openFresh ⟨32768, 0⟩ fun _ _ => 0) = some s ∧
      s.index[([7] : Key)]? = some r ∧ (Database.get s [7]).2 = .ok [1] := by
  have hrun : ∃ s ∈ reopened.foldlM (step ⟨32768, 0⟩) (openFresh ⟨32768, 0⟩ fun _ _ => 0),
      ∃ r ∈ s.index[([7] : Key)]?, r.offset + r.size ≤ (s.log [7]).lba ∧
        (s.readCache [7]).2 = none ∧ (s.readBuffer [7]).2 = none := by
    decide +kernel
  obtain ⟨s, hs, r, hr, hl, hc, hbuf⟩ := hrun
  refine ⟨s, r, hs, hr, ?_⟩
  exact (get_from_disk_iff (by decide) (fun _ _ => 0) reopened s (by decide +kernel) hs [7] [1] r
    (by decide +kernel) hr hl hc hbuf).mpr (fun h => nomatch h.1)

theorem empty_value_not_found : ∃ s r,
    [Call.put [7] [], .reopen fun _ _ => 0].foldlM (step ⟨32768, 0⟩)
        (openFresh ⟨32768, 0⟩ fun _ _ => 0) = some s ∧
      s.index[([7] : Key)]? = some r ∧ r.offset + r.size ≤ (s.log [7]).lba ∧
      (s.readCache [7]).2 = none ∧ (s.readBuffer [7]).2 = none ∧
      (Database.get s [7]).2 = .notFound := by
  have hrun : ∃ s ∈ [Call.put [7] [], .reopen fun _ _ => 0].foldlM (step ⟨32768, 0⟩)
      (openFresh ⟨32768, 0⟩ fun _ _ => 0), ∃ r ∈ s.index[([7] : Key)]?,
      r.offset + r.size ≤ (s.log [7]).lba ∧ (s.readCache [7]).2 = none ∧
      (s.readBuffer [7]).2 = none ∧ (Database.get s [7]).2 = .notFound := by
    decide +kernel
  obtain ⟨s, hs, r, hr, h⟩ := hrun
  exact ⟨s, r, hs, hr, h⟩

end WiscKey.DiskRead
