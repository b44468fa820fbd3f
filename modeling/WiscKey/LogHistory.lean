import WiscKey.LogLayout

namespace WiscKey.LogHistory

open WiscKey.Bytes WiscKey.ValueLog WiscKey.LogLayout

/-- An access to `aligned_log_buf_`. A `pwrite` is noted with the offset in the
file, the fill level and the rounded number of bytes it takes from the buffer. -/
inductive Access where
  | memcpy (off len : Nat)
  | pwrite (lba used len : Nat)

def Access.InBounds (size : Nat) : Access → Prop
  | .memcpy off len => off + len ≤ size
  | .pwrite _ _ len => len ≤ size

def Access.copied : Access → Option Nat
  | .memcpy _ len => some len
  | .pwrite _ _ _ => none

/-- The next `lba_` and fill level, if an access is made as these are. -/
def Access.follow (c : Nat × Nat) : Access → Option (Nat × Nat)
  | .memcpy off len => if off = c.2 then some (c.1, c.2 + len) else none
  | .pwrite lba used len =>
    if lba = c.1 ∧ used = c.2 ∧ len = roundUp c.2 pageSize then some (c.1 + len, 0) else none

def writeAccess (l : VLog) : Access :=
  .pwrite l.lba l.bufOffset (roundUp l.bufOffset pageSize)

def appendAccesses (logBufSize : UInt64) (l : VLog) (v : List UInt8) : List Access :=
  .memcpy l.bufOffset v.length ::
    if flushThreshold logBufSize ≤ (l.copyIn v).bufOffset then [writeAccess (l.copyIn v)] else []

def flushAccesses (l : VLog) : List Access := if l.bufOffset = 0 then [] else [writeAccess l]

/-- A partition with all the buffer accesses and all the appends made to it,
an append being noted with the offset it returned. -/
structure Session where
  log : VLog
  accesses : List Access
  appends : List (Nat × List UInt8)

def Session.append (b : UInt64) (s : Session) (v : List UInt8) : Session :=
  { log := (s.log.append b v).1
    accesses := s.accesses ++ appendAccesses b s.log v
    appends := s.appends ++ [((s.log.append b v).2, v)] }

def Session.flush (s : Session) : Session :=
  { s with log := s.log.flush, accesses := s.accesses ++ flushAccesses s.log }

def Session.reopen (b : UInt64) (s : Session) (mem : Nat → UInt8) : Session :=
  { s with log := s.log.reopen b mem, accesses := s.accesses ++ flushAccesses s.log }

inductive LogOp where
  | append (p : Fin 4) (v : List UInt8)
  | flushVLog
  | reopen (mem : Fin 4 → Nat → UInt8)

def LogOp.appended (i : Fin 4) : LogOp → Option (List UInt8)
  | .append p v => if p = i then some v else none
  | .flushVLog => none
  | .reopen _ => none

def LogOp.Small : LogOp → Prop
  | .append _ v => v.length ≤ pageSize
  | _ => True

def step (b : UInt64) (s : Fin 4 → Session) : LogOp → Fin 4 → Session
  | .append p v => Function.update s p ((s p).append b v)
  | .flushVLog => fun i => (s i).flush
  | .reopen mem => fun i => (s i).reopen b (mem i)

def fresh (b : UInt64) (mem : Fin 4 → Nat → UInt8) : Fin 4 → Session :=
  fun i => { log := VLog.openLog b [] (mem i), accesses := [], appends := [] }

structure Good (b : UInt64) (s : Session) : Prop where
  layout : Layout (bufSize b) s.log
  bounds : ∀ a ∈ s.accesses, a.InBounds (bufSize b)
  stored : ∀ a ∈ s.appends, slice s.log.contents a.1 a.2.length = a.2
  below : ∀ a ∈ s.appends, a.1 + a.2.length ≤ s.log.contents.length
  ordered : s.appends.Pairwise (fun a c => a.1 + a.2.length ≤ c.1)

theorem Good.extend {b : UInt64} {s : Session} (h : Good b s) {l : VLog} {as : List Access}
    (hl : Layout (bufSize b) l) (hp : s.log.contents <+: l.contents)
    (ha : ∀ a ∈ as, a.InBounds (bufSize b)) :
    Good b { s with log := l, accesses := s.accesses ++ as } where
  layout := hl
  bounds := by
    intro a hm
    rcases List.mem_append.mp hm with hm | hm
    · exact h.bounds a hm
    · exact ha a hm
  stored := fun a hm => slice_eq_of_prefix hp (h.stored a hm)
  below := fun a hm => (h.below a hm).trans hp.length_le
  ordered := h.ordered

theorem writeAccess_inBounds {size : Nat} {l : VLog} (hs : pageSize ∣ size) (h : Within size l) :
    (writeAccess l).InBounds size :=
  roundUp_le (by decide) hs h.offset_le

theorem flushAccesses_inBounds {size : Nat} {l : VLog} (hs : pageSize ∣ size)
    (h : Within size l) : ∀ a ∈ flushAccesses l, a.InBounds size := by
  intro a hm
  unfold flushAccesses at hm
  split at hm
  · simp at hm
  · rw [List.mem_singleton.mp hm]
    exact writeAccess_inBounds hs h

theorem appendAccesses_inBounds {b : UInt64} (hb : PageBuffer b) {l : VLog}
    (h : Layout (bufSize b) l) {v : List UInt8} (hv : v.length ≤ pageSize) :
    ∀ a ∈ appendAccesses b l v, a.InBounds (bufSize b) := by
  have hr := room_for_page h (pageSize_le hb) hv
  intro a hm
  rcases List.mem_cons.mp hm with rfl | hm
  · exact hr
  · split at hm
    · rw [List.mem_singleton.mp hm]
      exact writeAccess_inBounds hb.2 (copyIn_within h.toWithin hr)
    · simp at hm

theorem append_good {b : UInt64} (hb : PageBuffer b) {s : Session} (h : Good b s)
    {v : List UInt8} (hv : v.length ≤ pageSize) : Good b (s.append b v) := by
  obtain ⟨ho, hp⟩ := append_contents h.layout v
  have he := h.extend (append_layout hb h.layout hv) ((List.prefix_append _ v).trans hp)
    (appendAccesses_inBounds hb h.layout hv)
  refine ⟨he.layout, he.bounds, ?_, ?_, ?_⟩
  · intro a hm
    rcases List.mem_append.mp hm with hm | hm
    · exact he.stored a hm
    · rw [List.mem_singleton.mp hm, ho]
      refine slice_eq_of_prefix hp ?_
      simpa using slice_middle s.log.contents v []
  · intro a hm
    rcases List.mem_append.mp hm with hm | hm
    · exact he.below a hm
    · rw [List.mem_singleton.mp hm, ho]
      simpa [Session.append] using hp.length_le
  · refine List.pairwise_append.mpr ⟨h.ordered, List.pairwise_singleton _ _, ?_⟩
    intro a hm c hc
    rw [List.mem_singleton.mp hc, ho]
    exact h.below a hm

theorem step_good {b : UInt64} (hb : PageBuffer b) {s : Fin 4 → Session}
    (h : ∀ i, Good b (s i)) {op : LogOp} (hop : op.Small) (i : Fin 4) :
    Good b (step b s op i) := by
  cases op with
  | append p v =>
    by_cases hi : i = p
    · subst i
      simpa only [step, Function.update_self] using append_good hb (h p) hop
    · simpa only [step, Function.update_of_ne hi] using h i
  | flushVLog =>
    exact (h i).extend (flush_layout hb.2 (h i).layout) (flush_contents (s i).log)
      (flushAccesses_inBounds hb.2 (h i).layout.toWithin)
  | reopen mem =>
    exact (h i).extend (reopen_layout hb (h i).layout (mem i))
      (reopen_contents b (s i).log (mem i))
      (flushAccesses_inBounds hb.2 (h i).layout.toWithin)

theorem fresh_good (b : UInt64) (mem : Fin 4 → Nat → UInt8) (i : Fin 4) :
    Good b (fresh b mem i) :=
  ⟨openLog_layout b [] (mem i) (by simp), by simp [fresh], by simp [fresh], by simp [fresh],
    by simp [fresh]⟩

theorem run_good {b : UInt64} (hb : PageBuffer b) (mem : Fin 4 → Nat → UInt8)
    (ops : List LogOp) (hops : ∀ op ∈ ops, op.Small) (i : Fin 4) :
    Good b (ops.foldl (step b) (fresh b mem) i) := by
  revert i
  refine List.foldlRecOn (motive := fun s => ∀ i, Good b (s i)) ops (step b) (fresh_good b mem) ?_
  intro s hs op hm
  exact step_good hb hs (hops op hm)

/-- The histories of a partition are those of the values `vs`, in this order: one
entry and one copy into the buffer for each. Every access is made as `lba_` and the
fill level were then. -/
structure Noted (vs : List (List UInt8)) (s : Session) : Prop where
  appends : s.appends.map Prod.snd = vs
  copied : s.accesses.filterMap Access.copied = vs.map List.length
  followed : s.accesses.foldlM Access.follow (0, 0) = some (s.log.lba, s.log.bufOffset)

theorem flushAccesses_copied (l : VLog) : (flushAccesses l).filterMap Access.copied = [] := by
  unfold flushAccesses
  split <;> rfl

theorem writeAccess_follow (l : VLog) :
    (writeAccess l).follow (l.lba, l.bufOffset) = some (l.writeOut.lba, l.writeOut.bufOffset) := by
  simp [writeAccess, Access.follow, VLog.writeOut]

theorem flushAccesses_follow (l : VLog) :
    (flushAccesses l).foldlM Access.follow (l.lba, l.bufOffset) =
      some (l.flush.lba, l.flush.bufOffset) := by
  unfold flushAccesses VLog.flush
  split
  · rfl
  · simp [writeAccess_follow]

theorem appendAccesses_copied (b : UInt64) (l : VLog) (v : List UInt8) :
    (appendAccesses b l v).filterMap Access.copied = [v.length] := by
  unfold appendAccesses
  split <;> rfl

theorem appendAccesses_follow (b : UInt64) (l : VLog) (v : List UInt8) :
    (appendAccesses b l v).foldlM Access.follow (l.lba, l.bufOffset) =
      some ((l.append b v).1.lba, (l.append b v).1.bufOffset) := by
  have hcopy : (Access.memcpy l.bufOffset v.length).follow (l.lba, l.bufOffset) =
      some ((l.copyIn v).lba, (l.copyIn v).bufOffset) := if_pos rfl
  simp only [appendAccesses, VLog.append, List.foldlM_cons, hcopy]
  split
  · simp [writeAccess_follow]
  · rfl

theorem Noted.append {vs : List (List UInt8)} {s : Session} (h : Noted vs s) (b : UInt64)
    (v : List UInt8) : Noted (vs ++ [v]) (s.append b v) where
  appends := by simp [Session.append, h.appends]
  copied := by simp [Session.append, h.copied, appendAccesses_copied]
  followed := by
    simp only [Session.append, List.foldlM_append, h.followed]
    exact appendAccesses_follow b s.log v

theorem Noted.flush {vs : List (List UInt8)} {s : Session} (h : Noted vs s) :
    Noted vs s.flush where
  appends := h.appends
  copied := by simp [Session.flush, h.copied, flushAccesses_copied]
  followed := by
    simp only [Session.flush, List.foldlM_append, h.followed]
    exact flushAccesses_follow s.log

theorem Noted.reopen {b : UInt64} (hb : PageBuffer b) {vs : List (List UInt8)} {s : Session}
    (h : Noted vs s) (hg : Good b s) (mem : Nat → UInt8) : Noted vs (s.reopen b mem) where
  appends := h.appends
  copied := h.flush.copied
  followed := by
    -- The constructor takes `lba_` from the file, where the flush has left it.
    have hf := h.flush.followed
    rw [Session.flush, (flush_layout hb.2 hg.layout).lba_eq, flush_offset] at hf
    exact hf

theorem step_noted {b : UInt64} (hb : PageBuffer b) {s : Fin 4 → Session} {i : Fin 4}
    {vs : List (List UInt8)} (h : Noted vs (s i)) (hg : Good b (s i)) (op : LogOp) :
    Noted (vs ++ (op.appended i).toList) (step b s op i) := by
  cases op with
  | append p v =>
    by_cases hi : p = i
    · subst p
      simpa [step, LogOp.appended] using h.append b v
    · simpa [step, LogOp.appended, hi, Function.update_of_ne (Ne.symm hi)] using h
  | flushVLog => simpa [step, LogOp.appended] using h.flush
  | reopen mem => simpa [step, LogOp.appended] using h.reopen hb hg (mem i)

theorem run_noted {b : UInt64} (hb : PageBuffer b) (mem : Fin 4 → Nat → UInt8)
    (ops : List LogOp) (hops : ∀ op ∈ ops, op.Small) (i : Fin 4) :
    Noted (ops.filterMap (LogOp.appended i)) (ops.foldl (step b) (fresh b mem) i) := by
  induction ops using List.reverseRecOn with
  | nil => exact ⟨rfl, rfl, rfl⟩
  | append_singleton ops op ih =>
    have hs : ∀ o ∈ ops, o.Small := fun o ho => hops o (List.mem_append_left _ ho)
    have hstep := step_noted hb (ih hs) (run_good hb mem ops hs i) op
    rw [List.foldl_concat, List.filterMap_append]
    cases ho : op.appended i <;> simpa [ho] using hstep

/-- The layout of every partition after any run of appends of at most a page,
flushes and clean reopens. Nothing that was appended ever moves or changes. -/
theorem run_layout (b : UInt64) (hb : PageBuffer b) (mem : Fin 4 → Nat → UInt8)
    (ops : List LogOp) (hops : ∀ op ∈ ops, op.Small) (i : Fin 4) :
    let s := ops.foldl (step b) (fresh b mem) i
    (s.log.lba = s.log.file.length ∧ pageSize ∣ s.log.lba) ∧
    (s.log.bufOffset = 0 ∨ s.log.bufOffset < bufSize b - pageSize) ∧
    Noted (ops.filterMap (LogOp.appended i)) s ∧
    (∀ a ∈ s.accesses, a.InBounds (bufSize b)) ∧
    (∀ a ∈ s.appends, slice s.log.contents a.1 a.2.length = a.2) ∧
    s.appends.Pairwise (fun a c =>
      Disjoint (Set.Ico a.1 (a.1 + a.2.length)) (Set.Ico c.1 (c.1 + c.2.length))) := by
  intro s
  have h : Good b s := run_good hb mem ops hops i
  refine ⟨⟨h.layout.lba_eq, h.layout.lba_dvd⟩, ?_, run_noted hb mem ops hops i, h.bounds,
    h.stored, ?_⟩
  · rcases h.layout.room with h0 | h1
    · exact Or.inl h0
    · exact Or.inr (by omega)
  · refine h.ordered.imp ?_
    intro a c hac
    refine Set.disjoint_left.mpr ?_
    intro x hx hy
    have h1 := hx.2
    have h2 := hy.1
    omega

theorem run_layout_flush_between :
    PageBuffer 32768 ∧
      let s := [LogOp.append 0 [1, 2], .flushVLog, .append 0 [3]].foldl (step 32768)
        (fresh 32768 (fun _ _ => 0)) 0
      s.log.lba = s.log.file.length ∧ s.log.lba = 4096 ∧
        s.appends = [(0, [1, 2]), (4096, [3])] ∧
        s.appends.map Prod.snd = [[1, 2], [3]] ∧ slice s.log.contents 0 2 = [1, 2] ∧
        slice s.log.contents 4096 1 = [3] := by
  have hb : PageBuffer 32768 := by decide
  have h := run_layout 32768 hb (fun _ _ => 0)
    [LogOp.append 0 [1, 2], .flushVLog, .append 0 [3]] (by simp [LogOp.Small, pageSize]) 0
  have ha : ([LogOp.append 0 [1, 2], .flushVLog, .append 0 [3]].foldl (step 32768)
      (fresh 32768 (fun _ _ => 0)) 0).appends = [(0, [1, 2]), (4096, [3])] := by decide +kernel
  refine ⟨hb, h.1.1, by decide +kernel, ha, h.2.2.1.appends, ?_, ?_⟩
  · exact h.2.2.2.2.1 (0, [1, 2]) (by rw [ha]; simp)
  · exact h.2.2.2.2.1 (4096, [3]) (by rw [ha]; simp)

end WiscKey.LogHistory
