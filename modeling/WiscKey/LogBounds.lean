import WiscKey.LogHistory
import WiscKey.CollectJobs

namespace WiscKey.LogBounds

open WiscKey.ValueLog WiscKey.LogHistory WiscKey.Hash WiscKey.Collect WiscKey.CollectJobs
  WiscKey.Database

/-- The size of a value, which goes through an `int` before it is used as a
`size_t`. -/
def wSize (v : Value) : UInt64 := UInt64.ofNat (uint64 (int32 v.length)).toNat

def roundUpWord (n : UInt64) : UInt64 := if n % 4096 = 0 then n else n + 4096 - n % 4096

/-- What the accesses to a log buffer depend on, with all the accesses made. -/
structure Cursor where
  lba : UInt64
  bufOffset : UInt64
  accesses : List Access

def Cursor.writeOut (c : Cursor) : Cursor :=
  let n := roundUpWord c.bufOffset
  { lba := c.lba + n
    bufOffset := 0
    accesses := c.accesses ++ [.pwrite c.lba.toNat c.bufOffset.toNat n.toNat] }

def Cursor.put (logBufSize : UInt64) (c : Cursor) (v : Value) : Cursor :=
  let c := { c with
    bufOffset := c.bufOffset + wSize v
    accesses := c.accesses ++ [.memcpy c.bufOffset.toNat (wSize v).toNat] }
  if logBufSize / 4 - 4096 ≤ c.bufOffset then c.writeOut else c

def Cursor.flush (c : Cursor) : Cursor := if c.bufOffset = 0 then c else c.writeOut

inductive Op where
  | put (k : Key) (v : Value)
  | flushVLog

def step (b : UInt64) (s : Fin 4 → Cursor) : Op → Fin 4 → Cursor
  | .put k v => Function.update s (partition k) ((s (partition k)).put b v)
  | .flushVLog => fun i => (s i).flush

def start (lba : Fin 4 → UInt64) : Fin 4 → Cursor := fun i => ⟨lba i, 0, []⟩

def Op.AtMost (limit : Nat) : Op → Prop
  | .put _ v => v.length ≤ limit
  | .flushVLog => True

instance (limit : Nat) : DecidablePred (Op.AtMost limit)
  | .put _ v => inferInstanceAs (Decidable (v.length ≤ limit))
  | .flushVLog => inferInstanceAs (Decidable True)

instance (size : Nat) : DecidablePred (Access.InBounds size)
  | .memcpy off len => inferInstanceAs (Decidable (off + len ≤ size))
  | .pwrite _ _ len => inferInstanceAs (Decidable (len ≤ size))

def InBounds (b : UInt64) (ops : List Op) : Prop :=
  ∀ lba i, ∀ a ∈ (ops.foldl (step b) (start lba) i).accesses, a.InBounds (bufSize b)

def wholePages (b : UInt64) : Nat := bufSize b / pageSize * pageSize

/-- The longest value for which there is always room: what is left of the whole
pages when the buffer is as full as it can be. -/
def longest (b : UInt64) : Nat := wholePages b - (bufSize b - pageSize - 1)

variable {b : UInt64} {c : Cursor} {v : Value} {limit : Nat}

theorem wSize_toNat (h : v.length < 2 ^ 31) : (wSize v).toNat = v.length := by
  rw [wSize, int32_of_lt (by omega) (by omega), uint64_of_lt (by omega) (by omega),
    Int.toNat_natCast]
  exact UInt64.toNat_ofNat_of_lt' (h.trans (by decide))

theorem bufSize_lt (b : UInt64) : bufSize b < 2 ^ 62 := by
  have h := b.toNat_lt
  rw [bufSize, UInt64.toNat_div]
  change b.toNat / 4 < _
  omega

theorem roundUpWord_toNat {n : UInt64} (h : n.toNat < 2 ^ 63) :
    (roundUpWord n).toNat = roundUp n.toNat pageSize := by
  have hm : (n % 4096).toNat = n.toNat % pageSize := UInt64.toNat_mod _ _
  have h0 : n % 4096 = 0 ↔ n.toNat % pageSize = 0 := by
    rw [← hm, ← UInt64.toNat_inj]
    rfl
  have hlt := Nat.mod_lt n.toNat (show pageSize > 0 by decide)
  rw [roundUpWord, roundUp]
  simp only [h0]
  split
  · rfl
  · have hadd : (n + 4096).toNat = n.toNat + pageSize := by
      have hp : (4096 : UInt64).toNat = 4096 := rfl
      rw [UInt64.toNat_add, hp]
      exact Nat.mod_eq_of_lt (by omega)
    rw [UInt64.toNat_sub_of_le, hadd, hm]
    rw [UInt64.le_iff_toNat_le, hadd, hm]
    omega

theorem add_wSize (hv : v.length < 2 ^ 31) (h : c.bufOffset.toNat + v.length < 2 ^ 63) :
    (c.bufOffset + wSize v).toNat = c.bufOffset.toNat + v.length := by
  rw [UInt64.toNat_add, wSize_toNat hv]
  exact Nat.mod_eq_of_lt (by omega)

theorem flushThreshold_add_iff :
    flushThreshold b + pageSize = bufSize b ↔ pageSize ≤ bufSize b := by
  constructor
  · intro h
    omega
  · intro h
    have hle : (4096 : UInt64) ≤ b / 4 := UInt64.le_iff_toNat_le.mpr h
    rw [flushThreshold, UInt64.toNat_sub_of_le _ _ hle]
    exact Nat.sub_add_cancel h

theorem put_eq (hv : v.length < 2 ^ 31) (h : c.bufOffset.toNat + v.length < 2 ^ 63) :
    (c.put b v).bufOffset.toNat =
        (if flushThreshold b ≤ c.bufOffset.toNat + v.length then 0
          else c.bufOffset.toNat + v.length) ∧
      (c.put b v).accesses = c.accesses ++ .memcpy c.bufOffset.toNat v.length ::
        if flushThreshold b ≤ c.bufOffset.toNat + v.length then
          [.pwrite c.lba.toNat (c.bufOffset.toNat + v.length)
            (roundUp (c.bufOffset.toNat + v.length) pageSize)]
        else [] := by
  have hadd := add_wSize hv h
  have hlt : (c.bufOffset + wSize v).toNat < 2 ^ 63 := by
    rw [hadd]
    exact h
  have hf : b / 4 - 4096 ≤ c.bufOffset + wSize v ↔
      flushThreshold b ≤ c.bufOffset.toNat + v.length := by
    rw [UInt64.le_iff_toNat_le, hadd]
    rfl
  simp only [Cursor.put, hf]
  split
  · simp only [Cursor.writeOut, roundUpWord_toNat hlt, hadd, wSize_toNat hv, List.append_assoc,
      List.cons_append, List.nil_append]
    exact ⟨rfl, trivial⟩
  · simp only [hadd, wSize_toNat hv]
    exact ⟨trivial, trivial⟩

structure Follows (c : Cursor) (l : VLog) : Prop where
  lba : c.lba.toNat = l.lba
  bufOffset : c.bufOffset.toNat = l.bufOffset

theorem put_follows {l : VLog} (h : Follows c l) (hv : v.length < 2 ^ 31)
    (hoff : l.bufOffset + v.length < 2 ^ 63)
    (hlba : l.lba + roundUp (l.bufOffset + v.length) pageSize < 2 ^ 64) :
    Follows (c.put b v) (l.append b v).1 ∧
      (c.put b v).accesses = c.accesses ++ appendAccesses b l v := by
  have hadd : (c.bufOffset + wSize v).toNat = l.bufOffset + v.length := by
    rw [← h.bufOffset] at hoff ⊢
    exact add_wSize hv hoff
  obtain ⟨ho, ha⟩ := put_eq (b := b) (c := c) hv (h.bufOffset ▸ hoff)
  rw [h.bufOffset] at ho ha
  refine ⟨⟨?_, ?_⟩, ?_⟩
  · have hf : b / 4 - 4096 ≤ c.bufOffset + wSize v ↔ flushThreshold b ≤ (l.copyIn v).bufOffset := by
      rw [UInt64.le_iff_toNat_le, hadd]
      rfl
    simp only [Cursor.put, VLog.append, hf]
    split
    · simp only [Cursor.writeOut, VLog.writeOut, VLog.copyIn]
      rw [UInt64.toNat_add, roundUpWord_toNat (hadd ▸ hoff), hadd, h.lba, Nat.mod_eq_of_lt hlba]
    · exact h.lba
  · rw [ho, VLog.append, apply_ite VLog.bufOffset]
    rfl
  · rw [ha, h.lba]
    rfl

/-- What holds of every partition when there is room for every value: the buffer
is below the threshold, and all accesses were within it. -/
structure Bounded (b : UInt64) (c : Cursor) : Prop where
  room : c.bufOffset.toNat ≤ bufSize b - pageSize - 1
  bounds : ∀ a ∈ c.accesses, a.InBounds (bufSize b)

theorem wholePages_le (b : UInt64) : wholePages b ≤ bufSize b := Nat.div_mul_le_self _ _

theorem lt_wholePages (b : UInt64) : bufSize b < wholePages b + pageSize := by
  have h := Nat.lt_div_mul_add (a := bufSize b) (b := pageSize) (by decide)
  exact h

theorem longest_le (b : UInt64) : longest b ≤ pageSize + 1 := by
  have h := wholePages_le b
  rw [longest]
  omega

theorem put_bounded (hb : pageSize ≤ bufSize b) (hc : Bounded b c) (hv : v.length ≤ longest b) :
    Bounded b (c.put b v) := by
  have hsize := bufSize_lt b
  have hroom := hc.room
  have hwhole := wholePages_le b
  have hpages := lt_wholePages b
  have hlong := longest_le b
  have hfit : c.bufOffset.toNat + v.length ≤ wholePages b := by
    rw [longest] at hv
    omega
  have hpage : pageSize = 4096 := rfl
  obtain ⟨hoff, hacc⟩ := put_eq (b := b) (c := c) (v := v) (by omega) (by omega)
  have hthreshold := flushThreshold_add_iff.mpr hb
  constructor
  · rw [hoff]
    split
    · exact Nat.zero_le _
    · omega
  · rw [hacc]
    intro a ha
    obtain ha | ha := List.mem_append.mp ha
    · exact hc.bounds a ha
    · obtain rfl | ha := List.mem_cons.mp ha
      · exact hfit.trans hwhole
      · split at ha
        · rw [List.mem_singleton.mp ha]
          exact (roundUp_le (by decide) (Nat.dvd_mul_left _ _) hfit).trans hwhole
        · cases ha

theorem flush_bounded (hb : pageSize ≤ bufSize b) (hc : Bounded b c) : Bounded b c.flush := by
  rw [Cursor.flush]
  split
  · exact hc
  · have hsize := bufSize_lt b
    have hroom := hc.room
    have hpages := lt_wholePages b
    have hfit : c.bufOffset.toNat ≤ wholePages b := by omega
    refine ⟨Nat.zero_le _, ?_⟩
    intro a ha
    obtain ha | ha := List.mem_append.mp ha
    · exact hc.bounds a ha
    · rw [List.mem_singleton.mp ha, roundUpWord_toNat (by omega)]
      exact (roundUp_le (by decide) (Nat.dvd_mul_left _ _) hfit).trans (wholePages_le b)

theorem step_bounded (hb : pageSize ≤ bufSize b) (hl : limit ≤ longest b) {s : Fin 4 → Cursor}
    (hs : ∀ i, Bounded b (s i)) {op : Op} (hop : op.AtMost limit) (i : Fin 4) :
    Bounded b (step b s op i) := by
  cases op with
  | put k v =>
    rw [step, Function.update_apply]
    split
    · exact put_bounded hb (hs _) (le_trans hop hl)
    · exact hs i
  | flushVLog => exact flush_bounded hb (hs i)

theorem run_bounded (hb : pageSize ≤ bufSize b) (hl : limit ≤ longest b) {ops : List Op}
    (hops : ∀ op ∈ ops, op.AtMost limit) (lba : Fin 4 → UInt64) (i : Fin 4) :
    Bounded b (ops.foldl (step b) (start lba) i) := by
  revert i
  refine List.foldlRecOn (motive := fun s => ∀ i, Bounded b (s i)) ops (step b) ?_ ?_
  · exact fun i => ⟨Nat.zero_le _, by simp [start]⟩
  · exact fun s hs op hm => step_bounded hb hl hs (hops op hm)

theorem put_run (b : UInt64) (s : Fin 4 → Cursor) (ops : List Op) (k : Key) (v : Value) :
    (ops ++ [Op.put k v]).foldl (step b) s (partition k) =
      (ops.foldl (step b) s (partition k)).put b v := by
  rw [List.foldl_append, List.foldl_cons, List.foldl_nil, step, Function.update_self]

theorem fill_offset (hb : pageSize ≤ bufSize b) (k : Key) (hv : v.length = 1) {n : Nat}
    (hn : n ≤ bufSize b - pageSize - 1) :
    ((List.replicate n (Op.put k v)).foldl (step b) (start fun _ => 0)
      (partition k)).bufOffset.toNat = n := by
  induction n with
  | zero => rfl
  | succ n ih =>
    have hsize := bufSize_lt b
    have hthreshold := flushThreshold_add_iff.mpr hb
    have hoff := ih (by omega)
    rw [List.replicate_succ', put_run, (put_eq (by omega) (by omega)).1, hoff, hv,
      if_neg (by omega)]

theorem fill_overruns (hb : pageSize ≤ bufSize b) (k : Key) {one long : Value}
    (hone : one.length = 1) (hlong : long.length = longest b + 1) : ¬ InBounds b
      (List.replicate (bufSize b - pageSize - 1) (Op.put k one) ++ [.put k long]) := by
  have hsize := bufSize_lt b
  have hthreshold := flushThreshold_add_iff.mpr hb
  have hwhole := wholePages_le b
  have hpages := lt_wholePages b
  have hle := longest_le b
  have hpage : pageSize = 4096 := rfl
  have hoff := fill_offset hb k hone (le_refl (bufSize b - pageSize - 1))
  have hfull : bufSize b - pageSize - 1 + long.length = wholePages b + 1 := by
    rw [hlong, longest]
    omega
  intro hin
  have hacc := hin (fun _ => 0) (partition k)
  rw [put_run, (put_eq (by omega) (by omega)).2, hoff, hfull, if_pos (by omega)] at hacc
  have hwrite := hacc _
    (List.mem_append_right _ (List.mem_cons_of_mem _ (List.mem_singleton_self _)))
  have hround : wholePages b + pageSize ≤ roundUp (wholePages b + 1) pageSize := by
    have hlt := le_roundUp (wholePages b + 1) (m := pageSize) (by decide)
    have hdvd : pageSize ∣ roundUp (wholePages b + 1) pageSize - wholePages b :=
      Nat.dvd_sub (dvd_roundUp _) (Nat.dvd_mul_left _ _)
    have hp := Nat.le_of_dvd (by omega) hdvd
    omega
  exact absurd (hround.trans hwrite) (by omega)

/-- For values of at most a given length, the threshold does not wrap around and
all accesses of every run of `Put` calls are within the buffers just when there
is a page and the length is not above the longest. Flushes do not matter. -/
theorem log_bounds_iff (b : UInt64) (limit : Nat) :
    ((flushThreshold b + pageSize = bufSize b ∧ ∀ puts : List (Key × Value),
        (∀ p ∈ puts, p.2.length ≤ limit) → InBounds b (puts.map fun p => .put p.1 p.2)) ↔
      pageSize ≤ bufSize b ∧ limit ≤ longest b) ∧
    (pageSize ≤ bufSize b ∧ limit ≤ longest b →
      ∀ ops : List Op, (∀ op ∈ ops, op.AtMost limit) → InBounds b ops) := by
  have hall : pageSize ≤ bufSize b ∧ limit ≤ longest b →
      ∀ ops : List Op, (∀ op ∈ ops, op.AtMost limit) → InBounds b ops :=
    fun h ops hops lba i => (run_bounded h.1 h.2 hops lba i).bounds
  refine ⟨?_, hall⟩
  rw [flushThreshold_add_iff]
  constructor
  · rintro ⟨hb, hputs⟩
    refine ⟨hb, ?_⟩
    by_contra hlt
    have hlong : (List.replicate (longest b + 1) (0 : UInt8)).length = longest b + 1 :=
      List.length_replicate
    have hin := hputs (List.replicate (bufSize b - pageSize - 1) ([], [0]) ++
      [([], List.replicate (longest b + 1) 0)]) ?_
    · rw [List.map_append, List.map_replicate] at hin
      exact fill_overruns hb [] rfl hlong hin
    · intro p hp
      obtain hp | hp := List.mem_append.mp hp
      · rw [List.eq_of_mem_replicate hp]
        change 1 ≤ limit
        omega
      · rw [List.mem_singleton.mp hp, hlong]
        omega
  · intro h
    refine ⟨h.1, ?_⟩
    intro puts hl
    refine hall h _ ?_
    intro op hop
    obtain ⟨p, hp, rfl⟩ := List.mem_map.mp hop
    exact hl p hp

theorem log_bounds_two_pages : pageSize ≤ longest 32768 ∧
    InBounds 32768 [.put [7] (List.replicate 4096 1), .flushVLog, .put [1] []] := by
  have hl : pageSize ≤ longest 32768 := by decide
  refine ⟨hl, (log_bounds_iff 32768 pageSize).2 ⟨by decide, hl⟩ _ ?_⟩
  decide +kernel

/-- With buffers below a page the threshold wraps around, and a buffer is never
written out. With two pages a long value does not fit behind another one. -/
theorem log_bounds_exceeded : flushThreshold 8192 + pageSize ≠ bufSize 8192 ∧
    ¬ InBounds 8192 (List.replicate 3 (.put [7] (List.replicate 1000 1))) ∧
    ¬ InBounds 32768 [.put [7] [1], .put [7] (List.replicate 8192 1)] := by
  have hsmall : ∃ a ∈ ((List.replicate 3 (Op.put [7] (List.replicate 1000 1))).foldl (step 8192)
      (start fun _ => 0) (partition [7])).accesses, ¬ a.InBounds (bufSize 8192) := by
    decide +kernel
  have hlong : ∃ a ∈ ([Op.put [7] [1], .put [7] (List.replicate 8192 1)].foldl (step 32768)
      (start fun _ => 0) (partition [7])).accesses, ¬ a.InBounds (bufSize 32768) := by
    decide +kernel
  obtain ⟨a, ha, hn⟩ := hsmall
  obtain ⟨c, hc, hn'⟩ := hlong
  exact ⟨by decide, fun h => hn (h _ _ a ha), fun h => hn' (h _ _ c hc)⟩

end WiscKey.LogBounds
