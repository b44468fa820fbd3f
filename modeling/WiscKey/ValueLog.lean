import WiscKey.Bytes

namespace WiscKey.ValueLog

open WiscKey.Bytes

def pageSize : Nat := 4096

def roundUp (n roundTo : Nat) : Nat :=
  if n % roundTo = 0 then n else n + roundTo - n % roundTo

def roundDown (n roundTo : Nat) : Nat :=
  if n % roundTo = 0 then n else n - n % roundTo

/-- One partition of the value log: the log file, `lba_`, `aligned_log_buf_`
and `log_buf_offset_`. All writes are assumed to succeed, so that offsets stay
within a file offset and are natural numbers here. -/
structure VLog where
  file : List UInt8
  lba : Nat
  buf : List UInt8
  bufOffset : Nat
deriving DecidableEq

def bufSize (logBufSize : UInt64) : Nat := (logBufSize / 4).toNat

/-- The fill level at which an append writes the buffer out. The subtraction
is the one of `size_t` and wraps around for buffers below one page. -/
def flushThreshold (logBufSize : UInt64) : Nat := (logBufSize / 4 - 4096).toNat

def VLog.contents (l : VLog) : List UInt8 := l.file ++ l.buf.take l.bufOffset

/-- Round the fill level up to a page, write that much of the buffer to the
file and start over with an empty buffer. The file is opened with `O_APPEND`, so
that a `pwrite` goes to its end wherever `lba_` points. -/
def VLog.writeOut (l : VLog) : VLog :=
  let n := roundUp l.bufOffset pageSize
  { l with file := l.file ++ l.buf.take n, lba := l.lba + n, bufOffset := 0 }

def VLog.copyIn (l : VLog) (v : List UInt8) : VLog :=
  { l with buf := overwrite l.buf l.bufOffset v, bufOffset := l.bufOffset + v.length }

/-- The locked block of `Put`. It returns the offset handed out. -/
def VLog.append (logBufSize : UInt64) (l : VLog) (v : List UInt8) : VLog × Nat :=
  let l' := l.copyIn v
  (if flushThreshold logBufSize ≤ l'.bufOffset then l'.writeOut else l', l.lba + l.bufOffset)

def VLog.flush (l : VLog) : VLog := if l.bufOffset = 0 then l else l.writeOut

/-- What the constructor makes of a log file. The fresh buffer holds whatever
`aligned_alloc` returned. -/
def VLog.openLog (logBufSize : UInt64) (file : List UInt8) (mem : Nat → UInt8) : VLog :=
  { file := file, lba := file.length, buf := (List.range (bufSize logBufSize)).map mem,
    bufOffset := 0 }

def VLog.reopen (logBufSize : UInt64) (l : VLog) (mem : Nat → UInt8) : VLog :=
  openLog logBufSize l.flush.file mem

theorem dvd_roundUp (n : Nat) {m : Nat} : m ∣ roundUp n m := by
  unfold roundUp
  split
  · exact Nat.dvd_of_mod_eq_zero ‹_›
  · rcases Nat.eq_zero_or_pos m with rfl | hm
    · simp_all
    · have hn : n + m - n % m = m * (n / m + 1) := by
        have hlt := Nat.mod_lt n hm
        have hdiv := Nat.div_add_mod n m
        rw [Nat.mul_succ]
        omega
      rw [hn]
      exact Nat.dvd_mul_right _ _

theorem le_roundUp (n : Nat) {m : Nat} (hm : 0 < m) : n ≤ roundUp n m := by
  have hlt := Nat.mod_lt n hm
  unfold roundUp
  split <;> omega

theorem roundUp_le {n m b : Nat} (hm : 0 < m) (hb : m ∣ b) (h : n ≤ b) : roundUp n m ≤ b := by
  unfold roundUp
  split
  · exact h
  · obtain ⟨c, rfl⟩ := hb
    have hdiv := Nat.div_add_mod n m
    have hlt := Nat.mod_lt n hm
    have hq : n / m < c := by
      rw [Nat.div_lt_iff_lt_mul hm, Nat.mul_comm]
      rcases Nat.lt_or_ge n (m * c) with hn | hn
      · exact hn
      · have he : n = m * c := le_antisymm h hn
        subst he
        simp at *
    have hmul : m * (n / m + 1) ≤ m * c := Nat.mul_le_mul_left m hq
    rw [Nat.mul_succ] at hmul
    omega

theorem roundDown_le (n m : Nat) : roundDown n m ≤ n := by
  unfold roundDown
  split <;> omega

theorem le_roundDown {n m b : Nat} (hb : m ∣ b) (h : b ≤ n) : b ≤ roundDown n m := by
  unfold roundDown
  split
  · exact h
  · obtain ⟨c, rfl⟩ := hb
    rcases Nat.eq_zero_or_pos m with rfl | hm
    · simp
    · have hdiv := Nat.div_add_mod n m
      have hq : c ≤ n / m := (Nat.le_div_iff_mul_le hm).mpr (by rwa [Nat.mul_comm])
      have hmul : m * c ≤ m * (n / m) := Nat.mul_le_mul_left m hq
      omega

end WiscKey.ValueLog
