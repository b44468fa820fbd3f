import WiscKey.Runs
import WiscKey.Representation

namespace WiscKey.Sequential

open WiscKey.Runs WiscKey.ValueLog WiscKey.LogLayout WiscKey.LogRecords WiscKey.ShardedCache
  WiscKey.CacheQuiet WiscKey.CacheHolds WiscKey.Database WiscKey.Representation

inductive Op where
  | put (k : Key) (v : Value)
  | delete (k : Key)
  | get (k : Key)
  | flush

def step (o : Options) (s : State) : Op → State
  | .put k v => put o s k v
  | .delete k => delete s k
  | .get k => (get s k).1
  | .flush => flushVLog s

def mapStep (m : Store) : Op → Store
  | .put k v => Function.update m k (some v)
  | .delete k => Function.update m k none
  | .get _ | .flush => m

/-- What the map has for every key after a run from empty: the value of the
last `Put`, if no `Delete` came after it. -/
def lastWrite (ops : List Op) : Store := ops.foldl mapStep (fun _ => none)

def Op.Small : Op → Prop
  | .put _ v => v.length ≤ pageSize
  | _ => True

instance : DecidablePred Op.Small
  | .put _ v => inferInstanceAs (Decidable (v.length ≤ pageSize))
  | .delete _ | .get _ | .flush => inferInstanceAs (Decidable True)

def Op.Sized : Op → Prop
  | .put _ v => 0 < v.length ∧ v.length ≤ pageSize
  | _ => True

instance : DecidablePred Op.Sized
  | .put _ v => inferInstanceAs (Decidable (0 < v.length ∧ v.length ≤ pageSize))
  | .delete _ | .get _ | .flush => inferInstanceAs (Decidable True)

theorem Op.Sized.small {op : Op} (h : op.Sized) : op.Small := by
  cases op with
  | put k v => exact h.2
  | delete k => trivial
  | get k => trivial
  | flush => trivial

variable {o : Options} {m : Store} {s : State} {k : Key} {v : Value}

theorem put_index (o : Options) (s : State) (k : Key) (v : Value) :
    ∃ r, (put o s k v).index = s.index.insert k r := ⟨_, rfl⟩

theorem put_buffer {k' : Key} : (put o s k v).buffer k' =
    if Hash.partition k' = Hash.partition k then (s.buffer k).insertRelease k v
    else s.buffer k' :=
  buffer_setBuffer

theorem put_represents (hb : PageBuffer o.logBufSize) (h : Represents o m s)
    (hv : v.length ≤ pageSize) :
    Represents o (Function.update m k (some v)) (put o s k v) := by
  obtain ⟨ha, hr⟩ := appendLog_represents hb (fillBuffer_represents (fillCache_represents h)) hv
  exact putIndex_represents ha hr hv

theorem delete_represents (h : Represents o m s) :
    Represents o (Function.update m k none) (delete s k) :=
  deleteIndex_represents (eraseBufferEntry_represents (eraseCacheEntry_represents h))

/-- Where a `Get` ends: with a hit in a cache, without a record, or with what it
reads of the log file. The last parameter is what the output string has before. -/
inductive Gets (s : State) (k : Key) (out : Value) : State × Answer → Prop
  | cached (v : Value) : (s.readCache k).2 = some v →
      Gets s k out ((s.readCache k).1, .ok (out ++ v))
  | unindexed : (s.readCache k).2 = none → s.index[k]? = none →
      Gets s k out ((s.readCache k).1, .notFound)
  | buffered (r : Record) (v : Value) : (s.readCache k).2 = none → s.index[k]? = some r →
      ((s.readCache k).1.readBuffer k).2 = some v →
      Gets s k out (((s.readCache k).1.readBuffer k).1, .ok (out ++ v))
  | unread (r : Record) : (s.readCache k).2 = none → s.index[k]? = some r →
      ((s.readCache k).1.readBuffer k).2 = none → readLog (s.log k).file r = none →
      Gets s k out (((s.readCache k).1.readBuffer k).1, .notFound)
  | loaded (r : Record) (v : Value) : (s.readCache k).2 = none → s.index[k]? = some r →
      ((s.readCache k).1.readBuffer k).2 = none → readLog (s.log k).file r = some v →
      Gets s k out (((s.readCache k).1.readBuffer k).1.fillCache k (out ++ v), .ok (out ++ v))

theorem get_gets (s : State) (k : Key) : Gets s k [] (get s k) := by
  obtain ⟨hi, hl, -⟩ := readCache_frame s k
  have hcached := @Gets.cached s k []
  have hunindexed := @Gets.unindexed s k []
  have hbuffered := @Gets.buffered s k []
  have hunread := @Gets.unread s k []
  have hloaded := @Gets.loaded s k []
  rw [← hi] at hunindexed hbuffered hunread hloaded
  unfold Database.get
  cases hs : s.readCache k with
  | mk t a =>
    rw [hs] at hl hcached hunindexed hbuffered hunread hloaded
    cases a with
    | some v => exact hcached v rfl
    | none =>
      cases hx : t.index[k]? with
      | none => simpa only [hx] using hunindexed rfl hx
      | some r =>
        have hlog : (t.readBuffer k).1.log k = s.log k := congrFun hl _
        rw [← hlog] at hunread hloaded
        simp only [hx, getFromBuffer]
        cases hb : t.readBuffer k with
        | mk u c =>
          rw [hb] at hbuffered hunread hloaded
          cases c with
          | some v => exact hbuffered r v rfl hx rfl
          | none =>
            simp only [getFromLog]
            cases hr : readLog (u.log k).file r with
            | none => exact hunread r rfl hx rfl hr
            | some v => exact hloaded r v rfl hx rfl hr

variable {out : Value} {p : State × Answer}

theorem Gets.represents (hg : Gets s k out p) (h : Represents o m s) : Represents o m p.1 := by
  have hc := readCache_represents (k := k) h
  have hb := readBuffer_represents (k := k) hc
  cases hg with
  | cached v hv => exact hc
  | unindexed hv hi => exact hc
  | buffered r v hv hi hw => exact hb
  | unread r hv hi hw hl => exact hb
  | loaded r v hv hi hw hl => exact fillCache_represents hb

theorem Gets.frame (hg : Gets s k out p) : p.1.index = s.index ∧ p.1.logs = s.logs := by
  obtain ⟨hi, hl, -⟩ := readCache_frame s k
  cases hg with
  | cached v hv => exact ⟨hi, hl⟩
  | unindexed hv hx => exact ⟨hi, hl⟩
  | buffered r v hv hx hw => exact ⟨hi, hl⟩
  | unread r hv hx hw hr => exact ⟨hi, hl⟩
  | loaded r v hv hx hw hr => exact ⟨hi, hl⟩

theorem flushVLog_represents (hb : PageBuffer o.logBufSize) (h : Represents o m s) :
    Represents o m (flushVLog s) :=
  growLogs_represents h (fun i => flush_layout hb.2 (h.layout i))
    (fun i => flush_grows (h.layout i).toWithin)

theorem step_represents (hb : PageBuffer o.logBufSize) (h : Represents o m s) {op : Op}
    (hop : op.Small) : Represents o (mapStep m op) (step o s op) := by
  cases op with
  | put k v => exact put_represents hb h hop
  | delete k => exact delete_represents h
  | get k => exact (get_gets s k).represents h
  | flush => exact flushVLog_represents hb h

theorem step_grows (hb : PageBuffer o.logBufSize) (h : Represents o m s) {op : Op}
    (hop : op.Small) (i : Fin 4) : Grows (s.logs i) ((step o s op).logs i) := by
  cases op with
  | put k v =>
    change Grows _ (Function.update s.logs (Hash.partition k) ((s.log k).append o.logBufSize v).1 i)
    by_cases hi : i = Hash.partition k
    · rw [hi, Function.update_self]
      exact append_grows hb (h.layout_log k) hop
    · rw [Function.update_of_ne hi]
      exact Grows.refl _
  | delete k => exact Grows.refl _
  | get k =>
    rw [step, (get_gets s k).frame.2]
    exact Grows.refl _
  | flush => exact flush_grows (h.layout i).toWithin

end WiscKey.Sequential
