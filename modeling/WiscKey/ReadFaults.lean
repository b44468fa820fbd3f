import WiscKey.Faults

namespace WiscKey.ReadFaults

open WiscKey.Runs WiscKey.ValueLog WiscKey.LogRecords WiscKey.Bytes WiscKey.Hash
  WiscKey.ShardedCache WiscKey.CacheQuiet WiscKey.CacheHolds WiscKey.Database WiscKey.Representation
  WiscKey.GarbageCollection WiscKey.DiskRead WiscKey.Faults

open OutputString (getInto getFromLogInto getFromBufferInto)

/-- The last `pread` of a `Get` that does not give up: the first of three whose
result is not a zero. -/
def LastRead (read : Nat → Option (List UInt8)) (data : Option (List UInt8)) : Prop :=
  ∃ i < 3, (∀ j < i, read j = some []) ∧ read i = data ∧ data ≠ some []

def Delivers (r : Record) (data : Option (List UInt8)) : Prop :=
  r.size = 0 ∨ r.offset - roundDown r.offset pageSize + r.size ≤ (data.getD []).length

/-- The outcome of a `Get` that reads the disk: the bytes that were read, which
are then also cached, or nothing at all. -/
def Honest (s : State) (k : Key) (f : Reads) (result : State × Answer) : Prop :=
  (∃ r data, s.index[k]? = some r ∧ LastRead (delivered (s.log k).file r f.pread) data ∧
    Delivers r data ∧
    result = (s.fillCache k (slice (s.log k).file r.offset r.size),
      .ok (slice (s.log k).file r.offset r.size))) ∨
  result = (s, .notFound)

structure Calm (s : State) : Prop where
  buffer : ∀ i, QuietCache (s.buffers i)
  cache : ∀ c ∈ s.cache, QuietCache c

variable {o : Options} {s s' : State} {k : Key} {v out : Value} {r : Record} {f : Reads}

theorem openFresh_calm (o : Options) (mem : Fin 4 → Nat → UInt8) : Calm (openFresh o mem) :=
  ⟨fun _ => new_quietCache _ _ _, newDataCache_quiet⟩

theorem Calm.setBuffer (h : Calm s) {c : Cache} (hc : QuietCache c) : Calm (s.setBuffer k c) :=
  ⟨setBuffer_quiet h.buffer hc, h.cache⟩

theorem Calm.mapCache (h : Calm s) {g : Cache → Cache}
    (hg : ∀ c, QuietCache c → QuietCache (g c)) : Calm { s with cache := s.cache.map g } :=
  ⟨h.buffer, mapCache_quiet h.cache hg⟩

theorem Calm.fillCache (h : Calm s) : Calm (s.fillCache k v) :=
  h.mapCache fun _ hc => insertRelease_quietCache hc

theorem Calm.readCache (h : Calm s) : Calm (s.readCache k).1 where
  buffer := by
    rw [(readCache_frame s k).2.2]
    exact h.buffer
  cache := readCache_quiet h.cache

theorem Calm.readBuffer (h : Calm s) : Calm (s.readBuffer k).1 :=
  h.setBuffer (read_quietCache (h.buffer _))

theorem Calm.putFaulty {w : Writes} (h : Calm s) : Calm (putFaulty o s k v w).1 := by
  have hf : Calm ((s.fillCache k v).fillBuffer k v) :=
    h.fillCache.setBuffer (insertRelease_quietCache (h.buffer _))
  simp only [Faults.putFaulty]
  split
  · exact ⟨hf.buffer, hf.cache⟩
  · exact ⟨hf.buffer, hf.cache⟩

theorem Calm.deleteFaulty {ok : Bool} (h : Calm s) : Calm (deleteFaulty s k ok) := by
  have he : Calm ((s.eraseCacheEntry k).eraseBufferEntry k) :=
    (h.mapCache fun _ hc => erase_quietCache hc).setBuffer (erase_quietCache (h.buffer _))
  simp only [Faults.deleteFaulty]
  split
  · exact ⟨he.buffer, he.cache⟩
  · exact he

/-- Where a `Get` ends: with a hit in a cache, without a record, or at the disk. -/
inductive Got (s : State) (k : Key) (out : Value) (f : Reads) : State → Answer → Prop
  | cached (v : Value) : (s.readCache k).2 = some v →
      Got s k out f (s.readCache k).1 (.ok (out ++ v))
  | unindexed : (s.readCache k).2 = none → readIndex s.index[k]? f.index = none →
      Got s k out f (s.readCache k).1 .notFound
  | buffered (r : Record) (v : Value) : (s.readCache k).2 = none →
      readIndex s.index[k]? f.index = some r → ((s.readCache k).1.readBuffer k).2 = some v →
      Got s k out f ((s.readCache k).1.readBuffer k).1 (.ok (out ++ v))
  | disk (r : Record) {t : State} {a : Answer} : (s.readCache k).2 = none →
      readIndex s.index[k]? f.index = some r → ((s.readCache k).1.readBuffer k).2 = none →
      getFromDisk ((s.readCache k).1.readBuffer k).1 k r out f = some (t, a) → Got s k out f t a

theorem getFaulty_got {a : Answer} (hg : getFaulty s k out f = some (s', a)) :
    Got s k out f s' a := by
  obtain ⟨hi, -⟩ := readCache_frame s k
  have hcached := @Got.cached s k out f
  have hunindexed := @Got.unindexed s k out f
  have hbuffered := @Got.buffered s k out f
  have hdisk := @Got.disk s k out f
  unfold getFaulty at hg
  rw [← hi] at hunindexed hbuffered hdisk
  cases hs : s.readCache k with
  | mk t b =>
    rw [hs] at hg hcached hunindexed hbuffered hdisk
    cases b with
    | some v =>
      cases hg
      exact hcached v rfl
    | none =>
      cases hx : readIndex t.index[k]? f.index with
      | none =>
        simp only [hx] at hg
        cases hg
        exact hunindexed rfl hx
      | some r =>
        simp only [hx] at hg
        cases hb : t.readBuffer k with
        | mk u c =>
          rw [hb] at hbuffered hdisk
          simp only [hb] at hg
          cases c with
          | some v =>
            cases hg
            exact hbuffered r v rfl hx rfl
          | none => exact hdisk r rfl hx rfl hg

theorem getFromDisk_state {a : Answer} (hg : getFromDisk s k r out f = some (s', a)) :
    s' = s ∨ ∃ w, s' = s.fillCache k w := by
  simp only [getFromDisk, Option.ite_none_right_eq_some] at hg
  cases hp : preadLoop (delivered (s.log k).file r f.pread) 3 0 with
  | none =>
    rw [hp] at hg
    cases hg.2
    exact Or.inl rfl
  | some data =>
    rw [hp] at hg
    cases hg.2
    exact Or.inr ⟨_, rfl⟩

theorem Calm.getFaulty (h : Calm s) {a : Answer} (hg : getFaulty s k out f = some (s', a)) :
    Calm s' := by
  cases getFaulty_got hg with
  | cached v hc => exact h.readCache
  | unindexed hc hi => exact h.readCache
  | buffered r v hc hi hb => exact h.readCache.readBuffer
  | disk r hc hi hb hd =>
    obtain rfl | ⟨w, rfl⟩ := getFromDisk_state hd
    · exact h.readCache.readBuffer
    · exact h.readCache.readBuffer.fillCache

theorem step_calm {call : Call} (h : Calm s) (hs : step o s call = some s') : Calm s' := by
  cases call with
  | put k v w =>
    cases hs
    exact h.putFaulty
  | delete k ok =>
    cases hs
    exact h.deleteFaulty
  | get k out f =>
    obtain ⟨⟨t, a⟩, hg, rfl⟩ := Option.map_eq_some_iff.mp hs
    exact h.getFaulty hg
  | flush count =>
    cases hs
    exact ⟨h.buffer, h.cache⟩
  | reopen count mem =>
    cases hs
    exact ⟨fun _ => new_quietCache _ _ _, newDataCache_quiet⟩
  | collect threads events =>
    obtain ⟨g, -, -, rfl⟩ := vLogGarbageCollect_eq_some hs
    exact ⟨fun _ => new_quietCache _ _ _, newDataCache_quiet⟩

theorem read_miss_eq {c : Cache} (hc : QuietCache c) (hn : (c.read k).2 = none) :
    (c.read k).1 = c := by
  have hno := (read_eq_none_iff hc).mp hn
  rw [read_eq, ShardQuiet.read_miss (shard_quiet hc k) c.policy
    (fun a ha hk => absurd hk (hno a ha))]
  simp [Cache.setShard, Cache.shard]

theorem readCache_miss (h : Calm s) (hn : (s.readCache k).2 = none) :
    s.readCache k = (s, none) := by
  refine Prod.ext ?_ hn
  unfold State.readCache at hn ⊢
  split
  · rfl
  · rename_i c hc
    simp only [hc] at hn ⊢
    rw [read_miss_eq (h.cache c hc) hn, ← hc]

theorem readBuffer_miss (h : Calm s) (hn : (s.readBuffer k).2 = none) :
    s.readBuffer k = (s, none) := by
  refine Prod.ext ?_ hn
  simp only [State.readBuffer] at hn ⊢
  have hq : QuietCache (s.buffer k) := h.buffer _
  rw [read_miss_eq hq hn]
  simp [State.setBuffer, State.buffer]

theorem readIndex_eq_some {record : Option Record} {ok : Nat → Bool} :
    readIndex record ok = some r ↔ record = some r ∧ ∃ i < 4, ok i = true := by
  cases record with
  | none => simp [readIndex]
  | some a =>
    simp only [readIndex, reduceCtorEq, and_false, if_false, Option.isSome_some, Bool.and_true]
    rw [Option.ite_none_right_eq_some, Attempts.write_acknowledged_iff, and_comm]

theorem preadLoop_eq_some {read : Nat → Option (List UInt8)} {n i : Nat}
    {data : Option (List UInt8)} :
    preadLoop read n i = some data ↔
      ∃ j < n, (∀ l < j, read (i + l) = some []) ∧ read (i + j) = data ∧ data ≠ some [] := by
  induction n generalizing i with
  | zero => simp [preadLoop]
  | succ n ih =>
    rw [preadLoop, Nat.exists_lt_succ_left]
    split
    · rename_i h0
      rw [ih]
      constructor
      · rintro ⟨j, hj, hz, hd, hne⟩
        refine Or.inr ⟨j, hj, ?_, ?_, hne⟩
        · intro l hl
          cases l with
          | zero => exact h0
          | succ l =>
            rw [Nat.add_comm l, ← Nat.add_assoc]
            exact hz l (Nat.lt_of_succ_lt_succ hl)
        · rw [Nat.add_comm j, ← Nat.add_assoc, hd]
      · rintro (⟨-, rfl, hne⟩ | ⟨j, hj, hz, hd, hne⟩)
        · exact absurd h0 hne
        · refine ⟨j, hj, ?_, ?_, hne⟩
          · intro l hl
            rw [Nat.add_assoc, Nat.add_comm 1]
            exact hz (l + 1) (Nat.succ_lt_succ hl)
          · rw [Nat.add_assoc, Nat.add_comm 1, hd]
    · rename_i h0
      constructor
      · rintro ⟨⟩
        exact Or.inl ⟨fun l hl => absurd hl (Nat.not_lt_zero l), rfl, h0⟩
      · rintro (⟨-, rfl, -⟩ | ⟨j, -, hz, -⟩)
        · rfl
        · exact absurd (hz 0 (Nat.succ_pos j)) h0

theorem preadLoop_three {read : Nat → Option (List UInt8)} {data : Option (List UInt8)} :
    preadLoop read 3 0 = some data ↔ LastRead read data := by
  rw [preadLoop_eq_some]
  simp only [Nat.zero_add]
  rfl

theorem cut_readBuf {file : List UInt8} {data : Option (List UInt8)} (mem : Nat → UInt8)
    (hl : LastRead (delivered file r f.pread) data) (hd : Delivers r data) :
    cut (readBuf r mem (data.getD [])) r = slice file r.offset r.size := by
  obtain h0 | hle := hd
  · simp [cut, slice, h0]
  · obtain ⟨i, -, -, rfl, -⟩ := hl
    rw [← cut_alignedRead, cut, readBuf, slice_append_left _ _ _ _ hle, cut]
    rw [delivered] at hle ⊢
    cases hp : f.pread i with
    | none =>
      rw [hp] at hle
      have h0 : r.size = 0 := by
        simp only [Option.map_none, Option.getD_none, List.length_nil] at hle
        omega
      simp [slice, h0]
    | some n =>
      rw [hp] at hle
      simp only [Option.map_some, Option.getD_some] at hle ⊢
      rw [← slice_append_left _ ((alignedRead file r).drop n) _ _ hle, List.take_append_drop]

theorem getFaulty_of_misses (h : Calm s) (hc : (s.readCache k).2 = none)
    (hb : (s.readBuffer k).2 = none) :
    getFaulty s k out f = match readIndex s.index[k]? f.index with
      | none => some (s, .notFound)
      | some r => getFromDisk s k r out f := by
  simp only [getFaulty, readCache_miss h hc]
  cases readIndex s.index[k]? f.index with
  | none => rfl
  | some r => simp only [readBuffer_miss h hb]

def noFaults (mem : Nat → UInt8) : Reads := ⟨fun _ => true, fun _ => some (2 ^ 31), mem⟩

theorem delivered_none (file : List UInt8) (hsz : readSize r < 2 ^ 31) (mem : Nat → UInt8)
    (i : Nat) : delivered file r (noFaults mem).pread i = some (alignedRead file r) := by
  rw [delivered, noFaults, Option.map_some, List.take_of_length_le]
  rw [alignedRead, length_slice]
  exact (Nat.min_le_left _ _).trans hsz.le

theorem getFromDisk_none (mem : Nat → UInt8) (hsz : readSize r < 2 ^ 31)
    (hd : alignedRead (s.log k).file r = [] ∨
      Delivers r (some (alignedRead (s.log k).file r))) :
    getFromDisk s k r out (noFaults mem) = some (getFromLogInto s k r out) := by
  have hdel := delivered_none (s.log k).file hsz mem
  rw [getFromDisk, if_pos hsz, getFromLogInto, readLog]
  by_cases h0 : alignedRead (s.log k).file r = []
  · simp only [preadLoop, hdel, h0, if_true, List.length_nil]
  · have hl : LastRead (delivered (s.log k).file r (noFaults mem).pread)
        (some (alignedRead (s.log k).file r)) :=
      ⟨0, by decide, fun j hj => absurd hj (Nat.not_lt_zero j), hdel 0, by simpa using h0⟩
    rw [preadLoop_three.mpr hl, if_neg (fun he => h0 (List.length_eq_zero_iff.mp he)),
      cut_alignedRead]
    simp only [cut_readBuf (noFaults mem).mem hl (hd.resolve_left h0)]

theorem getFaulty_none (mem : Nat → UInt8)
    (h : ∀ r, s.index[k]? = some r → readSize r < 2 ^ 31 ∧
      (alignedRead (s.log k).file r = [] ∨ Delivers r (some (alignedRead (s.log k).file r)))) :
    getFaulty s k out (noFaults mem) = some (getInto s k out) := by
  obtain ⟨hi, hl, -⟩ := readCache_frame s k
  unfold getFaulty getInto
  cases hs : s.readCache k with
  | mk t a =>
    rw [hs] at hi hl
    cases a with
    | some v => rfl
    | none =>
      cases hr : t.index[k]? with
      | none => simp only [hr, readIndex, noFaults, if_true, and_self]
      | some r =>
        have hx : readIndex (some r) (noFaults mem).index = some r :=
          readIndex_eq_some.mpr ⟨rfl, 0, by decide, rfl⟩
        have hf : (t.readBuffer k).1.log k = s.log k := congrFun hl _
        simp only [hr, hx, getFromBufferInto]
        cases hb : t.readBuffer k with
        | mk u b =>
          rw [hb] at hf
          cases b with
          | some v => rfl
          | none =>
            obtain ⟨hsz, hd⟩ := h r (hi ▸ hr)
            exact getFromDisk_none mem hsz (by rw [hf]; exact hd)

/-- The condition on what happens below a `Get`: the size of the read is an
`int`, and the last `pread` delivers the whole value into an empty string. -/
def Sound (s : State) (k : Key) (out : Value) (f : Reads) : Prop :=
  ∀ r, s.index[k]? = some r → (∃ i < 4, f.index i = true) → readSize r < 2 ^ 31 ∧
    ∀ data, LastRead (delivered (s.log k).file r f.pread) data → Delivers r data ∧ out = []

theorem getFromDisk_honest_iff (hr : s.index[k]? = some r) :
    (∃ result, getFromDisk s k r out f = some result ∧ Honest s k f result) ↔
      readSize r < 2 ^ 31 ∧
        ∀ data, LastRead (delivered (s.log k).file r f.pread) data →
          Delivers r data ∧ out = [] := by
  by_cases hsz : readSize r < 2 ^ 31
  · rw [getFromDisk, if_pos hsz, and_iff_right hsz]
    cases hp : preadLoop (delivered (s.log k).file r f.pread) 3 0 with
    | none =>
      refine iff_of_true ⟨_, rfl, Or.inr rfl⟩ ?_
      intro data hd
      rw [preadLoop_three.mpr hd] at hp
      cases hp
    | some data =>
      have hl := preadLoop_three.mp hp
      have hall : (∀ d, LastRead (delivered (s.log k).file r f.pread) d → Delivers r d ∧ out = []) ↔
          Delivers r data ∧ out = [] := by
        refine ⟨fun h => h data hl, ?_⟩
        intro h d hd
        rw [preadLoop_three.mpr hd] at hp
        cases hp
        exact h
      rw [hall]
      constructor
      · rintro ⟨_, ⟨⟩, ⟨r', d, hr', hd, hdel, he⟩ | he⟩
        · rw [hr] at hr'
          cases hr'
          rw [preadLoop_three.mpr hd] at hp
          cases hp
          have hv := Answer.ok.inj (Prod.mk.inj he).2
          rw [cut_readBuf f.mem hl hdel] at hv
          exact ⟨hdel, List.append_left_eq_self.mp hv⟩
        · cases (Prod.mk.inj he).2
      · rintro ⟨hdel, rfl⟩
        refine ⟨_, rfl, Or.inl ⟨r, data, hr, hl, hdel, ?_⟩⟩
        rw [List.nil_append, cut_readBuf f.mem hl hdel]
  · rw [getFromDisk, if_neg hsz]
    refine iff_of_false ?_ (fun h => hsz h.1)
    rintro ⟨_, ⟨⟩, -⟩

/-- A `Get` that both caches miss answers with bytes that were read or changes
nothing just when the faults below it are harmless. -/
theorem get_honest_iff (o : Options) (mem : Fin 4 → Nat → UInt8) (calls : List Call) (s : State)
    (hrun : calls.foldlM (step o) (openFresh o mem) = some s) (k : Key) (out : Value) (f : Reads)
    (hc : (s.readCache k).2 = none) (hb : (s.readBuffer k).2 = none) :
    (∃ result, getFaulty s k out f = some result ∧ Honest s k f result) ↔ Sound s k out f := by
  have h : Calm s :=
    foldlM_invariant (fun _ _ _ _ h hs => step_calm h hs) (openFresh_calm o mem) hrun
  rw [getFaulty_of_misses h hc hb]
  cases hi : readIndex s.index[k]? f.index with
  | none =>
    refine iff_of_true ⟨_, rfl, Or.inr rfl⟩ ?_
    intro r hr hok
    rw [readIndex_eq_some.mpr ⟨hr, hok⟩] at hi
    cases hi
  | some r =>
    obtain ⟨hr, hok⟩ := readIndex_eq_some.mp hi
    rw [getFromDisk_honest_iff hr]
    constructor
    · intro h r' hr' _
      rw [hr] at hr'
      cases hr'
      exact h
    · intro h
      exact h r hr hok

def reopened : List Call :=
  [.put [7] [1] ⟨fun _ => true, 4096⟩, .flush fun _ => 4096, .reopen (fun _ => 4096) fun _ _ => 0]

def twice : Reads := ⟨fun i => decide (2 ≤ i), fun i => some (4096 * i), fun _ => 0⟩

theorem get_honest_retried : ∃ s result,
    reopened.foldlM (step ⟨32768, 16⟩) (openFresh ⟨32768, 16⟩ fun _ _ => 0) = some s ∧
      getFaulty s [7] [] twice = some result ∧ result.2 = .ok [1] ∧ Honest s [7] twice result := by
  have hrun : ∃ s ∈ reopened.foldlM (step ⟨32768, 16⟩) (openFresh ⟨32768, 16⟩ fun _ _ => 0),
      (s.readCache [7]).2 = none ∧ (s.readBuffer [7]).2 = none ∧
      s.index[([7] : Key)]? = some ⟨0, 1⟩ ∧
      delivered (s.log [7]).file ⟨0, 1⟩ twice.pread 0 = some [] ∧
      (∃ data ∈ delivered (s.log [7]).file ⟨0, 1⟩ twice.pread 1, 1 ≤ data.length) ∧
      ∃ result ∈ getFaulty s [7] [] twice, result.2 = .ok [1] := by
    decide +kernel
  obtain ⟨s, hs, hc, hb, hr, h0, ⟨data, hd, hlen⟩, result, hres, hok⟩ := hrun
  have hsound : Sound s [7] [] twice := by
    intro r hr' _
    rw [hr] at hr'
    cases hr'
    refine ⟨by decide, ?_⟩
    rintro d ⟨i, hi, hz, rfl, hne⟩
    refine ⟨Or.inr ?_, rfl⟩
    have h1 : i = 1 := by
      by_contra h1
      obtain rfl | hi2 : i = 0 ∨ 1 < i := by omega
      · exact hne h0
      · have he : data = [] := Option.some.inj ((Option.mem_def.mp hd).symm.trans (hz 1 hi2))
        simp [he] at hlen
    rw [h1, Option.mem_def.mp hd]
    exact hlen
  obtain ⟨res, hres', hh⟩ :=
    (get_honest_iff _ _ reopened s hs [7] [] twice hc hb).mpr hsound
  rw [Option.mem_def.mp hres] at hres'
  cases hres'
  exact ⟨s, result, hs, hres, hok, hh⟩

def failing : Reads := ⟨fun _ => true, fun _ => none, fun _ => 5⟩

/-- A `pread` that fails with `-1` is taken for a success: what was in memory is
returned, and the next caller gets it from the cache. -/
theorem failed_read_answered : ∃ s t,
    reopened.foldlM (step ⟨32768, 16⟩) (openFresh ⟨32768, 16⟩ fun _ _ => 0) = some s ∧
      (s.readCache [7]).2 = none ∧ (s.readBuffer [7]).2 = none ∧
      getFaulty s [7] [] failing = some (t, .ok [5]) ∧ ¬ Honest s [7] failing (t, .ok [5]) ∧
      (Database.get s [7]).2 = .ok [1] ∧ (Database.get t [7]).2 = .ok [5] := by
  have hrun : ∃ s ∈ reopened.foldlM (step ⟨32768, 16⟩) (openFresh ⟨32768, 16⟩ fun _ _ => 0),
      (s.readCache [7]).2 = none ∧ (s.readBuffer [7]).2 = none ∧
      s.index[([7] : Key)]? = some ⟨0, 1⟩ ∧ (Database.get s [7]).2 = .ok [1] ∧
      ∃ result ∈ getFaulty s [7] [] failing,
        result.2 = .ok [5] ∧ (Database.get result.1 [7]).2 = .ok [5] := by
    decide +kernel
  obtain ⟨s, hs, hc, hb, hi, hg, ⟨t, a⟩, hres, rfl, ht⟩ := hrun
  refine ⟨s, t, hs, hc, hb, hres, ?_, hg, ht⟩
  rintro (⟨r, data, hr, ⟨i, -, -, rfl, -⟩, hd, -⟩ | he)
  · rw [hi] at hr
    cases hr
    revert hd
    simp [Delivers, delivered, failing]
  · cases (Prod.mk.inj he).2

end WiscKey.ReadFaults
