import WiscKey.IteratorStore

namespace WiscKey.IteratorWrites

open WiscKey.Runs WiscKey.Bytes WiscKey.ValueLog WiscKey.LogLayout WiscKey.LogRecords
  WiscKey.Database WiscKey.Representation WiscKey.Sequential WiscKey.IteratorQueue
  WiscKey.IteratorScan WiscKey.IteratorValues WiscKey.IteratorStore

open WiscKey.Iterator (RocksIterator DBIterator belowUpper)

/-- A call on an iterator, or calls of other clients that `flushVLog` brings to
the log files before the next call on the iterator. -/
inductive Event where
  | others (ops : List Op)
  | seek (target : Key)
  | next
  | value (mem : Nat → Nat → UInt8)

structure Reader where
  store : State
  iter : DBIterator Record
  pairs : List (Key × Value)

def openReader (s : State) (upper : Option Key) (prefetchEna : Bool) (prefetchDepth : Nat) :
    Reader where
  store := s
  iter := .new (.new s.index upper) prefetchEna prefetchDepth
  pairs := []

def advance (o : Options) (c : Reader) : Event → Option Reader
  | .others ops => some { c with store := flushVLog (ops.foldl (step o) c.store) }
  | .seek target => (c.iter.seek target).map fun d => { c with iter := d }
  | .next => c.iter.next.map fun d => { c with iter := d }
  | .value mem => do
    let k ← c.iter.key
    let (d, v) ← valueOf c.store mem c.iter
    return ⟨c.store, d, c.pairs ++ [(k, v)]⟩

/-- What the other clients have stored, the pairs of a list from the current one
on, whether the current one was read, and the pairs read so far. -/
structure Ideal where
  store : Store
  rest : List (Key × Value)
  seen : Bool
  pairs : List (Key × Value)

def Ideal.start (m : Store) : Ideal := ⟨m, [], false, []⟩

/-- The same calls on a list of pairs. `Next` and `value` require a current pair,
and the iterator leaves a pair only after it was read. -/
def idealStep (l : List (Key × Value)) (a : Ideal) : Event → Option Ideal
  | .others ops => some { a with store := ops.foldl mapStep a.store }
  | .seek target =>
    if a.rest.isEmpty || a.seen then
      some { a with rest := range l (some target), seen := false }
    else none
  | .next =>
    match a.rest, a.seen with
    | _ :: rest, true => some { a with rest := rest, seen := false }
    | _, _ => none
  | .value _ => a.rest.head?.map fun e => { a with seen := true, pairs := a.pairs ++ [e] }

def Event.Small : Event → Prop
  | .others ops => ∀ op ∈ ops, op.Small
  | .seek _ | .next | .value _ => True

def AtStart (c : Reader) : Event → Prop
  | .seek _ => c.iter.cur = 0
  | .others _ | .next | .value _ => True

def Current (a : Ideal) : Event → Prop
  | .value _ => ∀ e ∈ a.rest.head?, a.store e.1 = some e.2
  | .others _ | .seek _ | .next => True

instance : DecidablePred Event.Small
  | .others ops => inferInstanceAs (Decidable (∀ op ∈ ops, op.Small))
  | .seek _ | .next | .value _ => inferInstanceAs (Decidable True)

instance (c : Reader) : DecidablePred (AtStart c)
  | .seek _ => inferInstanceAs (Decidable (c.iter.cur = 0))
  | .others _ | .next | .value _ => inferInstanceAs (Decidable True)

instance (a : Ideal) : DecidablePred (Current a)
  | .value _ => inferInstanceAs (Decidable (∀ e ∈ a.rest.head?, a.store e.1 = some e.2))
  | .others _ | .seek _ | .next => inferInstanceAs (Decidable True)

structure Later (o : Options) (s₀ : State) (m : Store) (s : State) : Prop where
  represents : Represents o m s
  flushed : Flushed s
  grows : ∀ i, Grows (s₀.logs i) (s.logs i)

variable {o : Options} {s₀ s : State} {m₀ m : Store} {k : Key} {r : Record}

theorem flushVLog_flushed (hb : PageBuffer o.logBufSize) (h : Represents o m s) :
    Flushed (flushVLog s) := by
  rintro ⟨k, r⟩ hmem
  have hr := Std.ExtTreeMap.mem_toList_iff_getElem?_eq_some.mp hmem
  obtain ⟨v, -, hs⟩ := h.stored hr
  have hl := h.layout_log k
  have hlba := (flush_layout hb.2 hl).lba_eq
  change _ ≤ (s.log k).flush.file.length
  rw [← hlba]
  exact hs.below.trans (flush_lba hl.toWithin)

theorem others_later (hb : PageBuffer o.logBufSize) (h : Later o s₀ m s) {ops : List Op}
    (hops : ∀ op ∈ ops, op.Small) :
    Later o s₀ (ops.foldl mapStep m) (flushVLog (ops.foldl (step o) s)) := by
  have hrun : Represents o (ops.foldl mapStep m) (ops.foldl (step o) s) ∧
      ∀ i, Grows (s₀.logs i) ((ops.foldl (step o) s).logs i) := by
    refine (along_of_forall hops).simulates mapStep
      (fun s m => Represents o m s ∧ ∀ i, Grows (s₀.logs i) (s.logs i)) ⟨h.represents, h.grows⟩ ?_
    rintro s m op ⟨hr, hg⟩ hop
    exact ⟨step_represents hb hr hop, fun i => (hg i).trans (step_grows hb hr hop i)⟩
  refine ⟨flushVLog_represents hb hrun.1, flushVLog_flushed hb hrun.1, fun i => ?_⟩
  exact (hrun.2 i).trans (flush_grows (hrun.1.layout i).toWithin)

theorem readValue_later (h₀ : Represents o m₀ s₀) (h : Later o s₀ m s) {mem : Nat → UInt8}
    (hr : r.offset + r.size ≤ (s₀.log k).file.length) :
    readValue s mem k r = stored s₀ (k, r) := by
  have hw₀ := (h₀.layout_log k).toWithin
  have hw := (h.represents.layout_log k).toWithin
  have hg : Grows (s₀.log k) (s.log k) := h.grows _
  rw [← hw₀.lba_eq] at hr
  have hlba := hr.trans (hg.lba_le hw₀)
  obtain ⟨t, ht⟩ := hg.contents
  have hlen : r.offset + r.size ≤ (s₀.log k).contents.length := by
    rw [length_contents hw₀]
    exact hr.trans (Nat.le_add_right _ _)
  rw [readValue_flushed (hw.lba_eq ▸ hlba), stored, stored, ← file_slice hw hlba,
    ← file_slice hw₀ hr, ← ht, slice_append_left _ _ _ _ hlen]

def pairOf (s : State) (e : Key × Record) : Key × Value := (e.1, stored s e)

theorem range_snapshot (s : State) (upper : Option Key) (target : Key) :
    range (snapshot s upper) (some target) =
      (range (RocksIterator.new s.index upper).entries (some target)).map (pairOf s) := by
  rw [range, range, snapshot, List.filter_map]
  rfl

/-- A reader is at the same place as the ideal one. How its iterator is related
to the entries that are left is a parameter. -/
structure Follows (o : Options) (s₀ : State)
    (Q : DBIterator Record → List (Key × Record) → Bool → Prop) (c : Reader) (a : Ideal) :
    Prop where
  later : Later o s₀ a.store c.store
  iter : ∃ rest, a.rest = rest.map (pairOf s₀) ∧ Q c.iter rest a.seen

variable {Q : DBIterator Record → List (Key × Record) → Bool → Prop} {c : Reader} {a a' : Ideal}
  {upper : Option Key} {target : Key} {mem : Nat → Nat → UInt8} {l : List (Key × Value)}

theorem seek_follows (hQ : ∀ rest, Q c.iter rest a.seen → ∃ d, c.iter.seek target = some d ∧
      Q d (range (RocksIterator.new s₀.index upper).entries (some target)) false)
    (h : Follows o s₀ Q c a) (ha : idealStep (snapshot s₀ upper) a (.seek target) = some a') :
    ∃ c', advance o c (.seek target) = some c' ∧ Follows o s₀ Q c' a' ∧
      (c'.pairs = a'.pairs ↔ c.pairs = a.pairs) := by
  obtain ⟨rest, -, hq⟩ := h.iter
  obtain ⟨d, hd, hq'⟩ := hQ rest hq
  obtain ⟨-, ha⟩ := Option.ite_none_right_eq_some.mp ha
  cases ha
  refine ⟨{ c with iter := d }, ?_, ⟨h.later, _, range_snapshot _ _ _, hq'⟩, Iff.rfl⟩
  rw [advance, hd]
  rfl

theorem next_follows (hQ : ∀ e rest, Q c.iter (e :: rest) true → ∃ d, c.iter.next = some d ∧
      Q d rest false)
    (h : Follows o s₀ Q c a) (ha : idealStep l a .next = some a') :
    ∃ c', advance o c .next = some c' ∧ Follows o s₀ Q c' a' ∧
      (c'.pairs = a'.pairs ↔ c.pairs = a.pairs) := by
  obtain ⟨rest, hr, hq⟩ := h.iter
  obtain ⟨m, ps, seen, pairs⟩ := a
  dsimp only at hr hq
  subst hr
  cases rest with
  | nil => cases ha
  | cons e rest =>
    cases seen with
    | false => cases ha
    | true =>
      cases ha
      obtain ⟨d, hd, hq'⟩ := hQ e rest hq
      refine ⟨{ c with iter := d }, ?_, ⟨h.later, rest, rfl, hq'⟩, Iff.rfl⟩
      rw [advance, hd]
      rfl

theorem Follows.entry (h : Follows o s₀ Q c a) (ha : idealStep l a (.value mem) = some a') :
    ∃ e rest, a.rest = (e :: rest).map (pairOf s₀) ∧ Q c.iter (e :: rest) a.seen ∧
      a' = { a with seen := true, pairs := a.pairs ++ [pairOf s₀ e] } := by
  obtain ⟨rest, hr, hq⟩ := h.iter
  obtain ⟨p, hp, ha⟩ := Option.map_eq_some_iff.mp ha
  rw [hr] at hp
  cases rest with
  | nil => cases hp
  | cons e rest =>
    cases hp
    exact ⟨e, rest, hr, hq, ha.symm⟩

theorem value_plain {entries : List (Key × Record)}
    (h : Follows o s₀ (fun d rest _ => Plain entries d rest) c a)
    (ha : idealStep l a (.value mem) = some a') :
    (advance o c (.value mem) = none ∧ ¬Current a (.value mem)) ∨
    ∃ c', advance o c (.value mem) = some c' ∧
      Follows o s₀ (fun d rest _ => Plain entries d rest) c' a' ∧
      (c'.pairs = a'.pairs ↔ c.pairs = a.pairs ∧ Current a (.value mem)) := by
  obtain ⟨e, rest, hr, hq, rfl⟩ := h.entry ha
  have hcur : Current a (.value mem) ↔ a.store e.1 = some (stored s₀ e) := by
    rw [Current, hr]
    simp [pairOf]
  rw [advance, plain_key hq, valueOf_plain hq, hcur]
  cases hi : c.store.index[e.1]? with
  | none =>
    refine Or.inl ⟨rfl, ?_⟩
    rw [h.later.represents.dead hi]
    exact Option.some_ne_none _ ∘ Eq.symm
  | some r =>
    obtain ⟨v, hv, -⟩ := h.later.represents.stored hi
    have hl := h.later.flushed.le hi
    refine Or.inr ⟨_, rfl, ⟨h.later, e :: rest, hr, hq⟩, ?_⟩
    rw [readValue_flushed hl, stored_eq h.later.represents hi hv hl, hv]
    simp [pairOf]

theorem plain_step (hb : PageBuffer o.logBufSize) {ev : Event} (hev : ev.Small)
    (h : Follows o s₀ (fun d rest _ => Plain (RocksIterator.new s₀.index upper).entries d rest) c a)
    (ha : idealStep (snapshot s₀ upper) a ev = some a') :
    (advance o c ev = none ∧ ¬Current a ev) ∨ ∃ c', advance o c ev = some c' ∧
      Follows o s₀ (fun d rest _ => Plain (RocksIterator.new s₀.index upper).entries d rest) c' a' ∧
      (c'.pairs = a'.pairs ↔ c.pairs = a.pairs ∧ Current a ev) := by
  cases ev with
  | others ops =>
    cases ha
    exact Or.inr ⟨_, rfl, ⟨others_later hb h.later hev, h.iter⟩, (and_iff_left trivial).symm⟩
  | seek target =>
    obtain ⟨c', hc, hf, hp⟩ := seek_follows (fun rest hq => plain_position hq (some target)) h ha
    exact Or.inr ⟨c', hc, hf, hp.trans (and_iff_left trivial).symm⟩
  | next =>
    obtain ⟨c', hc, hf, hp⟩ := next_follows (fun e rest hq => plain_next hq) h ha
    exact Or.inr ⟨c', hc, hf, hp.trans (and_iff_left trivial).symm⟩
  | value mem => exact value_plain h ha

section Prefetch

variable {ρ : Type} {bytes : Key × ρ → Value} {entries rest : List (Key × ρ)} {d d' : DBIterator ρ}
  {e : Key × ρ} {seen : Bool}

/-- The entries from the current one on, and their values as far as they were
fetched. -/
structure Shown (bytes : Key × ρ → Value) (entries : List (Key × ρ)) (d : DBIterator ρ)
    (rest : List (Key × ρ)) (seen : Bool) : Prop where
  tracks : Tracks entries d rest
  rest_subset : rest ⊆ entries
  filled : seen = true ∨ d.cur ≠ 0 → Filled bytes d.slots d.cur (d.depth - d.cur) rest

theorem seek_cur {target : Key} (h : d.seek target = some d') : d'.cur = d.cur := by
  unfold DBIterator.seek at h
  split at h
  · obtain ⟨slots, -, h⟩ := Option.bind_eq_some_iff.mp h
    obtain ⟨p, -, h⟩ := Option.bind_eq_some_iff.mp h
    cases h
    rfl
  · cases h
    rfl

theorem next_start (he : d.prefetchEna = true) (hc : d.cur + 1 = d.depth)
    (h : d.next = some d') : d'.cur = 0 := by
  rw [DBIterator.next, if_pos he, if_pos hc] at h
  obtain ⟨p, -, h⟩ := Option.bind_eq_some_iff.mp h
  obtain ⟨s, -, h⟩ := Option.bind_eq_some_iff.mp h
  cases h
  rfl

theorem seek_shown (h : Shown bytes entries d rest seen) (hc : d.cur = 0) (target : Key) :
    ∃ d', d.seek target = some d' ∧ Shown bytes entries d' (range entries (some target)) false := by
  obtain ⟨d', hd, ht⟩ := seek_tracks h.tracks hc target
  refine ⟨d', hd, ht, List.filter_subset_self _, ?_⟩
  rw [seek_cur hd, hc]
  simp

theorem next_shown (h : Shown bytes entries d (e :: rest) true) :
    ∃ d', d.next = some d' ∧ Shown bytes entries d' rest false := by
  obtain ⟨d', hd, ht⟩ := next_tracks h.tracks
  refine ⟨d', hd, ht, (List.cons_subset.mp h.rest_subset).2, ?_⟩
  intro hcur
  refine next_filled hd h.tracks.ena h.tracks.cur_lt ?_ (h.filled (Or.inl rfl))
  exact fun hc => hcur.resolve_left Bool.false_ne_true (next_start h.tracks.ena hc hd)

end Prefetch

theorem value_shown {entries : List (Key × Record)} (h₀ : Represents o m₀ s₀) (hf : Flushed s₀)
    (hi : ∀ e ∈ entries, s₀.index[e.1]? = some e.2)
    (h : Follows o s₀ (Shown (stored s₀) entries) c a)
    (ha : idealStep l a (.value mem) = some a') :
    ∃ c', advance o c (.value mem) = some c' ∧ Follows o s₀ (Shown (stored s₀) entries) c' a' ∧
      (c'.pairs = a'.pairs ↔ c.pairs = a.pairs) := by
  obtain ⟨e, rest, hr, hq, rfl⟩ := h.entry ha
  obtain ⟨d, hd, ht, hfill⟩ := value_filled (fun k => c.store.index[k]?) hq.tracks
    (fun i a ha => readValue_later h₀ h.later (hf.le (hi a (hq.rest_subset ha))))
    (fun hc => hq.filled (Or.inr hc))
  refine ⟨⟨c.store, d, c.pairs ++ [pairOf s₀ e]⟩, ?_,
    ⟨h.later, e :: rest, hr, ht, hq.rest_subset, fun _ => hfill⟩, ?_⟩
  · rw [advance, hq.tracks.key_eq, valueOf, hd]
    rfl
  · simp

theorem prefetch_step (hb : PageBuffer o.logBufSize) (h₀ : Represents o m₀ s₀) (hf : Flushed s₀)
    {ev : Event} (hev : ev.Small)
    (h : Follows o s₀ (Shown (stored s₀) (RocksIterator.new s₀.index upper).entries) c a)
    (hc : AtStart c ev) (ha : idealStep (snapshot s₀ upper) a ev = some a') :
    ∃ c', advance o c ev = some c' ∧
      Follows o s₀ (Shown (stored s₀) (RocksIterator.new s₀.index upper).entries) c' a' ∧
      (c'.pairs = a'.pairs ↔ c.pairs = a.pairs) := by
  cases ev with
  | others ops =>
    cases ha
    exact ⟨_, rfl, ⟨others_later hb h.later hev, h.iter⟩, Iff.rfl⟩
  | seek target => exact seek_follows (fun rest hq => seek_shown hq hc target) h ha
  | next => exact next_follows (fun e rest hq => next_shown hq) h ha
  | value mem =>
    refine value_shown h₀ hf (fun e he => ?_) h ha
    exact (((new_ordered s₀.index upper).mem_iff e.1 e.2).mp he).1

theorem prefetch_run (hb : PageBuffer o.logBufSize) (h₀ : Represents o m₀ s₀) (hf : Flushed s₀)
    {e : Nat} {events : List Event} (hev : ∀ ev ∈ events, ev.Small)
    (hc : AlongM (advance o) AtStart (openReader s₀ upper true (2 ^ e)) events)
    (ha : events.foldlM (idealStep (snapshot s₀ upper)) (.start m₀) = some a) :
    ∃ c, events.foldlM (advance o) (openReader s₀ upper true (2 ^ e)) = some c ∧
      c.pairs = a.pairs := by
  have hq : Shown (stored s₀) (RocksIterator.new s₀.index upper).entries
      (openReader s₀ upper true (2 ^ e)).iter [] false :=
    ⟨new_tracks _ rfl e, List.nil_subset _, by simp [openReader, DBIterator.new]⟩
  have hstart : Follows o s₀ (Shown (stored s₀) (RocksIterator.new s₀.index upper).entries)
      (openReader s₀ upper true (2 ^ e)) (.start m₀) :=
    ⟨⟨h₀, hf, fun i => Grows.refl _⟩, [], rfl, hq⟩
  obtain ⟨c, hrun, -, hp⟩ := hc.follows (R := fun c a => Follows o s₀
      (Shown (stored s₀) (RocksIterator.new s₀.index upper).entries) c a ∧ c.pairs = a.pairs)
    (fun c a ev hmem a' h hc ha => by
      obtain ⟨c', hc', hf', hp⟩ := prefetch_step hb h₀ hf (hev ev hmem) h.1 hc ha
      exact ⟨c', hc', hf', hp.mpr h.2⟩) ⟨hstart, rfl⟩ ha
  exact ⟨c, hrun, hp⟩

theorem plain_run_iff (hb : PageBuffer o.logBufSize) (h₀ : Represents o m₀ s₀) (hf : Flushed s₀)
    {depth : Nat} {events : List Event} (hev : ∀ ev ∈ events, ev.Small)
    (ha : events.foldlM (idealStep (snapshot s₀ upper)) (.start m₀) = some a) :
    (∃ c, events.foldlM (advance o) (openReader s₀ upper false depth) = some c ∧
      c.pairs = a.pairs) ↔
      AlongM (idealStep (snapshot s₀ upper)) Current (.start m₀) events := by
  have hq : Plain (RocksIterator.new s₀.index upper).entries
      (openReader s₀ upper false depth).iter [] := ⟨rfl, rfl, rfl, rfl⟩
  have hstart : Follows o s₀
      (fun d rest _ => Plain (RocksIterator.new s₀.index upper).entries d rest)
      (openReader s₀ upper false depth) (.start m₀) :=
    ⟨⟨h₀, hf, fun i => Grows.refl _⟩, [], rfl, hq⟩
  refine (foldlM_agrees_iff (E := fun (c : Reader) (a : Ideal) => c.pairs = a.pairs) ?_ hstart
    ha).trans (and_iff_right rfl)
  exact fun c a ev hmem a' h ha => plain_step hb (hev ev hmem) h ha

/-- The reader with prefetching reads the pairs of the store as it was when the
iterator was created. The one without reads them just when no pair was changed
or removed before it is read. -/
theorem value_paths_iff (hb : PageBuffer o.logBufSize) (mem₀ : Fin 4 → Nat → UInt8)
    {ops : List Op} (hops : ∀ op ∈ ops, op.Small)
    (hs : ops.foldl (step o) (openFresh o mem₀) = s) (hf : Flushed s) (upper : Option Key) (e : Nat)
    {events : List Event} (hev : ∀ ev ∈ events, ev.Small)
    (ha : events.foldlM (idealStep (snapshot s upper)) (.start (lastWrite ops)) = some a)
    (hc : AlongM (advance o) AtStart (openReader s upper true (2 ^ e)) events) :
    Enumerates (fun k => if belowUpper upper k then lastWrite ops k else none) (snapshot s upper) ∧
    (∃ c, events.foldlM (advance o) (openReader s upper true (2 ^ e)) = some c ∧
      c.pairs = a.pairs) ∧
    ((∃ c, events.foldlM (advance o) (openReader s upper false (2 ^ e)) = some c ∧
      c.pairs = a.pairs) ↔
      AlongM (idealStep (snapshot s upper)) Current (.start (lastWrite ops)) events) := by
  have h₀ : Represents o (lastWrite ops) s := by
    rw [← hs]
    exact (along_of_forall hops).simulates mapStep (fun s m => Represents o m s)
      (openFresh_represents o mem₀) (fun s m op h hop => step_represents hb h hop)
  exact ⟨snapshot_enumerates h₀ hf upper, prefetch_run hb h₀ hf hev hc ha,
    plain_run_iff hb h₀ hf hev ha⟩

def twoWrites : List Op := [.put [1] [11], .put [2] [12], .flush]

def twoFlushed : State := twoWrites.foldl (step ⟨32768, 0⟩) (openFresh ⟨32768, 0⟩ fun _ _ => 0)

def readFirst : List Event :=
  [.seek [1], .others [.put [3] [13]], .value fun _ _ => 0, .others [.put [1] [21], .delete [3]],
    .next, .value fun _ _ => 0, .next]

theorem value_paths_readFirst :
    (∃ c, readFirst.foldlM (advance ⟨32768, 0⟩) (openReader twoFlushed none true (2 ^ 1)) =
      some c ∧ c.pairs = [([1], [11]), ([2], [12])]) ∧
    ∃ c, readFirst.foldlM (advance ⟨32768, 0⟩) (openReader twoFlushed none false (2 ^ 1)) =
      some c ∧ c.pairs = [([1], [11]), ([2], [12])] := by
  have hrun : ∃ a ∈ readFirst.foldlM (idealStep (snapshot twoFlushed none))
      (.start (lastWrite twoWrites)), a.pairs = [([1], [11]), ([2], [12])] := by
    decide +kernel
  obtain ⟨a, ha, hp⟩ := hrun
  have h := value_paths_iff (s := twoFlushed) (by decide) (fun _ _ => 0) (by decide) rfl
    (by decide +kernel) none 1 (show ∀ ev ∈ readFirst, ev.Small by decide) ha (by decide +kernel)
  rw [hp] at h
  exact ⟨h.2.1, h.2.2.mpr (by decide +kernel)⟩

/-- The value of a key is changed, or the key removed, between `Seek` and
`value`. -/
theorem value_paths_differ :
    ([Event.seek [1], .others [.put [1] [21]], .value fun _ _ => 0].foldlM (advance ⟨32768, 0⟩)
        (openReader twoFlushed none true 2)).map Reader.pairs = some [([1], [11])] ∧
    ([Event.seek [1], .others [.put [1] [21]], .value fun _ _ => 0].foldlM (advance ⟨32768, 0⟩)
        (openReader twoFlushed none false 2)).map Reader.pairs = some [([1], [21])] ∧
    ([Event.seek [1], .others [.delete [1]], .value fun _ _ => 0].foldlM (advance ⟨32768, 0⟩)
        (openReader twoFlushed none true 2)).map Reader.pairs = some [([1], [11])] ∧
    ([Event.seek [1], .others [.delete [1]], .value fun _ _ => 0].foldlM (advance ⟨32768, 0⟩)
        (openReader twoFlushed none false 2)).map Reader.pairs = none := by
  decide +kernel

end WiscKey.IteratorWrites
