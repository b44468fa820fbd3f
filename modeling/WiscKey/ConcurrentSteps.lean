import WiscKey.Concurrent

namespace WiscKey.ConcurrentSteps

open WiscKey.ValueLog WiscKey.ShardedCache WiscKey.Database WiscKey.Sequential WiscKey.Concurrent

/-- All that a step of a client can do. -/
inductive Stepped (o : Options) (s : State) : Pc → State → Pc → List Event → Prop
  | putInsert {l k v} : Stepped o s (.putInsert l k v) (insertAt s l k v).1
      (.putRelease l k v (insertAt s l k v).2) []
  | putReleaseData {k v h} : Stepped o s (.putRelease .data k v h) (releaseAt s .data h)
      (.putInsert (bufferOf k) k v) []
  | putReleaseBuffer {p k v h} : Stepped o s (.putRelease (.buffer p) k v h)
      (releaseAt s (.buffer p) h) (.putLog k v) []
  | putLog {k v} : Stepped o s (.putLog k v) (s.appendLog o k v).1
      (.putIndex k v (s.appendLog o k v).2) []
  | putIndex {k v lba} : Stepped o s (.putIndex k v lba) (s.putIndex k ⟨lba, v.length⟩) .idle []
  | eraseData {k} : Stepped o s (.deleteErase .data k) (eraseAt s .data k)
      (.deleteErase (bufferOf k) k) []
  | eraseBuffer {p k} : Stepped o s (.deleteErase (.buffer p) k) (eraseAt s (.buffer p) k)
      (.deleteIndex k) []
  | deleteIndex {k} : Stepped o s (.deleteIndex k) (s.deleteIndex k) .idle []
  | cacheHit {k h} : (lookupAt s .data k).2 = some h →
      Stepped o s (.getCache k) (lookupAt s .data k).1 (.getValue .data k h) []
  | cacheMiss {k} : (lookupAt s .data k).2 = none →
      Stepped o s (.getCache k) (lookupAt s .data k).1 (.getIndex k) []
  | indexHit {k q} : s.index[k]? = some q → Stepped o s (.getIndex k) s (.getBuffer k q) []
  | indexMiss {k} : s.index[k]? = none →
      Stepped o s (.getIndex k) s .idle [.answer k .notFound]
  | bufferHit {k q h} : (lookupAt s (bufferOf k) k).2 = some h →
      Stepped o s (.getBuffer k q) (lookupAt s (bufferOf k) k).1 (.getValue (bufferOf k) k h) []
  | bufferMiss {k q} : (lookupAt s (bufferOf k) k).2 = none →
      Stepped o s (.getBuffer k q) (lookupAt s (bufferOf k) k).1 (.getLog k q 0) []
  | value {l k h v} : valueAt s l h = some v →
      Stepped o s (.getValue l k h) s (.getRelease l k h v) []
  | release {l k h v} : Stepped o s (.getRelease l k h v) (releaseAt s l (some h)) .idle
      [.answer k (.ok v)]
  | giveUp {k q} : Stepped o s (.getLog k q 3) s .idle [.answer k .notFound]
  | logHit {k q n v} : readLog (s.log k).file q = some v →
      Stepped o s (.getLog k q n) s (.getInsert k v) []
  | retry {k q n} : Stepped o s (.getLog k q n) s (.getLog k q (n + 1)) []
  | insert {k v} : Stepped o s (.getInsert k v) (insertAt s .data k v).1
      (.getInsertRelease k v (insertAt s .data k v).2) []
  | insertRelease {k v h} : Stepped o s (.getInsertRelease k v h) (releaseAt s .data h) .idle
      [.answer k (.ok v)]
  | flushed : Stepped o s (.flush []) s .idle []
  | flush {p ps} : Stepped o s (.flush (p :: ps))
      { s with logs := Function.update s.logs p (s.logs p).flush } (.flush ps) []

variable {o : Options} {s s' : State} {pc pc' : Pc} {es : List Event} {c c' : Config} {m : Move}

theorem stepped_of_next (hn : next o s pc = some (s', pc', es)) : Stepped o s pc s' pc' es := by
  cases pc with
  | idle => cases hn
  | putInsert l k v =>
    cases hn
    exact .putInsert
  | putRelease l k v h =>
    cases l with
    | data =>
      cases hn
      exact .putReleaseData
    | buffer p =>
      cases hn
      exact .putReleaseBuffer
  | putLog k v =>
    cases hn
    exact .putLog
  | putIndex k v lba =>
    cases hn
    exact .putIndex
  | deleteErase l k =>
    cases l with
    | data =>
      cases hn
      exact .eraseData
    | buffer p =>
      cases hn
      exact .eraseBuffer
  | deleteIndex k =>
    cases hn
    exact .deleteIndex
  | getCache k =>
    simp only [next] at hn
    split at hn
    · cases hn
      exact .cacheHit ‹_›
    · cases hn
      exact .cacheMiss ‹_›
  | getIndex k =>
    simp only [next] at hn
    split at hn
    · cases hn
      exact .indexHit ‹_›
    · cases hn
      exact .indexMiss ‹_›
  | getBuffer k q =>
    simp only [next] at hn
    split at hn
    · cases hn
      exact .bufferHit ‹_›
    · cases hn
      exact .bufferMiss ‹_›
  | getValue l k h =>
    obtain ⟨v, hv, he⟩ := Option.map_eq_some_iff.mp hn
    cases he
    exact .value hv
  | getRelease l k h v =>
    cases hn
    exact .release
  | getLog k q n =>
    simp only [next] at hn
    split at hn
    · subst n
      cases hn
      exact .giveUp
    · split at hn
      · cases hn
        exact .logHit ‹_›
      · cases hn
        exact .retry
  | getInsert k v =>
    cases hn
    exact .insert
  | getInsertRelease k v h =>
    cases hn
    exact .insertRelease
  | flush ps =>
    cases ps with
    | nil =>
      cases hn
      exact .flushed
    | cons p ps =>
      cases hn
      exact .flush

inductive Moved (o : Options) (c : Config) : Move → Config → Prop
  | call {j op} : c.clients[j]? = some .idle → Moved o c (.call j op)
      { c with clients := c.clients.set j (begin op).1, events := c.events ++ (begin op).2 }
  | go {j pc s' pc' es} : c.clients[j]? = some pc → Stepped o c.state pc s' pc' es →
      Moved o c (.go j) ⟨s', c.clients.set j pc', c.events ++ es⟩

theorem moved_of_move (h : move o c m = some c') : Moved o c m c' := by
  cases m with
  | call j op =>
    simp only [move] at h
    split at h
    · cases h
      exact .call ‹_›
    · cases h
  | go j =>
    obtain ⟨pc, hpc, h⟩ := Option.bind_eq_some_iff.mp h
    obtain ⟨⟨s', pc', es⟩, hn, rfl⟩ := Option.map_eq_some_iff.mp h
    exact .go hpc (stepped_of_next hn)

end WiscKey.ConcurrentSteps
