import WiscKey.NewDb.Concurrent

namespace WiscKey.NewDb.Moves

open WiscKey.Vectors WiscKey.NewDb.Model WiscKey.NewDb.Collect WiscKey.NewDb.Concurrent

inductive Stepped (s : State) (ok : Bool) : Pc → State → Pc → Option Result → Prop
  | readHit {k v n p} : s.keydb[k]? = some p → Stepped s ok (.putRead k v n) s (.putPush k v p) none
  | readMiss {k v} : Stepped s ok (.putRead k v 0) s (.putDraw k v) none
  | retry {k v n} : Stepped s ok (.putRead k v (n + 1)) s (.putRead k v n) none
  | push {k v p} : Stepped s ok (.putPush k v p) (s.collectOld (some p)) (.putDraw k v) none
  | draw {k v} : Stepped s ok (.putDraw k v) s.getNewSeq.1 (.putKey k v s.sequence) none
  | keyOk {k v p} : ok = true → Stepped s ok (.putKey k v p) (s.putKey k p) (.putValue k v p) none
  | keyFail {k v p} : ok = false → Stepped s ok (.putKey k v p) s .idle (some .ioError)
  | valueOk {k v p} : ok = true → Fits k v →
      Stepped s ok (.putValue k v p) (s.putValue p (encode k v)) .idle (some .ok)
  | valueFail {k v p} : ok = false → Stepped s ok (.putValue k v p) s .idle (some .ioError)
  | deleteOk {k} : ok = true → Stepped s ok (.deleteKey k) (s.deleteKey k) .idle (some .ok)
  | deleteFail {k} : ok = false → Stepped s ok (.deleteKey k) s .idle (some .ok)
  | getHit {k p} : s.keydb[k]? = some p → Stepped s ok (.getKey k) s (.getValue k p) none
  | getMiss {k} : s.keydb[k]? = none → Stepped s ok (.getKey k) s .idle (some .notFound)
  | valueHit {k p pval} : s.valuedb[p]? = some pval →
      Stepped s ok (.getValue k p) s .idle (some (.value (decode pval)))
  | valueMiss {k p} : s.valuedb[p]? = none → Stepped s ok (.getValue k p) s .idle (some .notFound)

theorem stepped_of_next {s s' : State} {ok : Bool} {pc pc' : Pc} {r : Option Result}
    (h : next s ok pc = some (s', pc', r)) : Stepped s ok pc s' pc' r := by
  cases pc with
  | idle => cases h
  | putRead k v n =>
    simp only [next] at h
    split at h
    · cases h
      exact .readHit ‹_›
    · cases h
      exact .readMiss
    · cases h
      exact .retry
  | putPush k v p =>
    cases h
    exact .push
  | putDraw k v =>
    cases h
    exact .draw
  | putKey k v p =>
    cases ok with
    | true =>
      cases h
      exact .keyOk rfl
    | false =>
      cases h
      exact .keyFail rfl
  | putValue k v p =>
    obtain ⟨hf, h⟩ := Option.ite_none_right_eq_some.mp h
    cases ok with
    | true =>
      cases h
      exact .valueOk rfl hf
    | false =>
      cases h
      exact .valueFail rfl
  | deleteKey k =>
    cases ok with
    | true =>
      cases h
      exact .deleteOk rfl
    | false =>
      cases h
      exact .deleteFail rfl
  | getKey k =>
    simp only [next] at h
    split at h
    · cases h
      exact .getHit ‹_›
    · cases h
      exact .getMiss ‹_›
  | getValue k p =>
    simp only [next] at h
    split at h
    · cases h
      exact .valueHit ‹_›
    · cases h
      exact .valueMiss ‹_›

inductive Moved (c : Config) : Move → Config → Prop
  | call {j call} : c.clients[j]? = some .idle → Moved c (.call j call)
      { c with clients := c.clients.set j (begin call), events := c.events ++ [.start j call] }
  | go {j ok pc s' pc' r} : c.clients[j]? = some pc → Stepped c.state ok pc s' pc' r →
      Moved c (.go j ok) { makeRoom c pc with
        state := s'
        clients := c.clients.set j pc'
        drawn := c.drawn ++ draws pc
        events := c.events ++ finishes j pc r }
  | sort : c.gc = none → Moved c .gcSort
      { c with
        state := { c.state with phyKeysForGc := sortedKeys c.state.phyKeysForGc }
        gc := some ⟨c.state.phyKeysForGc.length, false, none, Loop.start⟩ }
  | measure {w keys levels files} : c.gc = some w → w.files = none → gcKeys c w = some keys →
      inputFiles keys levels = some files →
      Moved c (.gcMeasure levels) { c with gc := some { w with files := some files } }
  | gather {w f files keys compactFiles} : c.gc = some w → w.files = some (f :: files) →
      gcKeys c w = some keys → Moved c (.gcVisit compactFiles)
        { c with gc := some { w with files := some files, loop := w.loop.gather keys f } }
  | compact {w f files compactFiles} : c.gc = some w → w.files = some (f :: files) →
      Moved c (.gcVisit compactFiles)
        { c with
          state := { c.state with valuedb := w.loop.compact compactFiles c.state.valuedb }
          gc := some { w with files := some files, loop := w.loop.clear } }
  | erase {w rest} : c.gc = some w → w.files = some [] →
      eraseRanges c.state.phyKeysForGc w.loop.deletionKeys = some rest →
      Moved c .gcErase { c with state := { c.state with phyKeysForGc := rest }, gc := none }

variable {c c' : Config} {m : Move}

theorem moved_of_gcMove {w : Worker} (hw : c.gc = some w) (h : gcMove c w m = some c') :
    Moved c m c' := by
  cases m with
  | call j call | go j ok | gcSort => cases h
  | gcMeasure levels =>
    cases hf : w.files with
    | some files =>
      rw [gcMove, hf] at h
      cases h
    | none =>
      rw [gcMove, hf] at h
      obtain ⟨keys, hk, h⟩ := Option.bind_eq_some_iff.mp h
      obtain ⟨files, hi, h⟩ := Option.bind_eq_some_iff.mp h
      cases h
      exact .measure hw hf hk hi
  | gcVisit cf =>
    cases hf : w.files with
    | none =>
      rw [gcMove, hf] at h
      cases h
    | some files =>
      cases files with
      | nil =>
        rw [gcMove, hf] at h
        cases h
      | cons f files =>
        simp only [gcMove, hf] at h
        split at h
        · obtain ⟨keys, hk, h⟩ := Option.bind_eq_some_iff.mp h
          cases h
          exact .gather hw hf hk
        · cases h
          exact .compact hw hf
  | gcErase =>
    cases hf : w.files with
    | none =>
      rw [gcMove, hf] at h
      cases h
    | some files =>
      cases files with
      | nil =>
        simp only [gcMove, hf] at h
        split at h
        · cases h
        · obtain ⟨rest, hr, h⟩ := Option.bind_eq_some_iff.mp h
          cases h
          exact .erase hw hf hr
      | cons f files =>
        rw [gcMove, hf] at h
        cases h

theorem moved_of_move (h : move c m = some c') : Moved c m c' := by
  cases m with
  | call j call =>
    simp only [move] at h
    split at h
    · cases h
      exact .call ‹_›
    · cases h
  | go j ok =>
    obtain ⟨pc, hpc, h⟩ := Option.bind_eq_some_iff.mp h
    obtain ⟨⟨s', pc', r⟩, hn, h⟩ := Option.bind_eq_some_iff.mp h
    cases h
    exact .go hpc (stepped_of_next hn)
  | gcSort =>
    simp only [move] at h
    split at h
    · cases h
      exact .sort ‹_›
    · cases h
  | gcMeasure levels =>
    obtain ⟨w, hw, h⟩ := Option.bind_eq_some_iff.mp h
    exact moved_of_gcMove hw h
  | gcVisit cf =>
    obtain ⟨w, hw, h⟩ := Option.bind_eq_some_iff.mp h
    exact moved_of_gcMove hw h
  | gcErase =>
    obtain ⟨w, hw, h⟩ := Option.bind_eq_some_iff.mp h
    exact moved_of_gcMove hw h

theorem move_drawn (hm : Moved c m c') : c.drawn <+: c'.drawn := by
  cases hm with
  | go => exact List.prefix_append _ _
  | call | sort | measure | gather | compact | erase => exact List.prefix_rfl

end WiscKey.NewDb.Moves
