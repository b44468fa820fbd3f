import WiscKey.NewDb.IndexIntegrity

namespace WiscKey.NewDb.ReadRace

open WiscKey.Maps WiscKey.Runs WiscKey.NewDb.Model WiscKey.NewDb.Concurrent WiscKey.NewDb.Moves
  WiscKey.NewDb.Numbering WiscKey.NewDb.IndexIntegrity

def notePut (k : Key) (last : Option Value) : Event → Option Value
  | .finish _ (.put k' v) .ok => if k' = k then some v else last
  | _ => last

def lastPut (events : List Event) (k : Key) : Option Value := events.foldl (notePut k) none

def Undisturbed (k : Key) : Move → Prop
  | .call _ (.delete k') => k' ≠ k
  | .call _ _ => True
  | .go _ ok => ok = true
  | _ => False

instance (k : Key) : DecidablePred (Undisturbed k)
  | .call _ (.delete k') => inferInstanceAs (Decidable (k' ≠ k))
  | .call _ (.put _ _) | .call _ (.get _) => inferInstanceAs (Decidable True)
  | .go _ ok => inferInstanceAs (Decidable (ok = true))
  | .gcSort | .gcMeasure _ | .gcVisit _ | .gcErase => inferInstanceAs (Decidable False)

/-- A physical value that `Get` reads back as it was: the length of the key fits
its byte, and there is no zero byte in the value. -/
def Readable (k : Key) (v : Value) : Prop := k.length ≤ 255 ∧ ∀ b ∈ v, b ≠ 0

instance (k : Key) (v : Value) : Decidable (Readable k v) :=
  inferInstanceAs (Decidable (_ ∧ _))

def Foremost (s : State) (k : Key) (p : UInt64) : Prop :=
  ∀ q ∈ s.keydb[k]?, q = p ∨ s.valuedb[q]? = none

instance (s : State) (k : Key) (p : UInt64) : Decidable (Foremost s k p) :=
  Option.decidableForallMem (s.keydb[k]?)

/-- A `Get` reads `valuedb_` when no `Put` is about to write that entry, and a
`Put` completes when the index does not lead to the value of another one that
has completed. -/
def InTurn (k : Key) (c : Config) : Pc → Prop
  | .getValue k' p => k' = k → ∀ pc ∈ c.clients, number pc ≠ some p
  | .putValue k' _ p => k' = k → Foremost c.state k p
  | _ => True

instance (k : Key) (c : Config) : DecidablePred (InTurn k c)
  | .getValue k' p =>
    inferInstanceAs (Decidable (k' = k → ∀ pc ∈ c.clients, number pc ≠ some p))
  | .putValue k' _ p => inferInstanceAs (Decidable (k' = k → Foremost c.state k p))
  | .idle | .putRead _ _ _ | .putPush _ _ _ | .putDraw _ _ | .putKey _ _ _ | .deleteKey _
  | .getKey _ => inferInstanceAs (Decidable True)

def Orderly (k : Key) (c : Config) : Move → Prop
  | .call _ (.put k' v) => k' = k → Readable k v
  | .go j _ => ∀ pc ∈ c.clients[j]?, InTurn k c pc
  | _ => True

instance (k : Key) (c : Config) : DecidablePred (Orderly k c)
  | .call _ (.put k' v) => inferInstanceAs (Decidable (k' = k → Readable k v))
  | .go j _ => inferInstanceAs (Decidable (∀ pc ∈ c.clients[j]?, InTurn k c pc))
  | .call _ (.delete _) | .call _ (.get _) | .gcSort | .gcMeasure _ | .gcVisit _ | .gcErase =>
    inferInstanceAs (Decidable True)

theorem encode_inj {k : Key} {v w : Value} (h : encode k v = encode k w) : v = w := by
  simpa [encode] using h

def Writers (k : Key) (good : Value → Prop) (clients : List Pc) : Prop :=
  ∀ pc ∈ clients, ∀ v, pc.call = some (.put k v) → good v

/-- The index and the completed `Put`s of a key agree. -/
structure Settled (k : Key) (c : Config) : Prop where
  latest : ∀ p v, c.state.keydb[k]? = some p → c.state.valuedb[p]? = some (encode k v) →
    lastPut c.events k = some v
  absent : c.state.keydb[k]? = none →
    lastPut c.events k = none ∧ ∀ v p, .putValue k v p ∉ c.clients
  kept : ∀ pc ∈ c.clients, pc.call ≠ some (.delete k)
  readable : Writers k (Readable k) c.clients
  drawn : ∀ v, (k, v) ∈ c.drawn → Readable k v

variable {k : Key} {s s' : State} {pc pc' : Pc} {r : Option Result} {j : Nat}
  {c c' : Config} {m : Move} {good : Value → Prop} {pub : Set UInt64}

theorem Undisturbed.plain (h : Undisturbed k m) : Plain m := by
  cases m with
  | call j call => trivial
  | go j ok => exact h
  | gcSort | gcMeasure levels | gcVisit cf | gcErase => exact h

theorem lastPut_append (events : List Event) (e : Event) :
    lastPut (events ++ [e]) k = notePut k (lastPut events k) e := by
  rw [lastPut, List.foldl_append]
  rfl

theorem lastPut_finishes (events : List Event)
    (h : r = some .ok → ∀ v, pc.call ≠ some (.put k v)) :
    lastPut (events ++ finishes j pc r) k = lastPut events k := by
  cases hcall : pc.call with
  | none => simp only [finishes, hcall, List.append_nil]
  | some call =>
    cases r with
    | none => simp only [finishes, hcall, List.append_nil]
    | some res =>
      simp only [finishes, hcall, lastPut_append]
      cases call with
      | put k' v =>
        cases res with
        | ok =>
          refine if_neg ?_
          rintro rfl
          exact h rfl v hcall
        | ioError | notFound | value w => rfl
      | delete k' | get k' => rfl

theorem stepped_call {ok : Bool} {call : Call} (hs : Stepped s ok pc s' pc' r)
    (h : pc'.call = some call) : pc.call = some call := by
  cases hs with
  | readHit | readMiss | retry | push | draw | keyOk | getHit => exact h
  | keyFail | valueOk | valueFail | deleteOk | deleteFail | getMiss | valueHit | valueMiss =>
    cases h

theorem move_call {call : Call} (hm : Moved c m c') (hmem : pc ∈ c'.clients)
    (hc : pc.call = some call) :
    (∃ a ∈ c.clients, a.call = some call) ∨ ∃ i, m = .call i call := by
  cases hm with
  | @call i new hj =>
    obtain hmem | rfl := List.mem_or_eq_of_mem_set hmem
    · exact Or.inl ⟨pc, hmem, hc⟩
    · cases new with
      | put k v | delete k | get k =>
        cases hc
        exact Or.inr ⟨i, rfl⟩
  | go hj hs =>
    obtain hmem | rfl := List.mem_or_eq_of_mem_set hmem
    · exact Or.inl ⟨pc, hmem, hc⟩
    · exact Or.inl ⟨_, List.mem_of_getElem? hj, stepped_call hs hc⟩
  | sort | measure | gather | compact | erase => exact Or.inl ⟨pc, hmem, hc⟩

theorem move_writers (h : Writers k good c.clients) (hm : Moved c m c')
    (hc : ∀ i v, m = .call i (.put k v) → good v) : Writers k good c'.clients := by
  intro a ha v hv
  obtain ⟨b, hb, hbv⟩ | ⟨i, hi⟩ := move_call hm ha hv
  · exact h b hb v hbv
  · exact hc i v hi

theorem call_of_mem_draws {a : Key × Value} (h : a ∈ draws pc) :
    pc.call = some (.put a.1 a.2) := by
  cases pc with
  | putDraw k v =>
    rw [List.mem_singleton.mp h]
    rfl
  | idle | putRead k v n | putPush k v p | putKey k v p | putValue k v p | deleteKey k | getKey k
  | getValue k p => cases h

theorem putValue_mem_set {l : List Pc} {i : Nat} {v : Value} {p : UInt64}
    (h : .putValue k v p ∈ l.set i pc) (hne : pc ≠ .putValue k v p) : .putValue k v p ∈ l := by
  obtain h | h := List.mem_or_eq_of_mem_set h
  · exact h
  · exact absurd h.symm hne

theorem move_kept (h : Settled k c) (hm : Moved c m c') (hu : Undisturbed k m)
    (ho : Orderly k c m) : (∀ pc ∈ c'.clients, pc.call ≠ some (.delete k)) ∧
      Writers k (Readable k) c'.clients ∧ ∀ v, (k, v) ∈ c'.drawn → Readable k v := by
  refine ⟨fun a ha hd => ?_, move_writers h.readable hm ?_, fun v hv => ?_⟩
  · obtain ⟨b, hb, hbd⟩ | ⟨i, rfl⟩ := move_call hm ha hd
    · exact h.kept b hb hbd
    · exact hu rfl
  · rintro i v rfl
    exact ho rfl
  · cases hm with
    | go hj hs =>
      obtain hv | hv := List.mem_append.mp hv
      · exact h.drawn v hv
      · exact h.readable _ (List.mem_of_getElem? hj) v (call_of_mem_draws hv)
    | call | sort | measure | gather | compact | erase => exact h.drawn v hv

theorem Settled.quiet (h : Settled k c) (hm : Moved c m c') (hu : Undisturbed k m)
    (ho : Orderly k c m) (hkey : c'.state.keydb[k]? = c.state.keydb[k]?)
    (hval : ∀ p, c.state.keydb[k]? = some p → c'.state.valuedb[p]? = c.state.valuedb[p]?)
    (hlast : lastPut c'.events k = lastPut c.events k)
    (hput : ∀ v p, .putValue k v p ∈ c'.clients → .putValue k v p ∈ c.clients) :
    Settled k c' where
  latest p v hp hv := by
    rw [hkey] at hp
    rw [hval p hp] at hv
    exact hlast.trans (h.latest p v hp hv)
  absent hk := by
    rw [hkey] at hk
    exact ⟨hlast.trans (h.absent hk).1, fun v p hmem => (h.absent hk).2 v p (hput v p hmem)⟩
  kept := (move_kept h hm hu ho).1
  readable := (move_kept h hm hu ho).2.1
  drawn := (move_kept h hm hu ho).2.2

theorem move_settled (h : Settled k c) (hn : Numbered c.state c.clients c.drawn pub)
    (hm : Moved c m c') (hu : Undisturbed k m) (ho : Orderly k c m) : Settled k c' := by
  have hkept := move_kept h hm hu ho
  cases hm with
  | @call j call hj =>
    refine h.quiet (.call hj) hu ho rfl (fun _ _ => rfl) (lastPut_append _ _) (fun v p hmem => ?_)
    refine putValue_mem_set hmem ?_
    cases call with
    | put k v | delete k | get k => rintro ⟨⟩
  | @go j ok pc s' pc' r hj hs =>
    cases hu
    have hquiet : s'.keydb[k]? = c.state.keydb[k]? →
        (∀ p, c.state.keydb[k]? = some p → s'.valuedb[p]? = c.state.valuedb[p]?) →
        lastPut (c.events ++ finishes j pc r) k = lastPut c.events k →
        (∀ v p, pc' ≠ .putValue k v p) → Settled k { makeRoom c pc with
          state := s'
          clients := c.clients.set j pc'
          drawn := c.drawn ++ draws pc
          events := c.events ++ finishes j pc r } := fun h1 h2 h3 h4 =>
      h.quiet (.go hj hs) rfl ho h1 h2 h3 (fun v p hmem => putValue_mem_set hmem (h4 v p))
    cases hs with
    | @keyOk k' v p =>
      by_cases hk : k' = k
      · subst k'
        have hfine := hn.fine _ (List.mem_of_getElem? hj)
        refine ⟨fun q w hq hw => ?_, fun hk => ?_, hkept.1, hkept.2.1, hkept.2.2⟩
        · rw [State.putKey, getElem?_insert, if_pos rfl] at hq
          cases hq
          cases hfine.2.2.symm.trans hw
        · rw [State.putKey, getElem?_insert, if_pos rfl] at hk
          cases hk
      · refine hquiet ?_ (fun _ _ => rfl) (lastPut_finishes _ ?_) ?_
        · rw [State.putKey, getElem?_insert, if_neg hk]
        · rintro ⟨⟩
        · rintro w q ⟨⟩
          exact hk rfl
    | @valueOk k' v p _ hf =>
      have hfine := hn.fine _ (List.mem_of_getElem? hj)
      by_cases hk : k' = k
      · subst k'
        have hlast : lastPut (c.events ++ [.finish j (.put k v) .ok]) k = some v :=
          (lastPut_append _ _).trans (if_pos rfl)
        refine ⟨fun q w hq hw => ?_, fun hk => ?_, hkept.1, hkept.2.1, hkept.2.2⟩
        · change (c.state.putValue p (encode k v)).valuedb[q]? = _ at hw
          rw [State.putValue, getElem?_insert] at hw
          by_cases hqp : p = q
          · rw [if_pos hqp, Option.some_inj] at hw
            exact hlast.trans (congrArg some (encode_inj hw))
          · obtain h1 | h1 := ho _ hj rfl q hq
            · exact absurd h1.symm hqp
            · rw [if_neg hqp, h1] at hw
              cases hw
        · exact absurd (List.mem_of_getElem? hj) ((h.absent hk).2 v p)
      · refine hquiet rfl (fun q hq => ?_) (lastPut_finishes _ ?_) ?_
        · rw [State.putValue, getElem?_insert, if_neg]
          rintro rfl
          obtain ⟨-, w, hw⟩ := hn.keydb k p hq
          rw [hfine.2.1] at hw
          cases hw
          exact hk rfl
        · rintro - w ⟨⟩
          exact hk rfl
        · rintro w q ⟨⟩
    | @deleteOk k' =>
      refine hquiet ?_ (fun _ _ => rfl) (lastPut_finishes _ ?_) ?_
      · rw [State.deleteKey, getElem?_erase, if_neg]
        rintro rfl
        exact h.kept _ (List.mem_of_getElem? hj) rfl
      · rintro - w ⟨⟩
      · rintro w q ⟨⟩
    | keyFail hf | valueFail hf | deleteFail hf => cases hf
    | readHit | readMiss | retry | push | draw | getHit | getMiss | valueHit | valueMiss =>
      refine hquiet rfl (fun _ _ => rfl) (lastPut_finishes _ ?_) ?_
      · rintro ⟨⟩
      · rintro w q ⟨⟩
  | sort | measure | gather | compact | erase => cases hu

/-- Between the start of a `Get` and its end: whatever the index leads to, and
whatever the `Get` has read from it, is the value of one of the `Put`s allowed. -/
structure Reading (k : Key) (j : Nat) (good : Value → Prop) (c : Config) : Prop where
  writers : Writers k good c.clients
  index : ∃ p v, c.state.keydb[k]? = some p ∧ c.drawn[p.toNat]? = some (k, v) ∧ good v
  reader : ∀ p, c.clients[j]? = some (.getValue k p) →
    ∃ v, c.drawn[p.toNat]? = some (k, v) ∧ good v ∧
      (c.state.valuedb[p]? = some (encode k v) ∨ .putValue k v p ∈ c.clients)

theorem getElem?_of_initial {l l' : List (Key × Value)} {i : Nat} {a : Key × Value} (h : l <+: l')
    (ha : l[i]? = some a) : l'[i]? = some a := by
  obtain ⟨extra, rfl⟩ := h
  exact getElem?_append_of_some ha

theorem move_index (h : Settled k c) (hm : Moved c m c') (hu : Undisturbed k m) :
    c'.state.keydb[k]? = c.state.keydb[k]? ∨
      ∃ v p, .putKey k v p ∈ c.clients ∧ c'.state.keydb[k]? = some p := by
  cases hm with
  | call => exact Or.inl rfl
  | @go j ok pc s' pc' r hj hs =>
    have hmem := List.mem_of_getElem? hj
    cases hu
    cases hs with
    | @keyOk k' v p =>
      change (c.state.putKey k' p).keydb[k]? = _ ∨ ∃ _ _, _ ∧ (c.state.putKey k' p).keydb[k]? = _
      rw [State.putKey, getElem?_insert]
      split
      · subst k'
        exact Or.inr ⟨v, p, hmem, rfl⟩
      · exact Or.inl rfl
    | @deleteOk k' =>
      refine Or.inl ((getElem?_erase _ _ _).trans (if_neg ?_))
      rintro rfl
      exact h.kept _ hmem rfl
    | keyFail hf | valueFail hf | deleteFail hf => cases hf
    | readHit | readMiss | retry | push | draw | valueOk | getHit | getMiss | valueHit
    | valueMiss => exact Or.inl rfl
  | sort | measure | gather | compact | erase => cases hu

theorem move_reader {p : UInt64} (hm : Moved c m c')
    (h : c'.clients[j]? = some (.getValue k p)) :
    c.clients[j]? = some (.getValue k p) ∨ c.state.keydb[k]? = some p := by
  cases hm with
  | @call i call hi =>
    rw [List.getElem?_set] at h
    split at h
    · cases call with
      | put k v | delete k | get k => grind [begin]
    · exact Or.inl h
  | @go i ok pc s' pc' r hi hs =>
    change (c.clients.set i pc')[j]? = _ at h
    rw [List.getElem?_set] at h
    split at h
    · obtain ⟨-, he⟩ := Option.ite_none_right_eq_some.mp h
      cases hs with
      | getHit hk =>
        cases he
        exact Or.inr hk
      | readHit | readMiss | retry | push | draw | keyOk | keyFail | valueOk | valueFail
      | deleteOk | deleteFail | getMiss | valueHit | valueMiss => cases he
    · exact Or.inl h
  | sort | measure | gather | compact | erase => exact Or.inl h

theorem move_reading (h : Reading k j good c) (hset : Settled k c)
    (hn : Numbered c.state c.clients c.drawn pub) (hres : Resolved c.state c.clients c.drawn)
    (hm : Moved c m c') (hu : Undisturbed k m)
    (hc : ∀ i v, m = .call i (.put k v) → good v) : Reading k j good c' where
  writers := move_writers h.writers hm hc
  index := by
    obtain hk | ⟨v, p, hmem, hk⟩ := move_index hset hm hu
    · obtain ⟨p, v, hp, hv, hg⟩ := h.index
      exact ⟨p, v, hk.trans hp, getElem?_of_initial (move_drawn hm) hv, hg⟩
    · exact ⟨p, v, hk, getElem?_of_initial (move_drawn hm) (hn.fine _ hmem).2.1,
        h.writers _ hmem v rfl⟩
  reader p hp := by
    have hv : ∃ v, c.drawn[p.toNat]? = some (k, v) ∧ good v ∧
        (c.state.valuedb[p]? = some (encode k v) ∨ .putValue k v p ∈ c.clients) := by
      obtain hr | hk := move_reader hm hp
      · exact h.reader p hr
      · obtain ⟨v, hv, hw⟩ := hres k p hk
        obtain ⟨q, w, hq, hw', hg⟩ := h.index
        cases hk.symm.trans hq
        cases hv.symm.trans hw'
        exact ⟨v, hv, hg, hw⟩
    obtain ⟨v, hv, hg, hw⟩ := hv
    exact ⟨v, getElem?_of_initial (move_drawn hm) hv, hg, move_written hn hm hu.plain hv hw⟩

structure Sound (k : Key) (c : Config) : Prop where
  numbered : ∃ pub, Numbered c.state c.clients c.drawn pub
  resolved : Resolved c.state c.clients c.drawn
  settled : Settled k c

theorem openClients_sound (n : Nat) : Sound k (openClients n) where
  numbered := ⟨∅, openClients_numbered n⟩
  resolved k p hp := by simp [openClients, openFresh] at hp
  settled := by
    have hidle : ∀ pc ∈ (openClients n).clients, pc = .idle :=
      fun pc hpc => List.eq_of_mem_replicate hpc
    refine ⟨fun p v hp _ => ?_, fun _ => ⟨rfl, fun v p hmem => ?_⟩, fun pc hpc => ?_,
      fun pc hpc v hv => ?_, fun v hv => ?_⟩
    · simp [openClients, openFresh] at hp
    · cases hidle _ hmem
    · rw [hidle pc hpc]
      rintro ⟨⟩
    · rw [hidle pc hpc] at hv
      cases hv
    · cases hv

theorem move_sound (h : Sound k c) (hs : move c m = some c') (hd : c'.drawn.length ≤ 2 ^ 64)
    (hu : Undisturbed k m) (ho : Orderly k c m) : Sound k c' := by
  obtain ⟨pub, hn⟩ := h.numbered
  have hm := moved_of_move hs
  obtain ⟨pub', -, hn'⟩ := move_numbered hn hm hd
  exact ⟨⟨pub', hn'⟩, move_resolved h.resolved hn hm hu.plain, move_settled h.settled hn hm hu ho⟩

theorem run_sound {a : List Move} (hu : ∀ m ∈ a, Undisturbed k m) (h : Sound k c)
    (ho : AlongM move (Orderly k) c a) (hr : a.foldlM move c = some c')
    (hd : c'.drawn.length ≤ 2 ^ 64) : Sound k c' := by
  refine ho.keeps (I := fun c => c.drawn.length ≤ 2 ^ 64 → Sound k c) ?_ (fun _ => h) hr hd
  intro c m hm c' hi hp hs hd
  have hlen := (move_drawn (moved_of_move hs)).length_le
  exact move_sound (hi (hlen.trans hd)) hs hd (hu m hm) hp

theorem reading_call (h : Sound k c) (hput : lastPut c.events k ≠ none)
    (hs : move c (.call j (.get k)) = some c') (hlast : ∀ v, lastPut c.events k = some v → good v)
    (hrun : Writers k good c.clients) : Reading k j good c' := by
  have hm := moved_of_move hs
  cases hm with
  | call hj =>
    refine ⟨move_writers hrun (.call hj) nofun, ?_, fun p hp => ?_⟩
    · cases hk : c.state.keydb[k]? with
      | none => exact absurd (h.settled.absent hk).1 hput
      | some p =>
        obtain ⟨v, hv, hw | hw⟩ := h.resolved k p hk
        · exact ⟨p, v, rfl, hv, hlast v (h.settled.latest p v hk hw)⟩
        · exact ⟨p, v, rfl, hv, hrun _ hw v rfl⟩
    · obtain ⟨hj, -⟩ := List.getElem?_eq_some_iff.mp hj
      rw [List.getElem?_set_self hj] at hp
      cases hp

theorem reading_finish {res : Result} (h : Reading k j good c) (hset : Settled k c)
    (hs : move c (.go j true) = some c') (ho : Orderly k c (.go j true))
    (hr : c'.events = c.events ++ [.finish j (.get k) res]) : ∃ v, res = .value v ∧ good v := by
  have hm := moved_of_move hs
  cases hm with
  | go hj hst =>
    have he := List.append_cancel_left hr
    cases hst with
    | readHit | readMiss | retry | push | draw | keyOk | keyFail | valueOk | valueFail | deleteOk
    | deleteFail | getHit => cases he
    | getMiss hk =>
      cases he
      obtain ⟨p, v, hp, -⟩ := h.index
      cases hk.symm.trans hp
    | valueHit hv =>
      cases he
      obtain ⟨v, hd, hg, hw | hw⟩ := h.reader _ hj
      · cases hv.symm.trans hw
        have hread := hset.drawn v (List.mem_of_getElem? hd)
        exact ⟨v, congrArg Result.value (decode_encode hread.1 hread.2), hg⟩
      · exact absurd rfl (ho _ hj rfl _ hw)
    | valueMiss hv =>
      cases he
      obtain ⟨v, hd, hg, hw | hw⟩ := h.reader _ hj
      · cases hv.symm.trans hw
      · exact absurd rfl (ho _ hj rfl _ hw)

theorem run_reading {b : List Move} {d : Config} (hu : ∀ m ∈ b, Undisturbed k m)
    (hc : ∀ i v, .call i (.put k v) ∈ b → good v) (h : Sound k c) (hr : Reading k j good c)
    (ho : AlongM move (Orderly k) c b) (hrun : b.foldlM move c = some d)
    (hd : d.drawn.length ≤ 2 ^ 64) : Sound k d ∧ Reading k j good d := by
  refine ho.keeps (I := fun c => c.drawn.length ≤ 2 ^ 64 → Sound k c ∧ Reading k j good c) ?_
    (fun _ => ⟨h, hr⟩) hrun hd
  intro c m hmem c' hi hp hs hd
  have hm := moved_of_move hs
  obtain ⟨hsound, hread⟩ := hi ((move_drawn hm).length_le.trans hd)
  obtain ⟨pub, hn⟩ := hsound.numbered
  refine ⟨move_sound hsound hs hd (hu m hmem) hp,
    move_reading hread hsound.settled hn hsound.resolved hm (hu m hmem) ?_⟩
  rintro i v rfl
  exact hc i v hmem

/-- The value of a `Put` that was the latest one completed in some state, or was
under way in it, or began later. -/
def Recent (k : Key) (c : Config) (later : List Move) (v : Value) : Prop :=
  lastPut c.events k = some v ∨ (∃ pc ∈ c.clients, pc.call = some (.put k v)) ∨
    ∃ i, .call i (.put k v) ∈ later

/-- If the steps on a key come in turn, a `Get` of a key with a completed `Put`
finds the value of the latest one completed when it began, or of one that
overlaps it. -/
theorem get_returns_recent {n : Nat} {a b : List Move} {c₁ d d' : Config} {res : Result}
    (hu : ∀ m ∈ a ++ b, Undisturbed k m) (ha : a.foldlM move (openClients n) = some c₁)
    (hb : (.call j (.get k) :: b).foldlM move c₁ = some d) (hgo : move d (.go j true) = some d')
    (hres : d'.events = d.events ++ [.finish j (.get k) res]) (hput : lastPut c₁.events k ≠ none)
    (hd : d.drawn.length ≤ 2 ^ 64)
    (ho : AlongM move (Orderly k) (openClients n)
      (a ++ (.call j (.get k) :: (b ++ [.go j true])))) :
    ∃ v, res = .value v ∧ Recent k c₁ b v := by
  rw [List.forall_mem_append] at hu
  obtain ⟨hoa, hoc, hob⟩ := ho.append ha
  rw [List.foldlM_cons] at hb
  obtain ⟨c₂, hc, hb⟩ := Option.bind_eq_some_iff.mp hb
  obtain ⟨hob, hogo⟩ := (hob c₂ hc).append hb
  have hlen : ∀ (c : Config) (m : Move) (c' : Config), c'.drawn.length ≤ 2 ^ 64 →
      move c m = some c' → c.drawn.length ≤ 2 ^ 64 :=
    fun _ _ _ hd hs => (move_drawn (moved_of_move hs)).length_le.trans hd
  have hd₂ : c₂.drawn.length ≤ 2 ^ 64 := foldlM_backward hlen hb hd
  have h₁ := run_sound hu.1 (openClients_sound n) hoa ha (hlen _ _ _ hd₂ hc)
  have hread : Reading k j (Recent k c₁ b) c₂ := reading_call h₁ hput hc (fun v => Or.inl)
    (fun pc hpc v hv => Or.inr (Or.inl ⟨pc, hpc, hv⟩))
  obtain ⟨hsound, hread⟩ := run_reading hu.2 (fun i v hi => Or.inr (Or.inr ⟨i, hi⟩))
    (move_sound h₁ hc hd₂ trivial hoc) hread hob hb hd
  exact reading_finish hread hsound.settled hgo hogo.1 hres

def wholePut : List Move := .call 0 (.put [7] [1]) :: List.replicate 8 (.go 0 true)

def overwriting : List Move :=
  .call 0 (.put [7] [2]) :: List.replicate 4 (.go 0 true) ++ [.go 1 true]

def seen (a b : List Move) : Option (Option Value × Nat × List Event × List Event) := do
  let c₁ ← a.foldlM move (openClients 2)
  let d ← (.call 1 (.get [7]) :: b).foldlM move c₁
  let d' ← move d (.go 1 true)
  return (lastPut c₁.events [7], d.drawn.length, d.events, d'.events)

theorem seen_eq_some {a b : List Move} {last : Option Value} {len : Nat}
    {before after : List Event} (h : seen a b = some (last, len, before, after)) :
    ∃ c₁ d d', a.foldlM move (openClients 2) = some c₁ ∧
      (.call 1 (.get [7]) :: b).foldlM move c₁ = some d ∧ move d (.go 1 true) = some d' ∧
      lastPut c₁.events [7] = last ∧ d.drawn.length = len ∧ d.events = before ∧
      d'.events = after := by
  obtain ⟨c₁, hc₁, h⟩ := Option.bind_eq_some_iff.mp h
  obtain ⟨d, hd, h⟩ := Option.bind_eq_some_iff.mp h
  obtain ⟨d', hd', h⟩ := Option.bind_eq_some_iff.mp h
  cases h
  exact ⟨c₁, d, d', hc₁, hd, hd', rfl, rfl, rfl, rfl⟩

theorem get_returns_recent_overlapping :
    ∃ c₁ d d', wholePut.foldlM move (openClients 2) = some c₁ ∧
      (.call 1 (.get [7]) :: (overwriting ++ [.go 0 true])).foldlM move c₁ = some d ∧
      move d (.go 1 true) = some d' ∧
      d'.events = d.events ++ [.finish 1 (.get [7]) (.value [2])] ∧
      ∃ v, Result.value [2] = .value v ∧ Recent [7] c₁ (overwriting ++ [.go 0 true]) v := by
  have hseen : seen wholePut (overwriting ++ [.go 0 true]) = some (some [1], 2,
      [.start 0 (.put [7] [1]), .finish 0 (.put [7] [1]) .ok, .start 1 (.get [7]),
        .start 0 (.put [7] [2]), .finish 0 (.put [7] [2]) .ok],
      [.start 0 (.put [7] [1]), .finish 0 (.put [7] [1]) .ok, .start 1 (.get [7]),
        .start 0 (.put [7] [2]), .finish 0 (.put [7] [2]) .ok,
        .finish 1 (.get [7]) (.value [2])]) := by
    decide +kernel
  obtain ⟨c₁, d, d', hc₁, hd, hd', hlast, hlen, hbefore, hafter⟩ := seen_eq_some hseen
  have he : d'.events = d.events ++ [.finish 1 (.get [7]) (.value [2])] := by
    rw [hbefore, hafter]
    rfl
  refine ⟨c₁, d, d', hc₁, hd, hd', he,
    get_returns_recent (by decide) hc₁ hd hd' he ?_ ?_ (by decide +kernel)⟩
  · rw [hlast]
    decide
  · rw [hlen]
    decide

/-- The `Get` looks for the value that the overwriting `Put` has not written yet
and finds nothing. -/
theorem get_misses_live_key :
    ∃ c₁ d d', wholePut.foldlM move (openClients 2) = some c₁ ∧
      lastPut c₁.events [7] = some [1] ∧ (∀ m ∈ wholePut ++ overwriting, Undisturbed [7] m) ∧
      (.call 1 (.get [7]) :: overwriting).foldlM move c₁ = some d ∧
      move d (.go 1 true) = some d' ∧
      d'.events = d.events ++ [.finish 1 (.get [7]) .notFound] := by
  have hseen : seen wholePut overwriting = some (some [1], 2,
      [.start 0 (.put [7] [1]), .finish 0 (.put [7] [1]) .ok, .start 1 (.get [7]),
        .start 0 (.put [7] [2])],
      [.start 0 (.put [7] [1]), .finish 0 (.put [7] [1]) .ok, .start 1 (.get [7]),
        .start 0 (.put [7] [2]), .finish 1 (.get [7]) .notFound]) := by
    decide +kernel
  obtain ⟨c₁, d, d', hc₁, hd, hd', hlast, -, hbefore, hafter⟩ := seen_eq_some hseen
  refine ⟨c₁, d, d', hc₁, hlast, by decide, hd, hd', ?_⟩
  rw [hbefore, hafter]
  rfl

end WiscKey.NewDb.ReadRace
