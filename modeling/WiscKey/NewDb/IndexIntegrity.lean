import WiscKey.NewDb.Numbering

namespace WiscKey.NewDb.IndexIntegrity

open WiscKey.Maps WiscKey.Runs WiscKey.NewDb.Model WiscKey.NewDb.Concurrent WiscKey.NewDb.Moves
  WiscKey.NewDb.Numbering

def Plain : Move → Prop
  | .call _ _ => True
  | .go _ ok => ok = true
  | _ => False

instance : DecidablePred Plain
  | .call _ _ => inferInstanceAs (Decidable True)
  | .go _ ok => inferInstanceAs (Decidable (ok = true))
  | .gcSort | .gcMeasure _ | .gcVisit _ | .gcErase => inferInstanceAs (Decidable False)

/-- Every entry of `keydb_` leads to the record of the `Put` that drew its
number, or that `Put` is about to write it. -/
def Resolved (s : State) (clients : List Pc) (drawn : List (Key × Value)) : Prop :=
  ∀ (k : Key) (p : UInt64), s.keydb[k]? = some p → ∃ v, drawn[p.toNat]? = some (k, v) ∧
    (s.valuedb[p]? = some (encode k v) ∨ .putValue k v p ∈ clients)

variable {s s' : State} {pc pc' : Pc} {r : Option Result} {pre post : List Pc}
  {drawn : List (Key × Value)} {pub : Set UInt64} {c c' : Config} {m : Move}

theorem stepped_written {k : Key} {v : Value} {p : UInt64}
    (hn : Numbered s (pre ++ pc :: post) drawn pub) (hs : Stepped s true pc s' pc' r)
    (hd : drawn[p.toNat]? = some (k, v))
    (h : s.valuedb[p]? = some (encode k v) ∨ .putValue k v p ∈ pre ++ pc :: post) :
    s'.valuedb[p]? = some (encode k v) ∨ .putValue k v p ∈ pre ++ pc' :: post := by
  have hmem : pc ≠ .putValue k v p → .putValue k v p ∈ pre ++ pc :: post →
      .putValue k v p ∈ pre ++ pc' :: post := by
    intro hne hm
    simp only [List.mem_append, List.mem_cons] at hm ⊢
    obtain hm | hm | hm := hm
    · exact Or.inl hm
    · exact absurd hm.symm hne
    · exact Or.inr (Or.inr hm)
  cases hs with
  | @valueOk k' v' q =>
    rw [State.putValue, getElem?_insert]
    by_cases hp : q = p
    · subst q
      have hq := hn.fine_self.2.1
      rw [hd] at hq
      cases hq
      exact Or.inl (if_pos rfl)
    · rw [if_neg hp]
      refine h.imp_right (hmem ?_)
      rintro ⟨⟩
      exact hp rfl
  | valueFail hf => cases hf
  | readHit | readMiss | retry | push | draw | keyOk | keyFail | deleteOk | deleteFail | getHit
  | getMiss | valueHit | valueMiss => exact h.imp_right (hmem (fun he => by cases he))

theorem stepped_resolved (h : Resolved s (pre ++ pc :: post) drawn)
    (hn : Numbered s (pre ++ pc :: post) drawn pub) (hs : Stepped s true pc s' pc' r) :
    Resolved s' (pre ++ pc' :: post) (drawn ++ draws pc) := by
  have hold : ∀ (k : Key) (p : UInt64), s.keydb[k]? = some p →
      ∃ v, (drawn ++ draws pc)[p.toNat]? = some (k, v) ∧
        (s'.valuedb[p]? = some (encode k v) ∨ .putValue k v p ∈ pre ++ pc' :: post) := by
    intro k p hp
    obtain ⟨v, hv, hw⟩ := h k p hp
    exact ⟨v, getElem?_append_of_some hv, stepped_written hn hs hv hw⟩
  intro k p hp
  cases hs with
  | keyOk =>
    rw [State.putKey, getElem?_insert] at hp
    split at hp
    · rename_i hk
      cases hp
      obtain ⟨-, hv, -⟩ := hn.fine_self
      exact ⟨_, getElem?_append_of_some (hk ▸ hv), Or.inr (by simp [hk])⟩
    · exact hold k p hp
  | deleteOk =>
    rw [State.deleteKey, getElem?_erase] at hp
    split at hp
    · cases hp
    · exact hold k p hp
  | keyFail hf | valueFail hf | deleteFail hf => cases hf
  | readHit | readMiss | retry | push | draw | valueOk | getHit | getMiss | valueHit | valueMiss =>
    exact hold k p hp

theorem move_written {k : Key} {v : Value} {p : UInt64}
    (hn : Numbered c.state c.clients c.drawn pub) (hm : Moved c m c') (hp : Plain m)
    (hd : c.drawn[p.toNat]? = some (k, v))
    (h : c.state.valuedb[p]? = some (encode k v) ∨ .putValue k v p ∈ c.clients) :
    c'.state.valuedb[p]? = some (encode k v) ∨ .putValue k v p ∈ c'.clients := by
  cases hm with
  | @call j call hj =>
    obtain ⟨pre, post, he, hset⟩ := split_at hj
    refine h.imp_right (fun hmem => ?_)
    rw [he] at hmem
    rw [hset]
    simp only [List.mem_append, List.mem_cons, reduceCtorEq, false_or] at hmem ⊢
    exact hmem.imp_right Or.inr
  | go hj hs =>
    obtain ⟨pre, post, he, hset⟩ := split_at hj
    rw [he] at h hn
    rw [hset]
    cases hp
    exact stepped_written hn hs hd h
  | sort | measure | gather | compact | erase => cases hp

theorem move_resolved (h : Resolved c.state c.clients c.drawn)
    (hn : Numbered c.state c.clients c.drawn pub) (hm : Moved c m c') (hp : Plain m) :
    Resolved c'.state c'.clients c'.drawn := by
  cases hm with
  | call hj =>
    intro k p hp
    obtain ⟨v, hv, hw⟩ := h k p hp
    exact ⟨v, hv, move_written hn (.call hj) trivial hv hw⟩
  | go hj hs =>
    obtain ⟨pre, post, he, hset⟩ := split_at hj
    rw [he] at h hn
    rw [hset]
    cases hp
    exact stepped_resolved h hn hs
  | sort | measure | gather | compact | erase => cases hp

theorem run_resolved {n : Nat} {moves : List Move} (hm : ∀ m ∈ moves, Plain m)
    (hr : moves.foldlM move (openClients n) = some c) (hd : c.drawn.length ≤ 2 ^ 64) :
    (∃ pub, Numbered c.state c.clients c.drawn pub) ∧ Resolved c.state c.clients c.drawn := by
  refine foldlM_invariant (I := fun c => c.drawn.length ≤ 2 ^ 64 →
    (∃ pub, Numbered c.state c.clients c.drawn pub) ∧ Resolved c.state c.clients c.drawn)
    ?_ (fun _ => ⟨⟨∅, openClients_numbered n⟩, ?_⟩) hr hd
  · intro c m hmem c' h hs hd
    have hmv := moved_of_move hs
    obtain ⟨⟨pub, hn⟩, hres⟩ := h ((move_drawn hmv).length_le.trans hd)
    obtain ⟨pub', -, hn'⟩ := move_numbered hn hmv hd
    exact ⟨⟨pub', hn'⟩, move_resolved hres hn hmv (hm m hmem)⟩
  · intro k p hp
    simp [openClients, openFresh] at hp

theorem entry_kept (hn : Numbered c.state c.clients c.drawn pub) (hm : Moved c m c') (hp : Plain m)
    {p : UInt64} {pval : List UInt8} (hv : c.state.valuedb[p]? = some pval) :
    c'.state.valuedb[p]? = some pval := by
  cases hm with
  | call => exact hv
  | go hj hs =>
    cases hs with
    | @valueOk k v q =>
      have hq := (hn.fine _ (List.mem_of_getElem? hj)).2.2
      change (c.state.putValue q (encode k v)).valuedb[p]? = some pval
      rw [State.putValue, getElem?_insert, if_neg, hv]
      rintro rfl
      rw [hv] at hq
      cases hq
    | readHit | readMiss | retry | push | draw | keyOk | keyFail | valueFail | deleteOk | deleteFail
    | getHit | getMiss | valueHit | valueMiss => exact hv
  | sort | measure | gather | compact | erase => cases hp

/-- However the steps of the clients are interleaved, every entry of `keydb_`
leads to the record of the `Put` that drew its number, or that `Put` is about to
write it, and nothing written is ever overwritten. -/
theorem index_resolves {n : Nat} {moves : List Move} (hm : ∀ m ∈ moves, Plain m)
    (hr : moves.foldlM move (openClients n) = some c) (hd : c.drawn.length < 2 ^ 64) :
    (∀ (k : Key) (p : UInt64), c.state.keydb[k]? = some p →
      ∃ v, c.drawn[p.toNat]? = some (k, v) ∧
        (c.state.valuedb[p]? = some (encode k v) ∨ .putValue k v p ∈ c.clients)) ∧
    (∀ k v p, .putValue k v p ∈ c.clients → c.state.valuedb[p]? = none) ∧
    (∀ m c', Plain m → move c m = some c' → ∀ (p : UInt64) (pval : List UInt8),
      c.state.valuedb[p]? = some pval → c'.state.valuedb[p]? = some pval) ∧
    ((∀ pc ∈ c.clients, pc = .idle) → ∀ k, k ∈ c.state.keydb →
      ∃ v, (k, v) ∈ c.drawn ∧ lookup c.state k = some (encode k v)) := by
  obtain ⟨⟨pub, hn⟩, hres⟩ := run_resolved hm hr hd.le
  refine ⟨hres, fun k v p hp => (hn.fine _ hp).2.2,
    fun m c' hp hs p pval hv => entry_kept hn (moved_of_move hs) hp hv, fun hidle k hk => ?_⟩
  obtain ⟨p, hp⟩ := Option.isSome_iff_exists.mp (Std.ExtTreeMap.mem_iff_isSome_getElem?.mp hk)
  obtain ⟨v, hv, hw | hw⟩ := hres k p hp
  · exact ⟨v, List.mem_of_getElem? hv, lookup_eq_some.mpr ⟨p, hp, hw⟩⟩
  · cases hidle _ hw

/-- Two writers of one key. The one with the smaller number writes the index
last and has not written its value yet. -/
def race : List Move :=
  [.call 0 (.put [7] [1]), .call 1 (.put [7] [2])] ++ List.replicate 6 (.go 0 true) ++
    List.replicate 7 (.go 1 true) ++ [.go 0 true, .go 1 true]

theorem index_resolves_race :
    ∃ c, race.foldlM move (openClients 2) = some c ∧ c.state.keydb[([7] : Key)]? = some 0 ∧
      ∃ v, c.drawn[0]? = some ([7], v) ∧
        (c.state.valuedb[(0 : UInt64)]? = some (encode [7] v) ∨ .putValue [7] v 0 ∈ c.clients) := by
  have hrun : (race.foldlM move (openClients 2)).map
      (fun c => (c.state.keydb[([7] : Key)]?, c.drawn)) =
        some (some 0, [([7], [1]), ([7], [2])]) := by
    decide +kernel
  obtain ⟨c, hc, he⟩ := Option.map_eq_some_iff.mp hrun
  simp only [Prod.mk.injEq] at he
  refine ⟨c, hc, he.1, (index_resolves (by decide) hc ?_).1 [7] 0 he.1⟩
  rw [he.2]
  decide

end WiscKey.NewDb.IndexIntegrity
