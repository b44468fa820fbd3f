import WiscKey.NewDb.Numbering

namespace WiscKey.NewDb.GarbageRace

open WiscKey.Maps WiscKey.Runs WiscKey.Vectors WiscKey.NewDb.Model WiscKey.NewDb.Collect
  WiscKey.NewDb.CollectSpec WiscKey.NewDb.Concurrent WiscKey.NewDb.Moves WiscKey.NewDb.Numbering

/-- No physical key to be collected is one that `keydb_` maps a key to. -/
def Unreferenced (s : State) : Prop :=
  ∀ p ∈ s.phyKeysForGc, ∀ k : Key, s.keydb[k]? ≠ some p

/-- A `Put` about to push a physical key on the garbage list finds that the
index has left it already. -/
def Superseded (s : State) : Pc → Prop
  | .putPush k _ p => s.keydb[k]? ≠ some p
  | _ => True

instance (s : State) : DecidablePred (Superseded s)
  | .putPush k _ p => inferInstanceAs (Decidable (s.keydb[k]? ≠ some p))
  | .idle | .putRead _ _ _ | .putDraw _ _ | .putKey _ _ _ | .putValue _ _ _ | .deleteKey _
  | .getKey _ | .getValue _ _ => inferInstanceAs (Decidable True)

def PushSuperseded (c : Config) : Move → Prop
  | .go j _ => ∀ pc ∈ c.clients[j]?, Superseded c.state pc
  | _ => True

instance (c : Config) : DecidablePred (PushSuperseded c)
  | .go j _ => inferInstanceAs (Decidable (∀ pc ∈ c.clients[j]?, Superseded c.state pc))
  | .call _ _ | .gcSort | .gcMeasure _ | .gcVisit _ | .gcErase => inferInstanceAs (Decidable True)

def Gathered (c : Config) : Prop := ∀ w ∈ c.gc, w.loop.gcKeysSet ⊆ c.state.phyKeysForGc

variable {s s' : State} {ok : Bool} {pc pc' : Pc} {r : Option Result} {pre post : List Pc}
  {drawn : List (Key × Value)} {pub : Set UInt64} {c c' : Config} {m : Move}

theorem makeRoom_gc {w : Worker} (h : w ∈ (makeRoom c pc).gc) :
    ∃ w' ∈ c.gc, w.loop = w'.loop := by
  cases pc with
  | putPush k v p =>
    simp only [makeRoom] at h
    split at h
    · obtain ⟨w', hw, rfl⟩ := Option.map_eq_some_iff.mp h
      exact ⟨w', hw, rfl⟩
    · exact ⟨w, h, rfl⟩
  | idle | putRead k v n | putDraw k v | putKey k v p | putValue k v p | deleteKey k | getKey k
  | getValue k p => exact ⟨w, h, rfl⟩

theorem stepped_garbage (hs : Stepped s ok pc s' pc' r) : s.phyKeysForGc ⊆ s'.phyKeysForGc := by
  cases hs with
  | push => exact List.subset_append_left _ _
  | readHit | readMiss | retry | draw | keyOk | keyFail | valueOk | valueFail | deleteOk
  | deleteFail | getHit | getMiss | valueHit | valueMiss => exact List.Subset.refl _

theorem move_gathered (h : Gathered c) (hm : Moved c m c') : Gathered c' := by
  intro w hw
  cases hm with
  | call => exact h w hw
  | go hj hs =>
    obtain ⟨w', hw', he⟩ := makeRoom_gc hw
    rw [he]
    exact List.Subset.trans (h w' hw') (stepped_garbage hs)
  | sort =>
    cases hw
    exact List.nil_subset _
  | @measure w' keys levels files hg =>
    cases hw
    exact h w' hg
  | @gather w' f files keys cf hg hf hk =>
    cases hw
    refine List.append_subset.mpr ⟨h w' hg, ?_⟩
    intro p hp
    have hm := List.mem_of_mem_take (List.mem_of_mem_drop hp)
    obtain ⟨-, he⟩ := Option.ite_none_left_eq_some.mp hk
    cases he
    exact List.mem_of_mem_take hm
  | compact =>
    cases hw
    exact List.nil_subset _
  | erase => cases hw

theorem stepped_unreferenced_iff (h : Unreferenced s)
    (hn : Numbered s (pre ++ pc :: post) drawn pub) (hs : Stepped s ok pc s' pc' r) :
    Unreferenced s' ↔ Superseded s pc := by
  cases hs with
  | @push k v p =>
    obtain ⟨-, w, hw⟩ := hn.fine_self
    constructor
    · intro hu
      exact hu p (List.mem_append_right _ (List.mem_singleton_self p)) k
    · intro hne q hq k' hk
      obtain hq | hq := List.mem_append.mp hq
      · exact h q hq k' hk
      · obtain rfl := List.mem_singleton.mp hq
        obtain ⟨-, w', hw'⟩ := hn.keydb k' q hk
        rw [hw] at hw'
        cases hw'
        exact hne hk
  | @keyOk k v p =>
    refine iff_of_true ?_ trivial
    intro q hq k' hk
    rw [State.putKey, getElem?_insert] at hk
    split at hk
    · cases hk
      exact hn.fine_self.1 (hn.garbage p hq)
    · exact h q hq k' hk
  | deleteOk =>
    refine iff_of_true ?_ trivial
    intro q hq k' hk
    rw [State.deleteKey, getElem?_erase] at hk
    split at hk
    · cases hk
    · exact h q hq k' hk
  | readHit | readMiss | retry | draw | keyFail | valueOk | valueFail | deleteFail | getHit
  | getMiss | valueHit | valueMiss => exact iff_of_true h trivial

theorem move_unreferenced_iff (h : Unreferenced c.state)
    (hn : Numbered c.state c.clients c.drawn pub) (hm : Moved c m c') :
    Unreferenced c'.state ↔ PushSuperseded c m := by
  cases hm with
  | @go j ok pc s' pc' r hj hs =>
    obtain ⟨pre, post, he, -⟩ := split_at hj
    rw [he] at hn
    have hp : PushSuperseded c (.go j ok) ↔ Superseded c.state pc := by
      simp [PushSuperseded, hj]
    rw [hp]
    exact stepped_unreferenced_iff h hn hs
  | call | measure | gather | compact => exact iff_of_true h trivial
  | sort =>
    exact iff_of_true (fun p hp => h p ((sortedKeys_perm _).subset hp)) trivial
  | erase hw hf hr =>
    exact iff_of_true (fun p hp => h p ((eraseRanges_eq_some hr).1 hp)) trivial

theorem visit_kept (h : Unreferenced c.state) (hg : Gathered c) {cf : CompactFiles}
    (hm : Moved c (.gcVisit cf) c') {k : Key} {p : UInt64} (hp : c.state.keydb[k]? = some p) :
    c'.state.valuedb[p]? = c.state.valuedb[p]? := by
  cases hm with
  | gather => rfl
  | @compact w f files cf hw hf =>
    exact compact_getElem? (fun hmem => h p (hg w hw hmem) k hp)

/-- In every state of a run no garbage key is referenced, and no collection
removes a referenced value, just when every `Put` pushes a physical key that
the index has left. -/
theorem garbage_unreferenced {n : Nat} {moves : List Move}
    (hr : moves.foldlM move (openClients n) = some c) (hd : c.drawn.length ≤ 2 ^ 64) :
    AlongM move PushSuperseded (openClients n) moves ↔
      ∀ pre d, pre <+: moves → pre.foldlM move (openClients n) = some d →
        Unreferenced d.state ∧
        ∀ cf d', move d (.gcVisit cf) = some d' → ∀ (k : Key) (p : UInt64),
          d.state.keydb[k]? = some p → d'.state.valuedb[p]? = d.state.valuedb[p]? := by
  have hback : ∀ (s : Config) a s', s'.drawn.length ≤ 2 ^ 64 → move s a = some s' →
      s.drawn.length ≤ 2 ^ 64 :=
    fun s a s' hle hs => (move_drawn (moved_of_move hs)).length_le.trans hle
  have hiff : AlongM move PushSuperseded (openClients n) moves ↔
      ∀ pre d, pre <+: moves → pre.foldlM move (openClients n) = some d →
        Unreferenced d.state := by
    refine alongM_iff_invariant (J := fun c => ∃ pub, Numbered c.state c.clients c.drawn pub)
      (K := fun c => c.drawn.length ≤ 2 ^ 64) (I := fun c => Unreferenced c.state) hback ?_ ?_
      ⟨∅, openClients_numbered n⟩ (fun p hp => by cases hp) hr hd
    · rintro s a s' ⟨pub, hn⟩ hle hs
      obtain ⟨pub', -, hn'⟩ := move_numbered hn (moved_of_move hs) hle
      exact ⟨pub', hn'⟩
    · rintro s a s' ⟨pub, hn⟩ - hu hs
      exact move_unreferenced_iff hu hn (moved_of_move hs)
  rw [hiff]
  refine forall₄_congr (fun pre d hpre hd => ⟨fun hu => ⟨hu, fun cf d' hs k p hp => ?_⟩, And.left⟩)
  have hg : Gathered d := foldlM_invariant
    (fun s a _ s' h hs => move_gathered h (moved_of_move hs)) (fun w hw => by cases hw) hd
  exact visit_kept hu hg (moved_of_move hs) hp

/-- Three writers of one key. The last one pushes the number of the first after
the second has written the index. -/
def superseding (k : Key) : List Move :=
  [.call 0 (.put k [1]), .call 1 (.put k [2])] ++ List.replicate 5 (.go 1 true) ++
    List.replicate 8 (.go 0 true) ++ [.call 2 (.put k [3]), .go 2 true] ++
    List.replicate 3 (.go 1 true) ++ List.replicate 4 (.go 2 true)

def collecting : List Move :=
  [.gcSort, .gcMeasure [⟨1, [⟨"1.sst", 0, 1, false, by decide⟩, ⟨"2.sst", 2, 3, false, by decide⟩,
    ⟨"3.sst", 10, 20, false, by decide⟩]⟩]] ++
    List.replicate 3 (.gcVisit fun _ _ => some fun _ => true) ++ [.gcErase]

/-- Two keys are written so, and the garbage is collected. The visit of the third file
removes the two values that were pushed and none that is referenced. -/
theorem garbage_unreferenced_superseding :
    ∃ c d e, (superseding [7] ++ superseding [8] ++ collecting.take 4).foldlM move
        (openClients 3) = some c ∧
      c.state.phyKeysForGc = [0, 3] ∧ Unreferenced c.state ∧
      move c (.gcVisit fun _ _ => some fun _ => true) = some d ∧
      d.state.valuedb[(0 : UInt64)]? = none ∧ d.state.valuedb[(3 : UInt64)]? = none ∧
      (∀ (k : Key) (p : UInt64), c.state.keydb[k]? = some p →
        d.state.valuedb[p]? = c.state.valuedb[p]?) ∧
      (superseding [7] ++ superseding [8] ++ collecting).foldlM move (openClients 3) = some e ∧
      e.state.phyKeysForGc = [] ∧ e.state.keydb[([7] : Key)]? = some 2 ∧
      e.state.valuedb[(2 : UInt64)]? = some (encode [7] [3]) := by
  have h1 : ∃ c ∈ (superseding [7] ++ superseding [8] ++ collecting.take 4).foldlM move
      (openClients 3), c.state.phyKeysForGc = [0, 3] ∧
      ∃ d ∈ move c (.gcVisit fun _ _ => some fun _ => true),
        d.state.valuedb[(0 : UInt64)]? = none ∧ d.state.valuedb[(3 : UInt64)]? = none := by
    decide +kernel
  have h2 : ∃ e ∈ (superseding [7] ++ superseding [8] ++ collecting).foldlM move (openClients 3),
      e.drawn.length = 6 ∧ e.state.phyKeysForGc = [] ∧ e.state.keydb[([7] : Key)]? = some 2 ∧
      e.state.valuedb[(2 : UInt64)]? = some (encode [7] [3]) := by
    decide +kernel
  obtain ⟨c, hc, hgc, d, hd, hzero, hthree⟩ := h1
  obtain ⟨e, he, hlen, hend⟩ := h2
  have hle : e.drawn.length ≤ 2 ^ 64 := by
    rw [hlen]
    decide
  have hpre : superseding [7] ++ superseding [8] ++ collecting.take 4 <+:
      superseding [7] ++ superseding [8] ++ collecting :=
    (List.prefix_append_right_inj _).mpr (List.take_prefix 4 collecting)
  obtain ⟨hu, hkept⟩ := (garbage_unreferenced he hle).mp (by decide +kernel) _ c hpre hc
  exact ⟨c, d, e, hc, hgc, hu, hd, hzero, hthree, hkept _ d hd, he, hend⟩

def putNew (j : Nat) (k : Key) (v : Value) : List Move :=
  .call j (.put k v) :: List.replicate 8 (.go j true)

def failing : List Move :=
  putNew 0 [1] [10] ++ putNew 0 [2] [20] ++ putNew 0 [3] [30] ++ putNew 0 [4] [40] ++
    [.call 0 (.put [1] [11]), .go 0 true, .go 0 true, .go 0 true, .go 0 false,
      .call 0 (.put [3] [31]), .go 0 true, .go 0 true, .go 0 true, .go 0 false]

/-- After a failed write of the index the key is garbage and referenced, and a
collection removes its value. -/
theorem collection_removes_referenced :
    ∃ c d, failing.foldlM move (openClients 1) = some c ∧ ¬Unreferenced c.state ∧
      (failing ++ collecting).foldlM move (openClients 1) = some d ∧
      d.state.keydb[([1] : Key)]? = some 0 ∧
      c.state.valuedb[(0 : UInt64)]? = some (encode [1] [10]) ∧
      d.state.valuedb[(0 : UInt64)]? = none := by
  have h1 : (failing.foldlM move (openClients 1)).map (fun c => (c.state.phyKeysForGc,
      c.state.keydb[([1] : Key)]?, c.state.valuedb[(0 : UInt64)]?)) =
        some ([0, 2], some 0, some (encode [1] [10])) := by
    decide +kernel
  have h2 : ((failing ++ collecting).foldlM move (openClients 1)).map (fun c =>
      (c.state.keydb[([1] : Key)]?, c.state.valuedb[(0 : UInt64)]?)) = some (some 0, none) := by
    decide +kernel
  obtain ⟨c, hc, he⟩ := Option.map_eq_some_iff.mp h1
  obtain ⟨d, hd, hf⟩ := Option.map_eq_some_iff.mp h2
  simp only [Prod.mk.injEq] at he hf
  refine ⟨c, d, hc, fun hu => ?_, hd, hf.1, he.2.2, hf.2⟩
  exact hu 0 (by rw [he.1]; decide) [1] he.2.1

end WiscKey.NewDb.GarbageRace
