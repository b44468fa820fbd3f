import WiscKey.Runs
import WiscKey.ConcurrentSafe

namespace WiscKey.ConcurrentGet

open WiscKey.Runs WiscKey.ValueLog WiscKey.LogLayout WiscKey.LogRecords WiscKey.ShardedCache
  WiscKey.CachePins WiscKey.Database WiscKey.Sequential WiscKey.Concurrent WiscKey.ConcurrentShared
  WiscKey.ConcurrentSafe

def refsAt (clients : List Pc) (l : Loc) : List Ref := clients.flatMap fun pc => refsOf pc l

def Answered (ev : List Event) : Prop :=
  ∀ pre k v post, ev = pre ++ .answer k (.ok v) :: post → Started pre k v

structure Safe (o : Options) (c : Config) : Prop where
  shared : Shared o c.events (refsAt c.clients) c.state
  fine : ∀ pc ∈ c.clients, Fine c.events c.state pc
  answered : Answered c.events

variable {o : Options} {c c' : Config}

theorem refsAt_perm (pre post : List Pc) (pc : Pc) (l : Loc) :
    (refsAt (pre ++ pc :: post) l).Perm (withRefs pc (refsAt (pre ++ post)) l) := by
  simp only [refsAt, withRefs, List.flatMap_append, List.flatMap_cons]
  exact List.perm_append_comm_assoc _ _ _

theorem answered_append {ev es : List Event} (h : Answered ev)
    (ha : ∀ k v, .answer k (.ok v) ∈ es → Started ev k v) : Answered (ev ++ es) := by
  intro pre k v post he
  obtain ⟨as, rfl, hes⟩ | ⟨bs, hev, hbs⟩ := List.append_eq_append_iff.mp he
  · have hm : Event.answer k (.ok v) ∈ es := by simp [hes]
    exact List.mem_append_left _ (ha k v hm)
  · cases bs with
    | nil =>
      have hm : Event.answer k (.ok v) ∈ es := by
        rw [List.nil_append] at hbs
        rw [← hbs]
        exact List.mem_cons_self
      rw [List.append_nil] at hev
      exact hev ▸ ha k v hm
    | cons b bs =>
      rw [List.cons_append] at hbs
      cases hbs
      exact h pre k v bs hev

theorem set_safe {pre post : List Pc} {pc pc' : Pc} {s : State} {ev es : List Event}
    (h : Safe o ⟨s, pre ++ pc :: post, ev⟩) {s' : State}
    (hs : Shared o (ev ++ es) (withRefs pc' (refsAt (pre ++ post))) s') (hl : Later ev s s')
    (hf : Fine (ev ++ es) s' pc') (ha : Answered (ev ++ es)) :
    Safe o ⟨s', pre ++ pc' :: post, ev ++ es⟩ := by
  have hs' : Shared o (ev ++ es) (refsAt (pre ++ pc' :: post)) s' :=
    hs.perm (fun l => (refsAt_perm pre post pc' l).symm)
  refine ⟨hs', ?_, ha⟩
  intro a hm
  by_cases hap : a = pc'
  · rw [hap]
    exact hf
  · have hold : a ∈ pre ++ pc :: post := by
      simp only [List.mem_append, List.mem_cons, hap, false_or] at hm ⊢
      exact hm.imp_right Or.inr
    refine (h.fine a hold).later h.shared hs' hl (List.subset_append_left _ _) ?_
    intro l r hr
    exact List.mem_flatMap.mpr ⟨a, hm, hr⟩

theorem Safe.shared_split {pre post : List Pc} {pc : Pc} {s : State} {ev : List Event}
    (h : Safe o ⟨s, pre ++ pc :: post, ev⟩) :
    Shared o ev (withRefs pc (refsAt (pre ++ post))) s :=
  h.shared.perm (refsAt_perm pre post pc)

theorem go_safe (hb : PageBuffer o.logBufSize) {pre post : List Pc} {pc : Pc} {s : State}
    {ev : List Event} (h : Safe o ⟨s, pre ++ pc :: post, ev⟩) {r : State × Pc × List Event}
    (hn : next o s pc = some r) : Safe o ⟨r.1, pre ++ r.2.1 :: post, ev ++ r.2.2⟩ := by
  have ha := next_advance hb h.shared_split (h.fine pc (by simp)) hn
  have hsub : ev ⊆ ev ++ r.2.2 := List.subset_append_left _ _
  refine set_safe h (ha.shared.mono hsub) ha.later ?_ ?_
  · refine ha.fine.later ha.shared (ha.shared.mono hsub) (Later.refl ev r.1) hsub ?_
    exact fun l => List.subset_append_left _ _
  · refine answered_append h.answered ?_
    intro k v hm
    obtain ⟨k', a, he, hv⟩ := ha.answered _ hm
    cases he
    exact hv v rfl

theorem begin_held (op : Op) : held (begin op).1 = none := by
  cases op with
  | put k v => rfl
  | delete k => rfl
  | get k => rfl
  | flush => rfl

theorem begin_fine {op : Op} (hop : op.Small) (ev : List Event) (s : State) :
    Fine (ev ++ (begin op).2) s (begin op).1 := by
  cases op with
  | put k v => exact ⟨List.mem_append_right _ List.mem_cons_self, hop⟩
  | delete k => trivial
  | get k => trivial
  | flush => trivial

theorem begin_no_answer {op : Op} {k : Key} {a : Answer} : .answer k a ∉ (begin op).2 := by
  cases op with
  | put k v => simp [begin]
  | delete k => simp [begin]
  | get k => simp [begin]
  | flush => simp [begin]

theorem call_safe {pre post : List Pc} {s : State} {ev : List Event}
    (h : Safe o ⟨s, pre ++ .idle :: post, ev⟩) {op : Op} (hop : op.Small) :
    Safe o ⟨s, pre ++ (begin op).1 :: post, ev ++ (begin op).2⟩ := by
  have hs := h.shared_split.mono (List.subset_append_left ev (begin op).2)
  rw [withRefs_none rfl] at hs
  refine set_safe h ?_ (Later.refl ev s) (begin_fine hop ev s)
    (answered_append h.answered fun k v hm => absurd hm begin_no_answer)
  rw [withRefs_none (begin_held op)]
  exact hs

theorem move_safe (hb : PageBuffer o.logBufSize) (h : Safe o c) {mv : Move} (hm : mv.Small)
    (hn : move o c mv = some c') : Safe o c' := by
  obtain ⟨s, clients, ev⟩ := c
  cases mv with
  | call j op =>
    simp only [move] at hn
    split at hn
    · rename_i hj
      cases hn
      obtain ⟨pre, post, rfl, hset⟩ := split_at hj
      simp only [hset]
      exact call_safe h hm
    · cases hn
  | go j =>
    obtain ⟨pc, hj, hn⟩ := Option.bind_eq_some_iff.mp hn
    obtain ⟨r, hr, rfl⟩ := Option.map_eq_some_iff.mp hn
    obtain ⟨pre, post, rfl, hset⟩ := split_at hj
    simp only [hset]
    exact go_safe hb h hr

theorem cacheAt_openFresh {mem : Fin 4 → Nat → UInt8} {l : Loc} {d : Cache}
    (hd : d ∈ cacheAt (openFresh o mem) l) :
    ∃ policy capacity bits, d = newCache policy capacity bits := by
  cases l with
  | data =>
    simp only [cacheAt, openFresh, newDataCache, Option.mem_def, Option.ite_none_right_eq_some,
      Option.some.injEq] at hd
    exact ⟨_, _, _, hd.2.symm⟩
  | buffer p =>
    cases hd
    exact ⟨_, _, _, rfl⟩

theorem opened_shared {s : State} {ev : List Event}
    (hl : ∀ i, Layout (bufSize o.logBufSize) (s.logs i))
    (hc : ∀ l, ∀ d ∈ cacheAt s l, ∃ policy capacity bits, d = newCache policy capacity bits)
    (hi : ∀ k r, s.index[k]? = some r → ∃ v, Started ev k v ∧ Stored (s.log k) r v) :
    Shared o ev (fun _ => []) s where
  layout := hl
  pinned l d hd := by
    obtain ⟨policy, capacity, bits, rfl⟩ := hc l d hd
    exact new_pinned policy capacity bits
  entries l d hd := by
    obtain ⟨policy, capacity, bits, rfl⟩ := hc l d hd
    exact new_entries policy capacity bits
  index := hi

theorem openClients_safe (o : Options) (mem : Fin 4 → Nat → UInt8) (n : Nat) :
    Safe o (openClients o mem n) where
  shared := by
    have hr : refsAt (List.replicate n .idle) = fun _ => [] := by
      funext l
      rw [refsAt, List.flatMap_eq_nil_iff]
      intro pc hpc
      rw [List.eq_of_mem_replicate hpc]
      rfl
    rw [openClients, hr]
    apply opened_shared
    · exact fun i => openLog_layout _ _ (mem i) (Nat.dvd_zero _)
    · exact fun l c hc => cacheAt_openFresh hc
    · intro k r hi
      rw [openFresh, Std.ExtTreeMap.getElem?_empty] at hi
      cases hi
  fine pc hpc := by
    rw [List.eq_of_mem_replicate hpc]
    trivial
  answered := by
    intro pre k v post he
    cases pre with
    | nil => cases he
    | cons a pre => cases he

theorem next_exists {refs : Loc → List Ref} {ev : List Event} {s : State} {pc : Pc}
    (h : Shared o ev refs s) (hf : Fine ev s pc) (hi : pc ≠ .idle) :
    (next o s pc).isSome := by
  cases pc with
  | idle => exact absurd rfl hi
  | putRelease l k v r | deleteErase l k =>
    cases l with
    | data => rfl
    | buffer p => rfl
  | getCache k | getIndex k | getBuffer k r =>
    simp only [next]
    split
    · rfl
    · rfl
  | getValue l k r =>
    obtain ⟨d, hd, hn⟩ := hf
    obtain ⟨v, hv, -⟩ := hn.exists_value (h.pinned l d hd) (h.entries l d hd)
    simp [next, valueAt, Option.mem_def.mp hd, hv]
  | getLog k r n =>
    simp only [next]
    split
    · rfl
    · split
      · rfl
      · rfl
  | flush ps =>
    cases ps with
    | nil => rfl
    | cons p ps => rfl
  | putInsert l k v | putLog k v | putIndex k v lba | deleteIndex k | getRelease l k r v
  | getInsert k v | getInsertRelease k v r => rfl

/-- However the steps of the clients are interleaved, a `Get` answers only
values of its key whose `Put` was started before, and no client gets stuck. -/
theorem get_answers_started (hb : PageBuffer o.logBufSize) (mem : Fin 4 → Nat → UInt8) (n : Nat)
    (moves : List Move) (hm : ∀ mv ∈ moves, mv.Small)
    (hr : moves.foldlM (move o) (openClients o mem n) = some c) :
    (∀ pre k v post, c.events = pre ++ .answer k (.ok v) :: post → .start k v ∈ pre) ∧
    ∀ pc ∈ c.clients, pc ≠ .idle → (next o c.state pc).isSome := by
  have hs : Safe o c := foldlM_invariant (fun s mv hmv s' h hn => move_safe hb h (hm mv hmv) hn)
    (openClients_safe o mem n) hr
  exact ⟨hs.answered, fun pc hpc => next_exists hs.shared (hs.fine pc hpc)⟩

theorem get_answers_started_race :
    ∃ c, [Move.call 0 (.put [7] [1]), .go 0, .call 1 (.get [7]), .go 1, .go 1, .go 0,
        .go 1].foldlM (move ⟨16384, 16⟩) (openClients ⟨16384, 16⟩ (fun _ _ => 0) 2) = some c ∧
      c.events = [.start [7] [1], .answer [7] (.ok [1])] ∧
      ∀ pc ∈ c.clients, pc ≠ .idle → (next ⟨16384, 16⟩ c.state pc).isSome := by
  have hrun : ([Move.call 0 (.put [7] [1]), .go 0, .call 1 (.get [7]), .go 1, .go 1, .go 0,
      .go 1].foldlM (move ⟨16384, 16⟩) (openClients ⟨16384, 16⟩ (fun _ _ => 0) 2)).map
        Config.events = some [.start [7] [1], .answer [7] (.ok [1])] := by
    decide +kernel
  obtain ⟨c, hc, he⟩ := Option.map_eq_some_iff.mp hrun
  refine ⟨c, hc, he, (get_answers_started (by decide) _ 2 _ ?_ hc).2⟩
  simp [Move.Small, Op.Small, pageSize]

end WiscKey.ConcurrentGet
