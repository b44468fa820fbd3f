import WiscKey.RestartReads

namespace WiscKey.Durability

open WiscKey.Runs WiscKey.ValueLog WiscKey.LogLayout WiscKey.Hash WiscKey.Database
  WiscKey.Concurrent WiscKey.ConcurrentSteps WiscKey.Resurrection WiscKey.Restart
  WiscKey.RestartReads

def carries : Pc → Option (Key × Option Value)
  | .putInsert _ k v | .putRelease _ k v _ | .putLog k v | .putIndex k v _ => some (k, some v)
  | .deleteErase _ k | .deleteIndex k => some (k, none)
  | _ => none

def Has (x : Option Value) (f : Fate) : Prop := f.sync = fateOf x

def Unwritten (k : Key) (c : Config) : Prop := ∀ pc ∈ c.clients, writes pc ≠ some k

instance (k : Key) (c : Config) : Decidable (Unwritten k c) := List.decidableBAll _ _

def Steady : Step → Prop
  | .crash _ => False
  | .move _ | .reopen _ | .collect _ _ => True

instance : DecidablePred Steady
  | .crash _ => inferInstanceAs (Decidable False)
  | .move _ | .reopen _ | .collect _ _ => inferInstanceAs (Decidable True)

instance : DecidablePred Step.Small
  | .move (.call _ (.put _ v)) => inferInstanceAs (Decidable (v.length ≤ pageSize))
  | .move (.call _ (.delete _)) | .move (.call _ (.get _)) | .move (.call _ .flush)
  | .move (.go _) | .crash _ | .reopen _ | .collect _ _ => inferInstanceAs (Decidable True)

structure Ran (o : Options) (t : Tracked) (steps : List Step) (t' : Tracked) : Prop where
  small : ∀ e ∈ steps, e.Small
  collectable : AlongM (track o) Collectable t steps
  run : steps.foldlM (track o) t = some t'

/-- Only client `i` writes the key, or its write has been done. -/
structure Underway (k : Key) (x : Option Value) (i : Nat) (t : Tracked) : Prop where
  others : ∀ n pc, n ≠ i → t.config.clients[n]? = some pc → writes pc ≠ some k
  own : ∀ pc, t.config.clients[i]? = some pc →
    carries pc = some (k, x) ∨ writes pc ≠ some k ∧ Has x (t.fates k)

/-- The value is in the log file, or client `j` is going to flush its partition. -/
structure Draining (k : Key) (v : Value) (j : Nat) (t : Tracked) : Prop where
  unwritten : Unwritten k t.config
  kept : Has (some v) (t.fates k)
  draining : t.fates k = .durable v ∨
    ∃ ps, t.config.clients[j]? = some (.flush ps) ∧ partition k ∈ ps

variable {o : Options} {k : Key} {x : Option Value} {v : Value} {i j : Nat} {f : Fate}
  {s s' : State} {pc pc' : Pc} {es : List Event} {e : Step} {t t' : Tracked} {steps : List Step}

theorem Has.sync (h : Has x f) : Has x f.sync := by
  rw [Has, h, fateOf_sync]

theorem writes_of_carries (h : carries pc = some (k, x)) : writes pc = some k := by
  cases pc with
  | putInsert l k v | putRelease l k v q | putLog k v | putIndex k v lba | deleteErase l k
  | deleteIndex k =>
    cases h
    rfl
  | idle | getCache k | getIndex k | getBuffer k r | getValue l k q | getRelease l k q v
  | getLog k r n | getInsert k v | getInsertRelease k v q | flush ps => cases h

theorem stepped_writes (hs : Stepped o s pc s' pc' es) (h : writes pc' = some k) :
    writes pc = some k := by
  cases hs with
  | putInsert | putReleaseData | putReleaseBuffer | putLog | eraseData | eraseBuffer => exact h
  | putIndex | deleteIndex | cacheHit | cacheMiss | indexHit | indexMiss | bufferHit | bufferMiss
  | value | release | giveUp | logHit | retry | insert | insertRelease | flushed | flush => cases h

theorem stepped_carries {f : Key → Fate} (hs : Stepped o s pc s' pc' es)
    (h : carries pc = some (k, x)) :
    carries pc' = some (k, x) ∨ pc' = .idle ∧ Has x (settle f pc k) := by
  cases hs with
  | putInsert | putReleaseData | putReleaseBuffer | putLog | eraseData | eraseBuffer =>
    exact Or.inl h
  | putIndex | deleteIndex =>
    cases h
    refine Or.inr ⟨rfl, ?_⟩
    rw [settle, Function.update_self]
    rfl
  | cacheHit | cacheMiss | indexHit | indexMiss | bufferHit | bufferMiss | value | release
  | giveUp | logHit | retry | insert | insertRelease | flushed | flush => cases h

theorem settle_has {f : Key → Fate} (hw : writes pc ≠ some k) (h : Has x (f k)) :
    Has x (settle f pc k) := by
  obtain hs | hs := settle_spares (f := f) hw
  · rwa [hs]
  · rw [hs]
    exact h.sync

theorem unwritten_of_idle {c : Config} (h : AllIdle c) : Unwritten k c := by
  intro pc hpc
  rw [h pc hpc]
  simp [writes]

theorem moved_unwritten {c c' : Config} {m : Move} (hm : Moved o c m c')
    (hsp : Spares k (.move m)) (h : Unwritten k c) : Unwritten k c' := by
  intro pc hpc hk
  obtain ⟨n, hn⟩ := List.mem_iff_getElem?.mp hpc
  obtain ⟨ho, -⟩ | ⟨op, rfl, rfl⟩ | ⟨a, es, -, ha, hs⟩ := move_client hm hn
  · exact h pc (List.mem_of_getElem? ho) hk
  · exact begin_writes hsp hk
  · exact h a (List.mem_of_getElem? ha) (stepped_writes hs hk)

theorem restart_idle {c c' : Config} (hs : Restart.step o c e = some c') (he : Restarts e) :
    AllIdle c' := by
  cases e with
  | move m => cases he
  | crash mem =>
    cases hs
    intro pc hpc
    obtain ⟨a, -, rfl⟩ := List.mem_map.mp hpc
    rfl
  | reopen mem =>
    obtain ⟨hi, hs⟩ := Option.ite_none_right_eq_some.mp hs
    cases hs
    exact hi
  | collect threads events =>
    obtain ⟨hi, hs⟩ := Option.ite_none_right_eq_some.mp hs
    obtain ⟨s', -, rfl⟩ := Option.map_eq_some_iff.mp hs
    exact hi

theorem track_unwritten (hs : track o t e = some t') (hsp : Spares k e)
    (h : Unwritten k t.config) : Unwritten k t'.config := by
  obtain ⟨c', hstep, rfl⟩ := Option.map_eq_some_iff.mp hs
  cases e with
  | move m => exact moved_unwritten (moved_of_move hstep) hsp h
  | crash mem | reopen mem | collect threads events =>
    exact unwritten_of_idle (restart_idle hstep trivial)

theorem note_has (hw : Unwritten k t.config) (he : Steady e) (h : Has x (t.fates k)) :
    Has x (note t.config t.fates e k) := by
  cases e with
  | move m =>
    cases m with
    | call n op => exact h
    | go n =>
      rw [note]
      cases hn : t.config.clients[n]? with
      | none => exact h
      | some pc => exact settle_has (hw pc (List.mem_of_getElem? hn)) h
  | crash mem => cases he
  | reopen mem | collect threads events => exact h.sync

theorem track_length (hs : track o t e = some t') :
    t'.config.clients.length = t.config.clients.length := by
  obtain ⟨c', hstep, rfl⟩ := Option.map_eq_some_iff.mp hs
  cases e with
  | move m =>
    cases moved_of_move hstep with
    | call hj | go hj hst => exact List.length_set
  | crash mem =>
    cases hstep
    exact List.length_map _
  | reopen mem =>
    obtain ⟨-, hstep⟩ := Option.ite_none_right_eq_some.mp hstep
    cases hstep
    rfl
  | collect threads events =>
    obtain ⟨-, hstep⟩ := Option.ite_none_right_eq_some.mp hstep
    obtain ⟨s', -, rfl⟩ := Option.map_eq_some_iff.mp hstep
    rfl

theorem Underway.has (h : Underway k x i t) (hw : Unwritten k t.config)
    (hi : i < t.config.clients.length) : Has x (t.fates k) := by
  obtain hc | ⟨-, hx⟩ := h.own _ (List.getElem?_eq_getElem hi)
  · exact absurd (writes_of_carries hc) (hw _ (List.getElem_mem hi))
  · exact hx

theorem call_underway {op : Sequential.Op} (hs : track o t (.move (.call i op)) = some t')
    (hw : Unwritten k t.config) (hop : carries (begin op).1 = some (k, x)) :
    Underway k x i t' := by
  obtain ⟨c', hstep, rfl⟩ := Option.map_eq_some_iff.mp hs
  have hm : Moved o t.config (.call i op) c' := moved_of_move hstep
  constructor
  · intro n pc hn hpc
    obtain ⟨ho, -⟩ | ⟨op', hm', -⟩ | ⟨a, es, hm', -⟩ := move_client hm hpc
    · exact hw pc (List.mem_of_getElem? ho)
    · cases hm'
      exact absurd rfl hn
    · cases hm'
  · intro pc hpc
    cases hm with
    | call hj =>
      have hlt := (List.getElem?_eq_some_iff.mp hj).1
      rw [List.getElem?_set_self hlt] at hpc
      cases hpc
      exact Or.inl hop

theorem move_underway {m : Move} (hs : track o t (.move m) = some t') (hsp : Spares k (.move m))
    (h : Underway k x i t) : Underway k x i t' := by
  obtain ⟨c', hstep, rfl⟩ := Option.map_eq_some_iff.mp hs
  have hm := moved_of_move hstep
  constructor
  · intro n pc hn hpc hk
    obtain ⟨ho, -⟩ | ⟨op, rfl, rfl⟩ | ⟨a, es, -, ha, hst⟩ := move_client hm hpc
    · exact h.others n pc hn ho hk
    · exact begin_writes hsp hk
    · exact h.others n a hn ha (stepped_writes hst hk)
  · intro pc hpc
    obtain ⟨ho, hne⟩ | ⟨op, rfl, rfl⟩ | ⟨a, es, rfl, ha, hst⟩ := move_client hm hpc
    · obtain hc | ⟨hw, hx⟩ := h.own pc ho
      · exact Or.inl hc
      refine Or.inr ⟨hw, ?_⟩
      cases m with
      | call n op => exact hx
      | go n =>
        rw [note]
        cases hn : t.config.clients[n]? with
        | none => exact hx
        | some b =>
          refine settle_has (h.others n b ?_ hn) hx
          rintro rfl
          exact hne rfl
    · obtain hc | ⟨-, hx⟩ := h.own _ (idle_of_call hm)
      · cases hc
      · exact Or.inr ⟨begin_writes hsp, hx⟩
    · rw [note, ha]
      obtain hc | ⟨hw, hx⟩ := h.own a ha
      · obtain hc | ⟨hidle, hx⟩ := stepped_carries hst hc
        · exact Or.inl hc
        · refine Or.inr ⟨?_, hx⟩
          rw [hidle]
          simp [writes]
      · exact Or.inr ⟨fun hk => hw (stepped_writes hst hk), settle_has hw hx⟩

theorem track_underway (hs : track o t e = some t') (hsp : Spares k e) (he : Steady e)
    (h : Underway k x i t) : Underway k x i t' := by
  have hsync : ∀ {c' : Config}, AllIdle t.config → c'.clients = t.config.clients →
      Underway k x i ⟨c', fun k => (t.fates k).sync⟩ := by
    intro c' hi hc
    refine ⟨fun n pc hn hpc => h.others n pc hn (hc ▸ hpc), fun pc hpc => ?_⟩
    have ho : t.config.clients[i]? = some pc := hc ▸ hpc
    obtain hc | ⟨hw, hx⟩ := h.own pc ho
    · exact Or.inl hc
    · exact Or.inr ⟨hw, hx.sync⟩
  cases e with
  | move m => exact move_underway hs hsp h
  | crash mem => cases he
  | reopen mem =>
    obtain ⟨c', hstep, rfl⟩ := Option.map_eq_some_iff.mp hs
    obtain ⟨hi, hstep⟩ := Option.ite_none_right_eq_some.mp hstep
    cases hstep
    exact hsync hi rfl
  | collect threads events =>
    obtain ⟨c', hstep, rfl⟩ := Option.map_eq_some_iff.mp hs
    obtain ⟨hi, hstep⟩ := Option.ite_none_right_eq_some.mp hstep
    obtain ⟨s', -, rfl⟩ := Option.map_eq_some_iff.mp hstep
    exact hsync hi rfl

theorem call_draining (hs : track o t (.move (.call j .flush)) = some t')
    (hw : Unwritten k t.config) (hv : Has (some v) (t.fates k)) : Draining k v j t' := by
  refine ⟨track_unwritten hs trivial hw, ?_, ?_⟩
  · obtain ⟨c', -, rfl⟩ := Option.map_eq_some_iff.mp hs
    exact hv
  · obtain ⟨c', hstep, rfl⟩ := Option.map_eq_some_iff.mp hs
    have hm : Moved o t.config (.call j .flush) c' := moved_of_move hstep
    cases hm with
    | call hj =>
      have hlt := (List.getElem?_eq_some_iff.mp hj).1
      refine Or.inr ⟨[0, 1, 2, 3], List.getElem?_set_self hlt, ?_⟩
      generalize partition k = p
      decide +revert

theorem settle_drained {f : Key → Fate} {p : Fin 4} (ps : List (Fin 4)) (hp : partition k = p)
    (h : Has (some v) (f k)) : settle f (.flush (p :: ps)) k = .durable v := by
  rw [settle_flush, if_pos hp]
  exact h

theorem track_draining (hs : track o t e = some t') (hsp : Spares k e) (he : Steady e)
    (h : Draining k v j t) : Draining k v j t' := by
  have hkept := note_has h.unwritten he h.kept
  have hunwritten := track_unwritten hs hsp h.unwritten
  obtain ⟨c', hstep, rfl⟩ := Option.map_eq_some_iff.mp hs
  refine ⟨hunwritten, hkept, ?_⟩
  obtain hd | ⟨ps, hj, hp⟩ := h.draining
  · exact Or.inl (note_fateOf (x := some v) hd h.unwritten e)
  cases e with
  | move m =>
    cases moved_of_move hstep with
    | @call n op hn =>
      have hne : n ≠ j := by
        rintro rfl
        rw [hn] at hj
        cases hj
      exact Or.inr ⟨ps, (List.getElem?_set_ne hne).trans hj, hp⟩
    | @go n a s' pc' es hn hst =>
      by_cases hne : n = j
      · subst n
        rw [hj] at hn
        cases hn
        rw [note, hj, Option.elim_some]
        cases hst with
        | flushed => cases hp
        | @flush p ps =>
          obtain hp | hp := List.mem_cons.mp hp
          · exact Or.inl (settle_drained ps hp h.kept)
          · have hlt := (List.getElem?_eq_some_iff.mp hj).1
            exact Or.inr ⟨ps, List.getElem?_set_self hlt, hp⟩
      · exact Or.inr ⟨ps, (List.getElem?_set_ne hne).trans hj, hp⟩
  | crash mem => cases he
  | reopen mem | collect threads events => exact Or.inl h.kept

theorem exists_ran {P : Tracked → Prop} :
    ((∀ e ∈ steps, e.Small) ∧ AlongM (track o) Collectable t steps ∧
      ∃ t' ∈ steps.foldlM (track o) t, P t') ↔ ∃ t', Ran o t steps t' ∧ P t' := by
  constructor
  · rintro ⟨hsmall, hc, t', hr, hp⟩
    exact ⟨t', ⟨hsmall, hc, hr⟩, hp⟩
  · rintro ⟨t', h, hp⟩
    exact ⟨h.small, h.collectable, t', h.run, hp⟩

instance {P : Tracked → Prop} [DecidablePred P] :
    Decidable (∃ t', Ran o t steps t' ∧ P t') :=
  decidable_of_iff _ exists_ran

theorem Ran.refl (t : Tracked) : Ran o t [] t := by
  refine ⟨?_, trivial, rfl⟩
  intro e he
  cases he

theorem Ran.cons (h : Ran o t (e :: steps) t') :
    ∃ u, track o t e = some u ∧ Ran o u steps t' := by
  have hr := h.run
  rw [List.foldlM_cons] at hr
  obtain ⟨u, hu, hr⟩ := Option.bind_eq_some_iff.mp hr
  exact ⟨u, hu, fun a ha => h.small a (List.mem_cons_of_mem _ ha), h.collectable.2 u hu, hr⟩

theorem Ran.keeps {I : Tracked → Prop} (h : Ran o t steps t')
    (hs : ∀ u e u', e ∈ steps → I u → track o u e = some u' → I u') (h₀ : I t) : I t' :=
  h.collectable.keeps (fun _ _ he _ hi _ hu => hs _ _ _ he hi hu) h₀ h.run

theorem Ran.sound (hb : PageBuffer o.logBufSize) (h : Ran o t steps t') (hs : Sound o t) :
    Sound o t' :=
  run_sound hb h.small hs h.collectable h.run

theorem Ran.length (h : Ran o t steps t') :
    t'.config.clients.length = t.config.clients.length :=
  h.keeps (I := fun u => u.config.clients.length = t.config.clients.length)
    (fun _ _ _ _ hi hu => (track_length hu).trans hi) rfl

theorem write_returned {op : Sequential.Op} (h : Ran o t (.move (.call i op) :: steps) t')
    (hop : carries (begin op).1 = some (k, x)) (hw : Unwritten k t.config)
    (hsp : ∀ e ∈ steps, Spares k e ∧ Steady e) (hw' : Unwritten k t'.config) :
    Has x (t'.fates k) := by
  have hi : i < t'.config.clients.length := by
    rw [h.length]
    obtain ⟨u, hu, -⟩ := h.cons
    obtain ⟨c', hstep, rfl⟩ := Option.map_eq_some_iff.mp hu
    have hm : Moved o t.config (.call i op) c' := moved_of_move hstep
    exact (List.getElem?_eq_some_iff.mp (idle_of_call hm)).1
  obtain ⟨u, hu, h⟩ := h.cons
  have hend : Underway k x i t' := h.keeps
    (fun _ e _ he hi hs => track_underway hs (hsp e he).1 (hsp e he).2 hi)
    (call_underway hu hw hop)
  exact hend.has hw' hi

theorem flush_returned (h : Ran o t (.move (.call j .flush) :: steps) t')
    (hw : Unwritten k t.config) (hv : Has (some v) (t.fates k))
    (hsp : ∀ e ∈ steps, Spares k e ∧ Steady e) (hj : t'.config.clients[j]? = some .idle) :
    t'.fates k = .durable v ∧ Unwritten k t'.config := by
  obtain ⟨u, hu, h⟩ := h.cons
  have hend : Draining k v j t' := h.keeps
    (fun _ e _ he hi hs => track_draining hs (hsp e he).1 (hsp e he).2 hi)
    (call_draining hu hw hv)
  refine ⟨?_, hend.unwritten⟩
  obtain hd | ⟨ps, hps, -⟩ := hend.draining
  · exact hd
  · rw [hj] at hps
    cases hps

theorem survives_restart {t₀ t₁ : Tracked} {rest later : List Step} (hb : PageBuffer o.logBufSize)
    (hs : Sound o t₀) (hf : t₀.fates k = fateOf x) (hw : Unwritten k t₀.config)
    (hx : ∀ v ∈ x, 0 < v.length) (h₁ : Ran o t₀ (rest ++ [e]) t₁) (he : Restarts e)
    (h₂ : Ran o t₁ later t) (hsp : ∀ e' ∈ rest ++ later, Spares k e') :
    ∃ es, t.config.events = t₁.config.events ++ es ∧ ∀ a, .answer k a ∈ es → a = reply x := by
  have hrun := h₁.run
  rw [List.foldlM_append] at hrun
  obtain ⟨u, hu, hrun⟩ := Option.bind_eq_some_iff.mp hrun
  rw [List.foldlM_cons] at hrun
  obtain ⟨u', hu', hrun⟩ := Option.bind_eq_some_iff.mp hrun
  cases hrun
  obtain ⟨hc, hce, -⟩ := h₁.collectable.append hu
  have hrest : Ran o t₀ rest u :=
    ⟨fun a ha => h₁.small a (List.mem_append_left _ ha), hc, hu⟩
  have hkept : u.fates k = fateOf x ∧ Unwritten k u.config := by
    refine hrest.keeps (I := fun u => u.fates k = fateOf x ∧ Unwritten k u.config) ?_ ⟨hf, hw⟩
    intro a e' b he' ha hs
    refine ⟨?_, track_unwritten hs (hsp e' (List.mem_append_left _ he')) ha.2⟩
    obtain ⟨c', -, rfl⟩ := Option.map_eq_some_iff.mp hs
    exact note_fateOf ha.1 ha.2 e'
  have hfate : t₁.fates k = fateOf x := by
    obtain ⟨c', -, rfl⟩ := Option.map_eq_some_iff.mp hu'
    exact note_fateOf hkept.1 hkept.2 e
  have hserved := restart_served hb (hrest.sound hb hs) (h₁.small e (by simp)) hce he hu' hfate
  exact (run_served hb hx hserved h₂.small (fun a ha => hsp a (List.mem_append_right _ ha))
    h₂.collectable h₂.run).answers

/-- A `Put` has returned, and after it a flush, while nobody else wrote the key
and nothing crashed. From then on the value survives every crash: as long as the
key is not written again, every `Get` of it after a restart answers it. -/
theorem flushed_put_survives (hb : PageBuffer o.logBufSize) (mem : Fin 4 → Nat → UInt8) (n : Nat)
    {pre putting flushing rest later : List Step} {t₀ t₁ t₂ t₃ : Tracked} (hv : 0 < v.length)
    (h₀ : Ran o (start o mem n) pre t₀) (hw₀ : Unwritten k t₀.config)
    (h₁ : Ran o t₀ (.move (.call i (.put k v)) :: putting) t₁) (hw₁ : Unwritten k t₁.config)
    (h₂ : Ran o t₁ (.move (.call j .flush) :: flushing) t₂)
    (hj : t₂.config.clients[j]? = some .idle)
    (hst : ∀ e' ∈ putting ++ flushing, Spares k e' ∧ Steady e')
    (h₃ : Ran o t₂ (rest ++ [e]) t₃) (he : Restarts e) (h₄ : Ran o t₃ later t)
    (hsp : ∀ e' ∈ rest ++ later, Spares k e') :
    ∃ es, t.config.events = t₃.config.events ++ es ∧ ∀ a, .answer k a ∈ es → a = .ok v := by
  have hput : Has (some v) (t₁.fates k) := write_returned h₁ rfl hw₀
    (fun a ha => hst a (List.mem_append_left _ ha)) hw₁
  obtain ⟨hd, hw₂⟩ := flush_returned h₂ hw₁ hput
    (fun a ha => hst a (List.mem_append_right _ ha)) hj
  have hs := h₂.sound hb (h₁.sound hb (h₀.sound hb (start_sound o mem n)))
  refine survives_restart hb hs (x := some v) hd hw₂ ?_ h₃ he h₄ hsp
  rintro _ ⟨⟩
  exact hv

def overlapping : List Step := List.replicate 6 (.move (.go 0)) ++ [.move (.call 1 (.put [1] [2]))]

def crashed : List Step := [.move (.go 1), .crash fun _ _ => 0]

def opened : Tracked := start ⟨32768, 16⟩ (fun _ _ => 0) 2

theorem flushed_put_survives_crash :
    ∃ t₁, Ran ⟨32768, 16⟩ opened (.move (.call 0 (.put [7] [1])) :: overlapping) t₁ ∧
      ∃ t₂, Ran ⟨32768, 16⟩ t₁ (whole .flush 5) t₂ ∧ ∃ t₃, Ran ⟨32768, 16⟩ t₂ crashed t₃ ∧
      ∃ t, Ran ⟨32768, 16⟩ t₃ (whole (.get [7]) 6) t ∧
        t.config.events = t₃.config.events ++ [.answer [7] (.ok [1])] ∧
        ∃ es, t.config.events = t₃.config.events ++ es ∧
          ∀ a, .answer [7] a ∈ es → a = .ok [1] := by
  have hrun : ∃ t₁, Ran ⟨32768, 16⟩ opened (.move (.call 0 (.put [7] [1])) :: overlapping) t₁ ∧
      Unwritten [7] t₁.config ∧
      ∃ t₂, Ran ⟨32768, 16⟩ t₁ (whole .flush 5) t₂ ∧ t₂.config.clients[0]? = some .idle ∧
      ∃ t₃, Ran ⟨32768, 16⟩ t₂ crashed t₃ ∧ ∃ t, Ran ⟨32768, 16⟩ t₃ (whole (.get [7]) 6) t ∧
        t.config.events = t₃.config.events ++ [.answer [7] (.ok [1])] := by
    decide +kernel
  obtain ⟨t₁, h₁, hw₁, t₂, h₂, hj, t₃, h₃, t, h₄, he⟩ := hrun
  refine ⟨t₁, h₁, t₂, h₂, t₃, h₃, t, h₄, he, ?_⟩
  have hcrash : Ran ⟨32768, 16⟩ t₂ ([.move (.go 1)] ++ [.crash fun _ _ => 0]) t₃ := h₃
  exact flushed_put_survives (by decide) (fun _ _ => 0) 2 (by decide) (Ran.refl opened)
    (by decide) h₁ hw₁ h₂ hj (by decide) hcrash trivial h₄ (by decide)

/-- A `Delete` that has returned survives every crash without a flush. -/
theorem delete_survives (hb : PageBuffer o.logBufSize) (mem : Fin 4 → Nat → UInt8) (n : Nat)
    {pre deleting rest later : List Step} {t₀ t₁ t₂ : Tracked}
    (h₀ : Ran o (start o mem n) pre t₀) (hw₀ : Unwritten k t₀.config)
    (h₁ : Ran o t₀ (.move (.call i (.delete k)) :: deleting) t₁) (hw₁ : Unwritten k t₁.config)
    (hst : ∀ e' ∈ deleting, Spares k e' ∧ Steady e')
    (h₂ : Ran o t₁ (rest ++ [e]) t₂) (he : Restarts e) (h₃ : Ran o t₂ later t)
    (hsp : ∀ e' ∈ rest ++ later, Spares k e') :
    ∃ es, t.config.events = t₂.config.events ++ es ∧ ∀ a, .answer k a ∈ es → a = .notFound := by
  have hdel : Has none (t₁.fates k) := write_returned h₁ rfl hw₀ hst hw₁
  have hs := h₁.sound hb (h₀.sound hb (start_sound o mem n))
  refine survives_restart hb hs (x := none) ?_ hw₁ (by simp) h₂ he h₃ hsp
  generalize t₁.fates k = f at hdel
  cases f with
  | absent => rfl
  | buffered v | durable v | lost => cases hdel

theorem delete_survives_crash :
    ∃ t₀, Ran ⟨32768, 16⟩ opened (whole (.put [7] [1]) 6 ++ whole .flush 5) t₀ ∧
      ∃ t₁, Ran ⟨32768, 16⟩ t₀ (.move (.call 0 (.delete [7])) ::
        (List.replicate 3 (.move (.go 0)) ++ [.move (.call 1 (.put [1] [2]))])) t₁ ∧
      ∃ t₂, Ran ⟨32768, 16⟩ t₁ crashed t₂ ∧ ∃ t, Ran ⟨32768, 16⟩ t₂ (whole (.get [7]) 2) t ∧
        t.config.events = t₂.config.events ++ [.answer [7] .notFound] ∧
        ∃ es, t.config.events = t₂.config.events ++ es ∧
          ∀ a, .answer [7] a ∈ es → a = .notFound := by
  have hrun : ∃ t₀, Ran ⟨32768, 16⟩ opened (whole (.put [7] [1]) 6 ++ whole .flush 5) t₀ ∧
      Unwritten [7] t₀.config ∧ ∃ t₁, Ran ⟨32768, 16⟩ t₀ (.move (.call 0 (.delete [7])) ::
        (List.replicate 3 (.move (.go 0)) ++ [.move (.call 1 (.put [1] [2]))])) t₁ ∧
      Unwritten [7] t₁.config ∧
      ∃ t₂, Ran ⟨32768, 16⟩ t₁ crashed t₂ ∧ ∃ t, Ran ⟨32768, 16⟩ t₂ (whole (.get [7]) 2) t ∧
        t.config.events = t₂.config.events ++ [.answer [7] .notFound] := by
    decide +kernel
  obtain ⟨t₀, h₀, hw₀, t₁, h₁, hw₁, t₂, h₂, t, h₃, he⟩ := hrun
  refine ⟨t₀, h₀, t₁, h₁, t₂, h₂, t, h₃, he, ?_⟩
  have hcrash : Ran ⟨32768, 16⟩ t₁ ([.move (.go 1)] ++ [.crash fun _ _ => 0]) t₂ := h₂
  exact delete_survives (by decide) (fun _ _ => 0) 2 h₀ hw₀ h₁ hw₁ (by decide) hcrash trivial h₃
    (by decide)

end WiscKey.Durability
