import WiscKey.Runs
import WiscKey.ConcurrentSteps
import WiscKey.CacheTable

namespace WiscKey.Resurrection

open WiscKey.Maps WiscKey.Runs WiscKey.ValueLog WiscKey.Hash WiscKey.ShardedCache WiscKey.CacheTable
  WiscKey.Database WiscKey.Sequential WiscKey.Concurrent WiscKey.ConcurrentSteps

def putting : Pc → Option Key
  | .putInsert _ k _ | .putRelease _ k _ _ | .putLog k _ | .putIndex k _ _ => some k
  | _ => none

/-- The key of a `Delete` that has erased the data cache but not the index. -/
def deleting : Pc → Option Key
  | .deleteErase (.buffer _) k | .deleteIndex k => some k
  | _ => none

def found : Pc → Option Key
  | .getBuffer k _ | .getValue _ k _ | .getRelease _ k _ _ | .getLog k _ _ | .getInsert k _
  | .getInsertRelease k _ _ => some k
  | _ => none

def inserting : Pc → Option Key
  | .putInsert .data k _ | .getInsert k _ => some k
  | _ => none

/-- There is no data cache, or the index has the key still and no `Delete` of it
is past the data cache. -/
def Current (k : Key) (c : Config) : Prop :=
  c.state.cache.isNone ∨ (c.state.index[k]?).isSome ∧ ∀ pc ∈ c.clients, deleting pc ≠ some k

instance (k : Key) (c : Config) : Decidable (Current k c) := inferInstanceAs (Decidable (_ ∨ _))

/-- A `Get` inserts only what is current into the data cache. -/
def Prompt (k : Key) (c : Config) : Move → Prop
  | .go j => ∀ pc ∈ c.clients[j]?, found pc = some k → inserting pc = some k → Current k c
  | .call _ _ => True

instance (k : Key) (c : Config) : DecidablePred (Prompt k c)
  | .go j => inferInstanceAs (Decidable
      (∀ pc ∈ c.clients[j]?, found pc = some k → inserting pc = some k → Current k c))
  | .call _ _ => inferInstanceAs (Decidable True)

variable {o : Options} {k : Key} {s s' : State} {pc pc' : Pc} {es : List Event}
  {c c' : Config} {m : Move} {i j : Nat}

theorem setCacheAt_touched {new : Key → Prop} {l : Loc} {c d : Cache} (hc : cacheAt s l = some c)
    (ht : l = .data → Touched new c d) {c' : Cache} (hm : c' ∈ (setCacheAt s d l).cache) :
    ∃ c ∈ s.cache, Touched new c c' := by
  cases l with
  | data =>
    cases hm
    exact ⟨c, hc, ht rfl⟩
  | buffer p => exact ⟨c', hm, .same⟩

theorem insertAt_touched {new : Key → Prop} {l : Loc} {k : Key} {v : Value}
    (hn : l = .data → new k) {c' : Cache} (hm : c' ∈ (insertAt s l k v).1.cache) :
    ∃ c ∈ s.cache, Touched new c c' := by
  rw [insertAt] at hm
  split at hm
  · exact ⟨c', hm, .same⟩
  · rename_i hc
    exact setCacheAt_touched hc (fun hl => .insert (hn hl)) hm

theorem lookupAt_touched {new : Key → Prop} {l : Loc} {k : Key} {c' : Cache}
    (hm : c' ∈ (lookupAt s l k).1.cache) : ∃ c ∈ s.cache, Touched new c c' := by
  rw [lookupAt] at hm
  split at hm
  · exact ⟨c', hm, .same⟩
  · rename_i hc
    exact setCacheAt_touched hc (fun _ => .lookup) hm

theorem releaseAt_touched {new : Key → Prop} {l : Loc} {h : Option Ref} {c' : Cache}
    (hm : c' ∈ (releaseAt s l h).cache) : ∃ c ∈ s.cache, Touched new c c' := by
  simp only [releaseAt] at hm
  split at hm
  · rename_i hc
    exact setCacheAt_touched hc (fun _ => .release) hm
  · exact ⟨c', hm, .same⟩

theorem eraseAt_touched {new : Key → Prop} {l : Loc} {k : Key} {c' : Cache}
    (hm : c' ∈ (eraseAt s l k).cache) : ∃ c ∈ s.cache, Touched new c c' := by
  rw [eraseAt] at hm
  split at hm
  · exact ⟨c', hm, .same⟩
  · rename_i hc
    exact setCacheAt_touched hc (fun _ => .erase) hm

theorem stepped_touched (hs : Stepped o s pc s' pc' es) {d' : Cache} (hm : d' ∈ s'.cache) :
    ∃ d ∈ s.cache, Touched (fun k => inserting pc = some k) d d' := by
  cases hs with
  | putInsert =>
    refine insertAt_touched ?_ hm
    rintro rfl
    rfl
  | insert =>
    refine insertAt_touched ?_ hm
    exact fun _ => rfl
  | putReleaseData | putReleaseBuffer | release | insertRelease => exact releaseAt_touched hm
  | eraseData | eraseBuffer => exact eraseAt_touched hm
  | cacheHit | cacheMiss | bufferHit | bufferMiss => exact lookupAt_touched hm
  | putLog | putIndex | deleteIndex | indexHit | indexMiss | value | giveUp | logHit | retry
  | flushed | flush => exact ⟨d', hm, .same⟩

theorem index_insertAt {l : Loc} {v : Value} : (insertAt s l k v).1.index = s.index := by
  rw [insertAt]
  split
  · rfl
  · exact setCacheAt_index s _ _

theorem index_lookupAt {l : Loc} : (lookupAt s l k).1.index = s.index := by
  rw [lookupAt]
  split
  · rfl
  · exact setCacheAt_index s _ _

theorem index_releaseAt {l : Loc} {h : Option Ref} : (releaseAt s l h).index = s.index := by
  simp only [releaseAt]
  split
  · exact setCacheAt_index s _ _
  · rfl

theorem index_eraseAt {l : Loc} : (eraseAt s l k).index = s.index := by
  rw [eraseAt]
  split
  · rfl
  · exact setCacheAt_index s _ _

theorem stepped_index (hs : Stepped o s pc s' pc' es) (hp : putting pc ≠ some k)
    (hk : s.index[k]? = none) : s'.index[k]? = none := by
  cases hs with
  | putInsert | insert => rwa [index_insertAt]
  | putReleaseData | putReleaseBuffer | release | insertRelease => rwa [index_releaseAt]
  | eraseData | eraseBuffer => rwa [index_eraseAt]
  | cacheHit | cacheMiss | bufferHit | bufferMiss => rwa [index_lookupAt]
  | putIndex =>
    rw [State.putIndex, getElem?_insert, if_neg, hk]
    rintro rfl
    exact hp rfl
  | deleteIndex =>
    rw [State.deleteIndex, getElem?_erase, hk, ite_self]
  | putLog | indexHit | indexMiss | value | giveUp | logHit | retry | flushed | flush => exact hk

theorem stepped_putting (hs : Stepped o s pc s' pc' es) (h : putting pc' = some k) :
    putting pc = some k := by
  cases hs with
  | putInsert | putReleaseData | putReleaseBuffer | putLog => exact h
  | putIndex | eraseData | eraseBuffer | deleteIndex | cacheHit | cacheMiss | indexHit | indexMiss
  | bufferHit | bufferMiss | value | release | giveUp | logHit | retry | insert | insertRelease
  | flushed | flush => cases h

theorem stepped_deleting (hs : Stepped o s pc s' pc' es) (h : deleting pc' = some k) :
    deleting pc = some k ∨ s' = eraseAt s .data k := by
  cases hs with
  | eraseData =>
    cases h
    exact Or.inr rfl
  | eraseBuffer => exact Or.inl h
  | putInsert | putReleaseData | putReleaseBuffer | putLog | putIndex | deleteIndex | cacheHit
  | cacheMiss | indexHit | indexMiss | bufferHit | bufferMiss | value | release | giveUp | logHit
  | retry | insert | insertRelease | flushed | flush => cases h

theorem stepped_found (hs : Stepped o s pc s' pc' es) (h : found pc' = some k) :
    found pc = some k ∨ (lookupAt s .data k).2 ≠ none ∨ s.index[k]? ≠ none := by
  cases hs with
  | cacheHit hl =>
    cases h
    rw [hl]
    exact Or.inr (Or.inl nofun)
  | indexHit hi =>
    cases h
    rw [hi]
    exact Or.inr (Or.inr nofun)
  | bufferHit | bufferMiss | value | logHit | retry | insert => exact Or.inl h
  | putInsert | putReleaseData | putReleaseBuffer | putLog | putIndex | eraseData | eraseBuffer
  | deleteIndex | cacheMiss | indexMiss | release | giveUp | insertRelease | flushed | flush =>
    cases h

theorem stepped_answer {a : Answer} (hs : Stepped o s pc s' pc' es) (he : es = [.answer k a])
    (hf : found pc ≠ some k) : a = .notFound := by
  cases hs with
  | indexMiss =>
    cases he
    rfl
  | release | insertRelease =>
    cases he
    exact absurd rfl hf
  | giveUp =>
    cases he
    rfl
  | putInsert | putReleaseData | putReleaseBuffer | putLog | putIndex | eraseData | eraseBuffer
  | deleteIndex | cacheHit | cacheMiss | indexHit | bufferHit | bufferMiss | value | logHit | retry
  | insert | flushed | flush => cases he

def Clear (k : Key) (s : State) : Prop := ∀ d ∈ s.cache, Absent d k

theorem move_client {n : Nat} (hm : Moved o c m c') (h : c'.clients[n]? = some pc) :
    (c.clients[n]? = some pc ∧ m ≠ .go n) ∨ (∃ op, m = .call n op ∧ pc = (begin op).1) ∨
      ∃ a es, m = .go n ∧ c.clients[n]? = some a ∧ Stepped o c.state a c'.state pc es := by
  cases hm with
  | @call j op hj =>
    rw [List.getElem?_set] at h
    split at h
    · subst j
      obtain ⟨-, he⟩ := Option.ite_none_right_eq_some.mp h
      cases he
      exact Or.inr (Or.inl ⟨op, rfl, rfl⟩)
    · exact Or.inl ⟨h, nofun⟩
  | @go j a s' pc' es hj hs =>
    change (c.clients.set j pc')[n]? = some pc at h
    rw [List.getElem?_set] at h
    split at h
    · subst j
      obtain ⟨-, he⟩ := Option.ite_none_right_eq_some.mp h
      cases he
      exact Or.inr (Or.inr ⟨a, es, rfl, hj, hs⟩)
    · rename_i hne
      refine Or.inl ⟨h, ?_⟩
      rintro ⟨⟩
      exact hne rfl

theorem idle_of_call {op : Op} (hm : Moved o c (.call j op) c') : c.clients[j]? = some .idle := by
  cases hm with
  | call hj => exact hj

theorem move_distinct (hm : Moved o c m c') (h : ∀ d ∈ c.state.cache, Distinct d) :
    ∀ d ∈ c'.state.cache, Distinct d := by
  cases hm with
  | call => exact h
  | go hj hs =>
    intro d' hd'
    obtain ⟨d, hd, ht⟩ := stepped_touched hs hd'
    exact ht.distinct (h d hd)

theorem move_putting (hm : Moved o c m c') (hc : ∀ i v, m ≠ .call i (.put k v))
    (h : ∀ pc ∈ c.clients, putting pc ≠ some k) : ∀ pc ∈ c'.clients, putting pc ≠ some k := by
  intro pc hpc hk
  obtain ⟨n, hn⟩ := List.mem_iff_getElem?.mp hpc
  obtain ⟨ho, -⟩ | ⟨op, rfl, rfl⟩ | ⟨a, es, -, ha, hs⟩ := move_client hm hn
  · exact h pc (List.mem_of_getElem? ho) hk
  · cases op with
    | put k' v =>
      cases hk
      exact hc n v rfl
    | delete k' | get k' | flush => cases hk
  · exact h a (List.mem_of_getElem? ha) (stepped_putting hs hk)

theorem inserting_cases (h : inserting pc = some k) : putting pc = some k ∨ found pc = some k := by
  cases pc with
  | putInsert l k v =>
    cases l with
    | data => exact Or.inl h
    | buffer p => cases h
  | getInsert k v => exact Or.inr h
  | idle | putRelease l k v q | putLog k v | putIndex k v lba | deleteErase l k | deleteIndex k
  | getCache k | getIndex k | getBuffer k r | getValue l k q | getRelease l k q v | getLog k r n
  | getInsertRelease k v q | flush ps => cases h

/-- While the record of the key is gone or going, the key does not come back
into the data cache. -/
theorem move_clear (hm : Moved o c m c') (hp : Prompt k c m)
    (hput : ∀ pc ∈ c.clients, putting pc ≠ some k)
    (hgone : c.state.index[k]? = none ∨ ∃ pc ∈ c.clients, deleting pc = some k)
    (h : Clear k c.state) : Clear k c'.state := by
  cases hm with
  | call => exact h
  | go hj hs =>
    intro d' hd'
    obtain ⟨d, hd, ht⟩ := stepped_touched hs hd'
    refine ht.absent (fun hi => ?_) (h d hd)
    obtain hk | hf := inserting_cases hi
    · exact hput _ (List.mem_of_getElem? hj) hk
    · obtain hn | ⟨hi, hdel⟩ := hp _ hj hf hi
      · rw [Option.mem_def.mp hd] at hn
        cases hn
      · obtain hgone | ⟨pc, hpc, hk⟩ := hgone
        · rw [hgone] at hi
          cases hi
        · exact hdel pc hpc hk

theorem eraseAt_clear (h : ∀ d ∈ s.cache, Distinct d) : Clear k (eraseAt s .data k) := by
  intro d' hd'
  rw [eraseAt] at hd'
  split at hd'
  · rename_i hc
    rw [show s.cache = none from hc] at hd'
    cases hd'
  · rename_i d hd
    cases hd'
    exact erase_absent (h d hd) k

structure Erasing (k : Key) (i : Nat) (c : Config) : Prop where
  distinct : ∀ d ∈ c.state.cache, Distinct d
  unput : ∀ pc ∈ c.clients, putting pc ≠ some k
  clear : ∀ pc, c.clients[i]? = some pc → deleting pc = some k → Clear k c.state

structure Deleted (k : Key) (c : Config) : Prop where
  unput : ∀ pc ∈ c.clients, putting pc ≠ some k
  clear : Clear k c.state
  index : c.state.index[k]? = none

theorem move_erasing (hm : Moved o c m c') (hc : ∀ i v, m ≠ .call i (.put k v))
    (hp : Prompt k c m) (h : Erasing k i c) : Erasing k i c' where
  distinct := move_distinct hm h.distinct
  unput := move_putting hm hc h.unput
  clear pc hi hk := by
    have hold : ∀ a, c.clients[i]? = some a → deleting a = some k → Clear k c'.state :=
      fun a ha hd => move_clear hm hp h.unput (Or.inr ⟨a, List.mem_of_getElem? ha, hd⟩)
        (h.clear a ha hd)
    obtain ⟨ho, -⟩ | ⟨op, rfl, rfl⟩ | ⟨a, es, -, ha, hs⟩ := move_client hm hi
    · exact hold pc ho hk
    · cases op with
      | put k v | delete k | get k | flush => cases hk
    · obtain hd | he := stepped_deleting hs hk
      · exact hold a ha hd
      · rw [he]
        exact eraseAt_clear h.distinct

theorem erasing_return (h : Erasing k i c) (hi : c.clients[i]? = some (.deleteIndex k))
    (hr : move o c (.go i) = some c') : Deleted k c' := by
  have hm := moved_of_move hr
  have hclear := h.clear _ hi rfl
  refine ⟨move_putting hm nofun h.unput, ?_, ?_⟩
  · cases hm with
    | go hj hs =>
      cases hi.symm.trans hj
      cases hs with
      | deleteIndex => exact hclear
  · cases hm with
    | go hj hs =>
      cases hi.symm.trans hj
      cases hs with
      | deleteIndex => exact (getElem?_erase _ _ _).trans (if_pos rfl)

theorem move_deleted (hm : Moved o c m c') (hc : ∀ i v, m ≠ .call i (.put k v))
    (hp : Prompt k c m) (h : Deleted k c) : Deleted k c' where
  unput := move_putting hm hc h.unput
  clear := move_clear hm hp h.unput (Or.inl h.index) h.clear
  index := by
    cases hm with
    | call => exact h.index
    | go hj hs => exact stepped_index hs (h.unput _ (List.mem_of_getElem? hj)) h.index

theorem Clear.lookup (h : Clear k s) : (lookupAt s .data k).2 = none := by
  rw [lookupAt]
  split
  · rfl
  · rename_i d hd
    exact (h d hd).lookup

theorem move_unfound (hm : Moved o c m c') (h : Deleted k c)
    (hj : ∀ pc, c.clients[j]? = some pc → found pc ≠ some k) :
    ∀ pc, c'.clients[j]? = some pc → found pc ≠ some k := by
  intro pc hpc hk
  obtain ⟨ho, -⟩ | ⟨op, rfl, rfl⟩ | ⟨a, es, -, ha, hs⟩ := move_client hm hpc
  · exact hj pc ho hk
  · cases op with
    | put k v | delete k | get k | flush => cases hk
  · obtain hf | hf | hf := stepped_found hs hk
    · exact hj a ha hf
    · exact hf h.clear.lookup
    · exact hf h.index

theorem openClients_distinct (o : Options) (mem : Fin 4 → Nat → UInt8) (n : Nat) :
    ∀ d ∈ (openClients o mem n).state.cache, Distinct d := by
  intro d hd
  obtain ⟨-, hd⟩ := Option.ite_none_right_eq_some.mp hd
  cases hd
  exact new_distinct _ _ _

theorem run_erasing {b : List Move} (hput : ∀ i v, .call i (.put k v) ∉ b)
    (hp : AlongM (move o) (Prompt k) c b) (h : Erasing k i c)
    (hr : b.foldlM (move o) c = some c') : Erasing k i c' := by
  refine hp.keeps ?_ h hr
  intro c m hm c' h hp hs
  refine move_erasing (moved_of_move hs) ?_ hp h
  rintro i v rfl
  exact hput i v hm

theorem run_deleted {x : List Move} (hput : ∀ i v, .call i (.put k v) ∉ x)
    (hp : AlongM (move o) (Prompt k) c x) (h : Deleted k c)
    (hr : x.foldlM (move o) c = some c') : Deleted k c' := by
  refine hp.keeps ?_ h hr
  intro c m hm c' h hp hs
  refine move_deleted (moved_of_move hs) ?_ hp h
  rintro i v rfl
  exact hput i v hm

theorem run_unfound {y : List Move} (hput : ∀ i v, .call i (.put k v) ∉ y)
    (hp : AlongM (move o) (Prompt k) c y) (h : Deleted k c)
    (hj : ∀ pc, c.clients[j]? = some pc → found pc ≠ some k)
    (hr : y.foldlM (move o) c = some c') :
    ∀ pc, c'.clients[j]? = some pc → found pc ≠ some k := by
  refine (hp.keeps (I := fun c => Deleted k c ∧
    ∀ pc, c.clients[j]? = some pc → found pc ≠ some k) ?_ ⟨h, hj⟩ hr).2
  intro c m hm c' h hp hs
  have hmv := moved_of_move hs
  refine ⟨move_deleted hmv ?_ hp h.1, move_unfound hmv h.1 h.2⟩
  rintro i v rfl
  exact hput i v hm

/-- A `Delete` starts when no `Put` of its key is under way and none starts
afterwards. If every `Get` that inserts the key into the data cache does so while
the record of the key is current, a `Get` that starts after the `Delete` has
returned answers `NotFound`. -/
theorem deleted_not_found {mem : Fin 4 → Nat → UInt8} {n : Nat} {a b x y : List Move}
    {c₀ c₁ c₂ d d' : Config} {ans : Answer}
    (ha : a.foldlM (move o) (openClients o mem n) = some c₀)
    (hun : ∀ pc ∈ c₀.clients, putting pc ≠ some k)
    (hb : (.call i (.delete k) :: b).foldlM (move o) c₀ = some c₁)
    (hi : c₁.clients[i]? = some (.deleteIndex k)) (hret : move o c₁ (.go i) = some c₂)
    (hx : (x ++ .call j (.get k) :: y).foldlM (move o) c₂ = some d)
    (hgo : move o d (.go j) = some d') (he : d'.events = d.events ++ [.answer k ans])
    (hput : ∀ i v, .call i (.put k v) ∉ b ++ (x ++ y))
    (hp : AlongM (move o) (Prompt k) c₀
      ((.call i (.delete k) :: b) ++ .go i :: (x ++ .call j (.get k) :: y))) :
    ans = .notFound := by
  simp only [List.mem_append, not_or] at hput
  have hdis : ∀ d ∈ c₀.state.cache, Distinct d :=
    foldlM_invariant (fun _ _ _ _ h hs => move_distinct (moved_of_move hs) h)
      (openClients_distinct o mem n) ha
  obtain ⟨hp₁, hp₂, hp₃⟩ := hp.append hb
  rw [List.foldlM_cons] at hb
  obtain ⟨c, hc, hb⟩ := Option.bind_eq_some_iff.mp hb
  have hdel : Erasing k i c := by
    refine move_erasing (moved_of_move hc) nofun hp₁.1 ⟨hdis, hun, ?_⟩
    intro pc hpc hk
    cases (idle_of_call (moved_of_move hc)).symm.trans hpc
    cases hk
  have h₁ := run_erasing (fun i v => (hput i v).1) (hp₁.2 c hc) hdel hb
  have h₂ := erasing_return h₁ hi hret
  rw [List.foldlM_append] at hx
  obtain ⟨c₃, hx, hy⟩ := Option.bind_eq_some_iff.mp hx
  obtain ⟨hp₃, hp₄, hp₅⟩ := (hp₃ c₂ hret).append hx
  have h₃ := run_deleted (fun i v => (hput i v).2.1) hp₃ h₂ hx
  rw [List.foldlM_cons] at hy
  obtain ⟨c₄, hc₄, hy⟩ := Option.bind_eq_some_iff.mp hy
  have hm := moved_of_move hc₄
  have hj : ∀ pc, c₄.clients[j]? = some pc → found pc ≠ some k := by
    refine move_unfound hm h₃ ?_
    intro pc hpc hk
    cases (idle_of_call hm).symm.trans hpc
    cases hk
  have hf := run_unfound (fun i v => (hput i v).2.2) (hp₅ c₄ hc₄)
    (move_deleted hm nofun hp₄ h₃) hj hy
  have hm := moved_of_move hgo
  cases hm with
  | go hpc hs => exact stepped_answer hs (List.append_cancel_left he) (hf _ hpc)

def flushedPut : List Move :=
  .call 0 (.put [7] [1]) :: List.replicate 6 (.go 0) ++ (.call 0 .flush :: List.replicate 5 (.go 0))

/-- A `Delete` up to its last step, and a `Get` that starts after it, with some
moves between. -/
def seen (o : Options) (a b y : List Move) :
    Option (List Pc × Option Pc × List Event × List Event) := do
  let c₀ ← a.foldlM (move o) (openClients o (fun _ _ => 0) 2)
  let c₁ ← (.call 0 (.delete [7]) :: b).foldlM (move o) c₀
  let c₂ ← move o c₁ (.go 0)
  let d ← (.call 1 (.get [7]) :: y).foldlM (move o) c₂
  let d' ← move o d (.go 1)
  return (c₀.clients, c₁.clients[0]?, d.events, d'.events)

theorem seen_eq_some {a b y : List Move} {clients : List Pc} {pc : Option Pc}
    {before after : List Event} (h : seen o a b y = some (clients, pc, before, after)) :
    ∃ c₀ c₁ c₂ d d', a.foldlM (move o) (openClients o (fun _ _ => 0) 2) = some c₀ ∧
      c₀.clients = clients ∧ (.call 0 (.delete [7]) :: b).foldlM (move o) c₀ = some c₁ ∧
      c₁.clients[0]? = pc ∧ move o c₁ (.go 0) = some c₂ ∧
      (.call 1 (.get [7]) :: y).foldlM (move o) c₂ = some d ∧
      move o d (.go 1) = some d' ∧ d.events = before ∧ d'.events = after := by
  obtain ⟨c₀, h₀, h⟩ := Option.bind_eq_some_iff.mp h
  obtain ⟨c₁, h₁, h⟩ := Option.bind_eq_some_iff.mp h
  obtain ⟨c₂, h₂, h⟩ := Option.bind_eq_some_iff.mp h
  obtain ⟨d, hd, h⟩ := Option.bind_eq_some_iff.mp h
  obtain ⟨d', hd', h⟩ := Option.bind_eq_some_iff.mp h
  cases h
  exact ⟨c₀, c₁, c₂, d, d', h₀, rfl, h₁, rfl, h₂, hd, hd', rfl, rfl⟩

theorem deleted_not_found_one :
    ∃ c₀ c₁ c₂ d d', flushedPut.foldlM (move ⟨16384, 16⟩)
        (openClients ⟨16384, 16⟩ (fun _ _ => 0) 2) = some c₀ ∧
      (.call 0 (.delete [7]) :: (.call 1 (.get [7]) :: List.replicate 3 (.go 1) ++
        [.go 0, .go 0])).foldlM (move ⟨16384, 16⟩) c₀ = some c₁ ∧
      c₁.clients[0]? = some (.deleteIndex [7]) ∧ move ⟨16384, 16⟩ c₁ (.go 0) = some c₂ ∧
      [.call 1 (.get [7]), .go 1].foldlM (move ⟨16384, 16⟩) c₂ = some d ∧
      move ⟨16384, 16⟩ d (.go 1) = some d' ∧
      ∃ ans, d'.events = d.events ++ [.answer [7] ans] ∧ ans = .notFound := by
  have hseen : seen ⟨16384, 16⟩ flushedPut (.call 1 (.get [7]) :: List.replicate 3 (.go 1) ++
      [.go 0, .go 0]) [.go 1] = some ([.idle, .idle], some (.deleteIndex [7]),
        [.start [7] [1], .answer [7] (.ok [1])],
        [.start [7] [1], .answer [7] (.ok [1]), .answer [7] .notFound]) := by
    decide +kernel
  obtain ⟨c₀, c₁, c₂, d, d', h₀, hc, h₁, hi, h₂, hd, hd', hb, ha⟩ := seen_eq_some hseen
  have he : d'.events = d.events ++ [.answer [7] .notFound] := by
    rw [hb, ha]
    rfl
  refine ⟨c₀, c₁, c₂, d, d', h₀, h₁, hi, h₂, hd, hd', .notFound, he,
    deleted_not_found (x := []) h₀ ?_ h₁ hi h₂ hd hd' he ?_ ?_⟩
  · rw [hc]
    decide
  · simp
  · have hp : AlongM (move ⟨16384, 16⟩) (Prompt [7]) (openClients ⟨16384, 16⟩ (fun _ _ => 0) 2)
        (flushedPut ++ ((.call 0 (.delete [7]) :: (.call 1 (.get [7]) :: List.replicate 3 (.go 1) ++
          [.go 0, .go 0])) ++ [.go 0, .call 1 (.get [7]), .go 1])) := by
      decide +kernel
    exact (hp.append h₀).2

/-- The `Get` looks at the index between the second and the third step of the
`Delete`, and puts what it finds back into the data cache. -/
theorem deleted_key_returns :
    ∃ c₀ c₁ c₂ d d', flushedPut.foldlM (move ⟨16384, 16⟩)
        (openClients ⟨16384, 16⟩ (fun _ _ => 0) 2) = some c₀ ∧
      (∀ pc ∈ c₀.clients, putting pc ≠ some [7]) ∧
      (.call 0 (.delete [7]) :: ([.go 0, .go 0, .call 1 (.get [7])] ++
        List.replicate 6 (.go 1))).foldlM (move ⟨16384, 16⟩) c₀ = some c₁ ∧
      c₁.clients[0]? = some (.deleteIndex [7]) ∧ move ⟨16384, 16⟩ c₁ (.go 0) = some c₂ ∧
      [.call 1 (.get [7]), .go 1, .go 1].foldlM (move ⟨16384, 16⟩) c₂ = some d ∧
      move ⟨16384, 16⟩ d (.go 1) = some d' ∧
      d'.events = d.events ++ [.answer [7] (.ok [1])] := by
  have hseen : seen ⟨16384, 16⟩ flushedPut ([.go 0, .go 0, .call 1 (.get [7])] ++
      List.replicate 6 (.go 1)) [.go 1, .go 1] = some ([.idle, .idle], some (.deleteIndex [7]),
        [.start [7] [1], .answer [7] (.ok [1])],
        [.start [7] [1], .answer [7] (.ok [1]), .answer [7] (.ok [1])]) := by
    decide +kernel
  obtain ⟨c₀, c₁, c₂, d, d', h₀, hc, h₁, hi, h₂, hd, hd', hb, ha⟩ := seen_eq_some hseen
  refine ⟨c₀, c₁, c₂, d, d', h₀, ?_, h₁, hi, h₂, hd, hd', ?_⟩
  · rw [hc]
    decide
  · rw [hb, ha]
    rfl

end WiscKey.Resurrection
