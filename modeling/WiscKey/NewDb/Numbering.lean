import WiscKey.Runs
import WiscKey.NewDb.CollectSpec
import WiscKey.NewDb.Moves

namespace WiscKey.NewDb.Numbering

open WiscKey.Maps WiscKey.Runs WiscKey.Vectors WiscKey.NewDb.Model WiscKey.NewDb.Collect
  WiscKey.NewDb.CollectSpec WiscKey.NewDb.Concurrent WiscKey.NewDb.Moves

def number : Pc → Option UInt64
  | .putKey _ _ p | .putValue _ _ p => some p
  | _ => none

/-- What a client knows about the number it has, where `pub` are the numbers
that have been in `keydb_`. -/
def Fine (drawn : List (Key × Value)) (s : State) (pub : Set UInt64) : Pc → Prop
  | .putPush k _ p | .getValue k p => p ∈ pub ∧ ∃ v, drawn[p.toNat]? = some (k, v)
  | .putKey k v p => p ∉ pub ∧ drawn[p.toNat]? = some (k, v) ∧ s.valuedb[p]? = none
  | .putValue k v p => p ∈ pub ∧ drawn[p.toNat]? = some (k, v) ∧ s.valuedb[p]? = none
  | _ => True

/-- Every number in use belongs to one `Put`. -/
structure Numbered (s : State) (clients : List Pc) (drawn : List (Key × Value))
    (pub : Set UInt64) : Prop where
  sequence : s.sequence = UInt64.ofNat drawn.length
  drew : ∀ p ∈ pub, p.toNat < drawn.length
  keydb : ∀ (k : Key) (p : UInt64), s.keydb[k]? = some p →
    p ∈ pub ∧ ∃ v, drawn[p.toNat]? = some (k, v)
  valuedb : ∀ (p : UInt64) (pval : List UInt8), s.valuedb[p]? = some pval →
    ∃ k v, drawn[p.toNat]? = some (k, v) ∧ pval = encode k v
  garbage : ∀ p ∈ s.phyKeysForGc, p ∈ pub
  fine : ∀ pc ∈ clients, Fine drawn s pub pc
  distinct : (clients.filterMap number).Nodup

variable {s s' : State} {ok : Bool} {pc pc' : Pc} {r : Option Result} {pre post clients : List Pc}
  {drawn : List (Key × Value)} {pub pub' : Set UInt64} {k : Key} {v : Value} {p : UInt64}

theorem getElem?_append_of_some {α : Type*} {l extra : List α} {i : Nat} {a : α}
    (h : l[i]? = some a) : (l ++ extra)[i]? = some a := by
  obtain ⟨hi, -⟩ := List.getElem?_eq_some_iff.mp h
  rw [List.getElem?_append_left hi, h]

theorem Fine.later {extra : List (Key × Value)} (h : Fine drawn s pub pc) (hpub : pub ⊆ pub')
    (hn : ∀ p, number pc = some p → (p ∉ pub → p ∉ pub') ∧ s'.valuedb[p]? = s.valuedb[p]?) :
    Fine (drawn ++ extra) s' pub' pc := by
  cases pc with
  | putPush k v p | getValue k p =>
    obtain ⟨hp, v, hv⟩ := h
    exact ⟨hpub hp, v, getElem?_append_of_some hv⟩
  | putKey k v p =>
    obtain ⟨hp, hv, h0⟩ := h
    exact ⟨(hn p rfl).1 hp, getElem?_append_of_some hv, (hn p rfl).2.trans h0⟩
  | putValue k v p =>
    obtain ⟨hp, hv, h0⟩ := h
    exact ⟨hpub hp, getElem?_append_of_some hv, (hn p rfl).2.trans h0⟩
  | idle | putRead k v n | putDraw k v | deleteKey k | getKey k => trivial

theorem distinct_iff : ((pre ++ pc :: post).filterMap number).Nodup ↔
    ((pre ++ post).filterMap number).Nodup ∧
      ∀ p, number pc = some p → p ∉ (pre ++ post).filterMap number := by
  have hp : ((pre ++ pc :: post).filterMap number).Perm
      ((number pc).toList ++ (pre ++ post).filterMap number) := by
    refine (List.perm_middle.filterMap number).trans (List.Perm.of_eq ?_)
    rw [List.filterMap_cons]
    cases number pc with
    | none => rfl
    | some p => rfl
  rw [hp.nodup_iff]
  cases number pc with
  | none => simp
  | some p => simp [and_comm]

theorem mem_append_cons_iff {q : Pc → Prop} : (∀ a ∈ pre ++ pc :: post, q a) ↔
    q pc ∧ ∀ a ∈ pre ++ post, q a := by
  simp only [List.mem_append, List.mem_cons]
  grind

theorem Numbered.step {extra : List (Key × Value)} (h : Numbered s (pre ++ pc :: post) drawn pub)
    (hseq : s'.sequence = UInt64.ofNat (drawn ++ extra).length) (hpub : pub ⊆ pub')
    (hdrew : ∀ p ∈ pub', p ∈ pub ∨ p.toNat < (drawn ++ extra).length)
    (hkey : ∀ (k : Key) (p : UInt64), s'.keydb[k]? = some p → s.keydb[k]? = some p ∨
      p ∈ pub' ∧ ∃ v, (drawn ++ extra)[p.toNat]? = some (k, v))
    (hval : ∀ (p : UInt64) (pval : List UInt8), s'.valuedb[p]? = some pval →
      s.valuedb[p]? = some pval ∨
        ∃ k v, (drawn ++ extra)[p.toNat]? = some (k, v) ∧ pval = encode k v)
    (hgar : ∀ p ∈ s'.phyKeysForGc, p ∈ s.phyKeysForGc ∨ p ∈ pub')
    (hfine : Fine (drawn ++ extra) s' pub' pc')
    (hother : ∀ a ∈ pre ++ post, ∀ p, number a = some p →
      (p ∉ pub → p ∉ pub') ∧ s'.valuedb[p]? = s.valuedb[p]?)
    (hnew : ∀ p, number pc' = some p → number pc = some p ∨ p ∉ (pre ++ post).filterMap number) :
    Numbered s' (pre ++ pc' :: post) (drawn ++ extra) pub' where
  sequence := hseq
  drew p hp := by
    obtain hp | hp := hdrew p hp
    · exact (h.drew p hp).trans_le (by simp)
    · exact hp
  keydb k p hp := by
    obtain hp | hp := hkey k p hp
    · obtain ⟨hp, v, hv⟩ := h.keydb k p hp
      exact ⟨hpub hp, v, getElem?_append_of_some hv⟩
    · exact hp
  valuedb p pval hp := by
    obtain hp | hp := hval p pval hp
    · obtain ⟨k, v, hv, he⟩ := h.valuedb p pval hp
      exact ⟨k, v, getElem?_append_of_some hv, he⟩
    · exact hp
  garbage p hp := by
    obtain hp | hp := hgar p hp
    · exact hpub (h.garbage p hp)
    · exact hp
  fine := by
    obtain ⟨-, hf⟩ := mem_append_cons_iff.mp h.fine
    exact mem_append_cons_iff.mpr ⟨hfine, fun a ha => (hf a ha).later hpub (hother a ha)⟩
  distinct := by
    obtain ⟨hd, hp⟩ := distinct_iff.mp h.distinct
    refine distinct_iff.mpr ⟨hd, fun p hn => ?_⟩
    obtain ho | ho := hnew p hn
    · exact hp p ho
    · exact ho

theorem Numbered.quiet (h : Numbered s (pre ++ pc :: post) drawn pub)
    (hfine : Fine drawn s pub pc') (hn : ∀ p, number pc' = some p → number pc = some p) :
    Numbered s (pre ++ pc' :: post) (drawn ++ []) pub := by
  refine h.step ?_ subset_rfl (fun p hp => Or.inl hp) (fun k p hp => Or.inl hp)
    (fun p pval hp => Or.inl hp) (fun p hp => Or.inl hp) ?_ (fun a _ p _ => ⟨id, rfl⟩)
    (fun p hp => Or.inl (hn p hp))
  · rw [List.append_nil]
    exact h.sequence
  · rw [List.append_nil]
    exact hfine

theorem Numbered.fine_self (h : Numbered s (pre ++ pc :: post) drawn pub) : Fine drawn s pub pc :=
  h.fine pc (by simp)

theorem Numbered.push (h : Numbered s (pre ++ .putPush k v p :: post) drawn pub) :
    Numbered (s.collectOld (some p)) (pre ++ .putDraw k v :: post) (drawn ++ []) pub := by
  refine h.step ?_ subset_rfl (fun p hp => Or.inl hp) (fun k p hp => Or.inl hp)
    (fun p pval hp => Or.inl hp) ?_ trivial (fun a _ p _ => ⟨id, rfl⟩) (fun p hp => by cases hp)
  · rw [List.append_nil]
    exact h.sequence
  · intro q hq
    obtain hq | hq := List.mem_append.mp hq
    · exact Or.inl hq
    · obtain rfl := List.mem_singleton.mp hq
      exact Or.inr h.fine_self.1

theorem Numbered.fresh (h : Numbered s clients drawn pub) (hd : drawn.length < 2 ^ 64) :
    s.sequence.toNat = drawn.length := by
  rw [h.sequence, UInt64.toNat_ofNat_of_lt' hd]

theorem Fine.number_lt (h : Fine drawn s pub pc) (hn : number pc = some p) :
    p.toNat < drawn.length := by
  cases pc with
  | putKey k v q | putValue k v q =>
    cases hn
    exact (List.getElem?_eq_some_iff.mp h.2.1).1
  | idle | putRead k v n | putPush k v q | putDraw k v | deleteKey k | getKey k | getValue k q =>
    cases hn

theorem Numbered.draw (h : Numbered s (pre ++ .putDraw k v :: post) drawn pub)
    (hd : drawn.length < 2 ^ 64) :
    Numbered s.getNewSeq.1 (pre ++ .putKey k v s.sequence :: post) (drawn ++ [(k, v)]) pub := by
  have hs := h.fresh hd
  have hnone : s.valuedb[s.sequence]? = none := by
    cases hv : s.valuedb[s.sequence]? with
    | none => rfl
    | some pval =>
      obtain ⟨k', w, hw, -⟩ := h.valuedb _ _ hv
      rw [hs, List.getElem?_eq_none le_rfl] at hw
      cases hw
  refine h.step ?_ subset_rfl (fun p hp => Or.inl hp) (fun k p hp => Or.inl hp)
    (fun p pval hp => Or.inl hp) (fun p hp => Or.inl hp) ?_ (fun a _ p _ => ⟨id, rfl⟩) ?_
  · simp only [State.getNewSeq, h.sequence, List.length_append, List.length_singleton,
      UInt64.ofNat_add]
    rfl
  · refine ⟨fun hp => ?_, ?_, hnone⟩
    · have hlt := h.drew _ hp
      omega
    · simp [hs]
  · rintro p ⟨⟩
    refine Or.inr ?_
    intro hm
    obtain ⟨a, ha, hn⟩ := List.mem_filterMap.mp hm
    have hf := (mem_append_cons_iff.mp h.fine).2 a ha
    have hlt := hf.number_lt hn
    omega

theorem Numbered.keyOk (h : Numbered s (pre ++ .putKey k v p :: post) drawn pub) :
    Numbered (s.putKey k p) (pre ++ .putValue k v p :: post) (drawn ++ []) (insert p pub) := by
  obtain ⟨hp, hv, h0⟩ := h.fine_self
  refine h.step ?_ (Set.subset_insert p pub) ?_ ?_ (fun p pval hp => Or.inl hp)
    (fun p hp => Or.inl hp) ?_ ?_ (fun q hq => Or.inl hq)
  · rw [List.append_nil]
    exact h.sequence
  · rintro q (rfl | hq)
    · exact Or.inr ((Fine.number_lt h.fine_self rfl).trans_le (by simp))
    · exact Or.inl hq
  · intro k' q hq
    rw [State.putKey, getElem?_insert] at hq
    split at hq
    · rename_i hk
      cases hq
      exact Or.inr ⟨Set.mem_insert p pub, v, by rw [List.append_nil, hv, hk]⟩
    · exact Or.inl hq
  · rw [List.append_nil]
    exact ⟨Set.mem_insert p pub, hv, h0⟩
  · intro a ha q hq
    refine ⟨fun hn hm => ?_, rfl⟩
    obtain rfl | hm := hm
    · exact (distinct_iff.mp h.distinct).2 q rfl (List.mem_filterMap.mpr ⟨a, ha, hq⟩)
    · exact hn hm

theorem Numbered.valueOk (h : Numbered s (pre ++ .putValue k v p :: post) drawn pub) :
    Numbered (s.putValue p (encode k v)) (pre ++ .idle :: post) (drawn ++ []) pub := by
  obtain ⟨hp, hv, h0⟩ := h.fine_self
  refine h.step ?_ subset_rfl (fun p hp => Or.inl hp) (fun k p hp => Or.inl hp) ?_
    (fun p hp => Or.inl hp) trivial ?_ (fun p hp => by cases hp)
  · rw [List.append_nil]
    exact h.sequence
  · intro q pval hq
    rw [State.putValue, getElem?_insert] at hq
    split at hq
    · rename_i he
      cases hq
      exact Or.inr ⟨k, v, by rw [List.append_nil, ← he, hv], rfl⟩
    · exact Or.inl hq
  · intro a ha q hq
    refine ⟨id, ?_⟩
    rw [State.putValue, getElem?_insert, if_neg]
    rintro rfl
    exact (distinct_iff.mp h.distinct).2 p rfl (List.mem_filterMap.mpr ⟨a, ha, hq⟩)

theorem Numbered.deleteOk (h : Numbered s (pre ++ .deleteKey k :: post) drawn pub) :
    Numbered (s.deleteKey k) (pre ++ .idle :: post) (drawn ++ []) pub := by
  refine h.step ?_ subset_rfl (fun p hp => Or.inl hp) ?_ (fun p pval hp => Or.inl hp)
    (fun p hp => Or.inl hp) trivial (fun a _ p _ => ⟨id, rfl⟩) (fun p hp => by cases hp)
  · rw [List.append_nil]
    exact h.sequence
  · intro k' q hq
    rw [State.deleteKey, getElem?_erase] at hq
    split at hq
    · cases hq
    · exact Or.inl hq

theorem stepped_numbered (h : Numbered s (pre ++ pc :: post) drawn pub)
    (hs : Stepped s ok pc s' pc' r) (hd : (drawn ++ draws pc).length ≤ 2 ^ 64) :
    ∃ pub', pub ⊆ pub' ∧ Numbered s' (pre ++ pc' :: post) (drawn ++ draws pc) pub' := by
  cases hs with
  | readHit hk => exact ⟨pub, subset_rfl, h.quiet (h.keydb _ _ hk) (fun p hp => by cases hp)⟩
  | getHit hk => exact ⟨pub, subset_rfl, h.quiet (h.keydb _ _ hk) (fun p hp => by cases hp)⟩
  | push => exact ⟨pub, subset_rfl, h.push⟩
  | draw =>
    rw [draws, List.length_append, List.length_singleton] at hd
    exact ⟨pub, subset_rfl, h.draw hd⟩
  | keyOk => exact ⟨_, Set.subset_insert _ pub, h.keyOk⟩
  | valueOk => exact ⟨pub, subset_rfl, h.valueOk⟩
  | deleteOk => exact ⟨pub, subset_rfl, h.deleteOk⟩
  | readMiss | retry | keyFail | valueFail | deleteFail | getMiss | valueHit | valueMiss =>
    exact ⟨pub, subset_rfl, h.quiet trivial (fun p hp => by cases hp)⟩

variable {c c' : Config} {m : Move}

theorem compact_sub {l : Loop} {cf : CompactFiles} {valuedb : Std.ExtTreeMap UInt64 (List UInt8)}
    {pval : List UInt8} (h : (l.compact cf valuedb)[p]? = some pval) : valuedb[p]? = some pval := by
  unfold Loop.compact at h
  split at h
  · split at h
    · exact h
    · rw [rewrite, Std.ExtTreeMap.getElem?_filter'] at h
      exact (Option.filter_eq_some_iff.mp h).1
  · exact h

theorem Numbered.shrink (h : Numbered s clients drawn pub) (hseq : s'.sequence = s.sequence)
    (hkey : s'.keydb = s.keydb)
    (hval : ∀ (p : UInt64) (pval : List UInt8), s'.valuedb[p]? = some pval →
      s.valuedb[p]? = some pval)
    (hgar : s'.phyKeysForGc ⊆ s.phyKeysForGc) : Numbered s' clients drawn pub where
  sequence := hseq.trans h.sequence
  drew := h.drew
  keydb k p hp := h.keydb k p (hkey ▸ hp)
  valuedb p pval hp := h.valuedb p pval (hval p pval hp)
  garbage p hp := h.garbage p (hgar hp)
  fine pc hpc := by
    have hnone : ∀ p : UInt64, s.valuedb[p]? = none → s'.valuedb[p]? = none := by
      intro p h0
      cases hv : s'.valuedb[p]? with
      | none => rfl
      | some pval =>
        rw [hval p pval hv] at h0
        cases h0
    have hf := h.fine pc hpc
    cases pc with
    | putKey k v p | putValue k v p => exact ⟨hf.1, hf.2.1, hnone p hf.2.2⟩
    | idle | putRead k v n | putPush k v q | putDraw k v | deleteKey k | getKey k | getValue k q =>
      exact hf
  distinct := h.distinct

theorem move_numbered (h : Numbered c.state c.clients c.drawn pub) (hm : Moved c m c')
    (hd : c'.drawn.length ≤ 2 ^ 64) :
    ∃ pub', pub ⊆ pub' ∧ Numbered c'.state c'.clients c'.drawn pub' := by
  cases hm with
  | @call j call hj =>
    obtain ⟨pre, post, he, hset⟩ := split_at hj
    rw [he] at h
    have hq : Numbered c.state (pre ++ begin call :: post) (c.drawn ++ []) pub := by
      cases call with
      | put k v | delete k | get k => exact h.quiet trivial (fun p hp => by cases hp)
    rw [List.append_nil] at hq
    refine ⟨pub, subset_rfl, ?_⟩
    rw [hset]
    exact hq
  | go hj hs =>
    obtain ⟨pre, post, he, hset⟩ := split_at hj
    rw [he] at h
    rw [hset]
    exact stepped_numbered h hs hd
  | sort hg =>
    exact ⟨pub, subset_rfl, h.shrink rfl rfl (fun _ _ => id) (sortedKeys_perm _).subset⟩
  | measure | gather => exact ⟨pub, subset_rfl, h⟩
  | compact =>
    exact ⟨pub, subset_rfl, h.shrink rfl rfl (fun _ _ => compact_sub) (List.Subset.refl _)⟩
  | erase hw hf hr =>
    exact ⟨pub, subset_rfl, h.shrink rfl rfl (fun _ _ => id) (eraseRanges_eq_some hr).1⟩

theorem openClients_numbered (n : Nat) :
    Numbered (openClients n).state (openClients n).clients (openClients n).drawn ∅ where
  sequence := rfl
  drew p hp := hp.elim
  keydb k p hp := by simp [openClients, openFresh] at hp
  valuedb p pval hp := by simp [openClients, openFresh] at hp
  garbage p hp := by cases hp
  fine pc hpc := by
    rw [List.eq_of_mem_replicate hpc]
    trivial
  distinct := by
    have hn : (openClients n).clients.filterMap number = [] := by
      refine List.filterMap_eq_nil_iff.mpr (fun pc hpc => ?_)
      rw [List.eq_of_mem_replicate hpc]
      rfl
    rw [hn]
    exact List.nodup_nil

end WiscKey.NewDb.Numbering
