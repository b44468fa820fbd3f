import Mathlib

namespace WiscKey.Chains

variable {α β : Type*}

/-- The nodes that a walk along links comes through, from a head to the end. -/
def Chain (next : α → Option α) : Option α → List α → Prop
  | head, [] => head = none
  | head, a :: l => head = some a ∧ Chain next (next a) l

/-- All nodes of a chain, or nothing if a number of rounds is too small. -/
def collect (next : α → Option α) : Nat → Option α → Option (List α)
  | _, none => some []
  | 0, some _ => none
  | n + 1, some a => (collect next n (next a)).map (a :: ·)

def walk (next : α → Option α) (p : α → Bool) : Nat → Option α → Option (Option α)
  | _, none => some none
  | 0, some _ => none
  | n + 1, some a => if p a then some (some a) else walk next p n (next a)

def walkParent (next : α → Option α) (p : α → Bool) :
    Nat → Option α → Option α → Option (Option α × Option α)
  | _, parent, none => some (parent, none)
  | 0, _, some _ => none
  | n + 1, parent, some a =>
    if p a then some (parent, some a) else walkParent next p n (some a) (next a)

variable {next next' : α → Option α} {head : Option α} {l : List α} {a : α} {n : Nat}
  {p : α → Bool}

theorem Chain.congr (h : Chain next head l) (hn : ∀ a ∈ l, next' a = next a) :
    Chain next' head l := by
  induction l generalizing head with
  | nil => exact h
  | cons a l ih =>
    obtain ⟨ha, hl⟩ := List.forall_mem_cons.mp hn
    refine ⟨h.1, ?_⟩
    rw [ha]
    exact ih h.2 hl

theorem Chain.collect (h : Chain next head l) (hn : l.length ≤ n) :
    collect next n head = some l := by
  induction l generalizing head n with
  | nil =>
    cases h
    cases n <;> rfl
  | cons a l ih =>
    obtain ⟨rfl, hl⟩ := h
    cases n with
    | zero => cases hn
    | succ n => rw [Chains.collect, ih hl (Nat.le_of_succ_le_succ hn), Option.map_some]

theorem Chain.walk (h : Chain next head l) (hn : l.length ≤ n) :
    walk next p n head = some (l.find? p) := by
  induction l generalizing head n with
  | nil =>
    cases h
    cases n <;> rfl
  | cons a l ih =>
    obtain ⟨rfl, hl⟩ := h
    cases n with
    | zero => cases hn
    | succ n =>
      rw [Chains.walk, List.find?_cons]
      cases p a with
      | true => rfl
      | false => exact ih hl (Nat.le_of_succ_le_succ hn)

theorem Chain.walkParent_none (parent : Option α) (h : Chain next head l) (hn : l.length ≤ n)
    (hp : ∀ a ∈ l, p a = false) : ∃ q, walkParent next p n parent head = some (q, none) := by
  induction l generalizing head n parent with
  | nil =>
    cases h
    cases n <;> exact ⟨_, rfl⟩
  | cons a l ih =>
    obtain ⟨rfl, hl⟩ := h
    obtain ⟨ha, hp⟩ := List.forall_mem_cons.mp hp
    cases n with
    | zero => cases hn
    | succ n =>
      rw [walkParent, ha, if_neg Bool.false_ne_true]
      exact ih _ hl (Nat.le_of_succ_le_succ hn) hp

theorem Chain.walkParent {pre post : List α} (parent : Option α)
    (h : Chain next head (pre ++ a :: post)) (hn : (pre ++ a :: post).length ≤ n)
    (hp : ∀ b ∈ pre, p b = false) (ha : p a = true) :
    walkParent next p n parent head = some (pre.getLast?.or parent, some a) := by
  induction pre generalizing head n parent with
  | nil =>
    obtain ⟨rfl, hl⟩ := h
    cases n with
    | zero => cases hn
    | succ n =>
      rw [Chains.walkParent, ha, if_pos rfl]
      rfl
  | cons b pre ih =>
    obtain ⟨rfl, hl⟩ := h
    obtain ⟨hb, hp⟩ := List.forall_mem_cons.mp hp
    cases n with
    | zero => cases hn
    | succ n =>
      rw [Chains.walkParent, hb, if_neg Bool.false_ne_true,
        ih _ hl (Nat.le_of_succ_le_succ hn) hp, List.getLast?_cons]
      cases pre.getLast? <;> rfl

variable [DecidableEq α]

theorem Chain.update (h : Chain next head l) (ha : a ∉ l) (b : Option α) :
    Chain (Function.update next a b) head l := by
  refine h.congr (fun c hc => ?_)
  exact Function.update_of_ne (ne_of_mem_of_not_mem hc ha) _ _

theorem Chain.unlink {pre post : List α} {b : α} (h : Chain next head (pre ++ a :: b :: post))
    (hd : (pre ++ a :: b :: post).Nodup) :
    Chain (Function.update next a (next b)) head (pre ++ a :: post) := by
  induction pre generalizing head with
  | nil =>
    obtain ⟨hhead, -, hl⟩ := h
    refine ⟨hhead, ?_⟩
    rw [Function.update_self]
    apply hl.update
    rw [List.nil_append, List.nodup_cons] at hd
    exact fun hm => hd.1 (List.mem_cons_of_mem b hm)
  | cons c pre ih =>
    obtain ⟨hhead, hl⟩ := h
    rw [List.cons_append, List.nodup_cons] at hd
    refine ⟨hhead, ?_⟩
    have hne : c ≠ a := by
      rintro rfl
      exact hd.1 (List.mem_append_right _ List.mem_cons_self)
    rw [Function.update_of_ne hne]
    exact ih hl hd.2

structure Links (α β : Type*) where
  next : α → Option α
  heads : β → Option α

variable [DecidableEq β] {f g : α → β} {s s' : Links α β}

/-- Every node is in the chain it belongs to. -/
def Filed (f : α → β) (s : Links α β) (l : List α) : Prop :=
  ∀ b, Chain s.next (s.heads b) (l.filter fun a => f a = b)

def Links.push (f : α → β) (s : Links α β) (a : α) : Links α β where
  next := Function.update s.next a (s.heads (f a))
  heads := Function.update s.heads (f a) (some a)

def Links.unlink (s : Links α β) (b : β) (parent : Option α) (a : α) : Links α β :=
  match parent with
  | none => { s with heads := Function.update s.heads b (s.next a) }
  | some c => { s with next := Function.update s.next c (s.next a) }

/-- Push all nodes of a chain, each after its link was read. -/
def Links.refile (f : α → β) : Nat → Option α → Links α β → Option (Links α β)
  | _, none, s => some s
  | 0, some _, _ => none
  | n + 1, some a, s => Links.refile f n (s.next a) (s.push f a)

omit [DecidableEq α] in
theorem filed_nil (next : α → Option α) : Filed f ⟨next, fun _ => none⟩ [] := fun _ => rfl

theorem Filed.push (h : Filed f s l) (ha : a ∉ l) : Filed f (s.push f a) (a :: l) := by
  intro b
  have hl : a ∉ l.filter fun a => f a = b := fun hm => ha (List.mem_of_mem_filter hm)
  by_cases hb : f a = b
  · subst b
    rw [List.filter_cons_of_pos (by simp)]
    refine ⟨Function.update_self _ _ _, ?_⟩
    simp only [Links.push, Function.update_self]
    exact (h (f a)).update hl _
  · rw [List.filter_cons_of_neg (by simpa using hb)]
    simp only [Links.push, Function.update_of_ne (Ne.symm hb)]
    exact (h b).update hl _

theorem Filed.unlink {pre post : List α} {b : β} (h : Filed f s l) (hd : l.Nodup)
    (hl : (l.filter fun a => f a = b) = pre ++ a :: post) :
    Filed f (s.unlink b pre.getLast? a) (l.filter fun c => c ≠ a) := by
  have hmem : ∀ c ∈ pre ++ a :: post, f c = b := by
    intro c hc
    rw [← hl] at hc
    exact of_decide_eq_true (List.mem_filter.mp hc).2
  have hdl : (pre ++ a :: post).Nodup := hl ▸ hd.filter _
  intro b'
  rw [List.filter_comm]
  by_cases hb : b' = b
  · subst b'
    have hrest : ((pre ++ a :: post).filter fun c => c ≠ a) = pre ++ post := by
      obtain ⟨-, hcons, hdis⟩ := List.nodup_append.mp hdl
      rw [List.filter_append, List.filter_cons_of_neg (by simp), List.filter_eq_self.mpr,
        List.filter_eq_self.mpr]
      · exact fun c hc => decide_eq_true (ne_of_mem_of_not_mem hc (List.nodup_cons.mp hcons).1)
      · exact fun c hc => decide_eq_true (hdis c hc a List.mem_cons_self)
    have hb := h b
    rw [hl] at hb ⊢
    rw [hrest]
    obtain rfl | ⟨ini, c, rfl⟩ := List.eq_nil_or_concat pre
    · simp only [List.getLast?_nil, Links.unlink, Function.update_self, List.nil_append]
      exact hb.2
    · simp only [List.concat_eq_append, List.getLast?_concat, List.append_assoc,
        List.singleton_append, Links.unlink] at hb hdl ⊢
      exact hb.unlink hdl
  · have hrest : ((l.filter fun c => f c = b').filter fun c => c ≠ a) =
        l.filter fun c => f c = b' := by
      rw [List.filter_eq_self]
      intro c hc
      apply decide_eq_true
      rintro rfl
      have hfc := of_decide_eq_true (List.mem_filter.mp hc).2
      exact hb (hfc.symm.trans (hmem c (by simp)))
    rw [hrest]
    cases hp : pre.getLast? with
    | none =>
      simp only [Links.unlink, Function.update_of_ne hb]
      exact h b'
    | some c =>
      apply (h b').update
      intro hm
      have hc := hmem c (List.mem_append_left _ (List.mem_of_getLast? hp))
      exact hb ((of_decide_eq_true (List.mem_filter.mp hm).2).symm.trans hc)

/-- A chain is moved node by node while its links are overwritten. -/
theorem Filed.refile {r : List α} (hc : Chain s.next head r) (h : Filed f s l)
    (hd : (r ++ l).Nodup) (hn : r.length ≤ n) :
    ∃ s', Links.refile f n head s = some s' ∧ Filed f s' (r.reverse ++ l) ∧
      ∀ a ∉ r, s'.next a = s.next a := by
  induction r generalizing head s l n with
  | nil =>
    cases hc
    cases n <;> exact ⟨s, rfl, h, fun _ _ => rfl⟩
  | cons a r ih =>
    obtain ⟨rfl, hc⟩ := hc
    rw [List.cons_append, List.nodup_cons, List.mem_append, not_or] at hd
    cases n with
    | zero => cases hn
    | succ n =>
      have hmid : (r ++ a :: l).Nodup := by
        rw [List.nodup_middle, List.nodup_cons, List.mem_append, not_or]
        exact hd
      obtain ⟨s', hs, hf, hk⟩ := ih (hc.update hd.1.1 _) (h.push hd.1.2) hmid
        (Nat.le_of_succ_le_succ hn)
      refine ⟨s', hs, ?_, fun b hb => ?_⟩
      · rwa [List.reverse_cons, List.append_assoc]
      · rw [List.mem_cons, not_or] at hb
        rw [hk b hb.2]
        exact Function.update_of_ne hb.1 _ _

theorem Filed.refileAll {old : β → Option α} {rs : β → List α} (bs : List β)
    (hc : ∀ b ∈ bs, Chain s.next (old b) (rs b)) (h : Filed f s l)
    (hd : (bs.flatMap rs ++ l).Nodup) (hn : ∀ b ∈ bs, (rs b).length ≤ n) :
    ∃ s', bs.foldlM (fun s b => Links.refile f n (old b) s) s = some s' ∧
      Filed f s' ((bs.flatMap rs).reverse ++ l) := by
  induction bs generalizing s l with
  | nil => exact ⟨s, rfl, h⟩
  | cons b bs ih =>
    obtain ⟨hcb, hc⟩ := List.forall_mem_cons.mp hc
    obtain ⟨hnb, hn⟩ := List.forall_mem_cons.mp hn
    rw [List.flatMap_cons, List.append_assoc] at hd
    obtain ⟨hrb, hrest, hdis⟩ := List.nodup_append.mp hd
    have hbl : (rs b ++ l).Nodup := by
      refine List.nodup_append.mpr ⟨hrb, (List.nodup_append.mp hrest).2.1, ?_⟩
      exact fun a ha c hc => hdis a ha c (List.mem_append_right _ hc)
    obtain ⟨s₁, hs₁, hf₁, hk⟩ := h.refile hcb hbl hnb
    have hc₁ : ∀ b' ∈ bs, Chain s₁.next (old b') (rs b') := by
      intro b' hb'
      refine (hc b' hb').congr (fun a ha => hk a ?_)
      intro hm
      exact hdis a hm a (List.mem_append_left _ (List.mem_flatMap.mpr ⟨b', hb', ha⟩)) rfl
    have hd₁ : (bs.flatMap rs ++ ((rs b).reverse ++ l)).Nodup := by
      refine List.Perm.nodup ((List.perm_append_comm_assoc _ _ _).trans ?_) hd
      exact ((List.reverse_perm _).symm.append_right l).append_left _
    obtain ⟨s', hs, hf⟩ := ih hc₁ hf₁ hd₁ hn
    refine ⟨s', ?_, ?_⟩
    · rw [List.foldlM_cons, hs₁]
      exact hs
    · rwa [List.flatMap_cons, List.reverse_append, List.append_assoc]

end WiscKey.Chains
