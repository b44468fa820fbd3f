import WiscKey.Evict

namespace WiscKey.FrequencyList

open WiscKey.Evict

variable {α : Type}

/-- The entries that have been used equally often. A node is known by the address
it was allocated at, and addresses are not used twice. -/
structure Node (α : Type) where
  id : Nat
  frequency : Nat
  entries : List α
deriving DecidableEq

def Node.withEntries (f : List α → List α) (n : Node α) : Node α :=
  { n with entries := f n.entries }

def entries (l : List (Node α)) : List α := l.flatMap Node.entries

def next (first : Node α) (id : Nat) : List (Node α) → Option (Node α)
  | [] => none
  | n :: l => if n.id = id then some (l.headD first) else next first id l

def insertAfter (id : Nat) (m : Node α) : List (Node α) → List (Node α)
  | [] => []
  | n :: l => if n.id = id then n :: m :: l else n :: insertAfter id m l

def fileUnder (id : Nat) (a : α) (l : List (Node α)) : List (Node α) :=
  l.map fun n => if n.id = id then n.withEntries (· ++ [a]) else n

section Walk

variable (needs : Nat → Bool) (pinned : α → Bool) (spend : Nat → α → Nat)

/-- Take entries out of the front of a node up to one that is pinned, as long as
there is need. The result is what stays, what was taken out and what is used
then. -/
def takeFront : Nat → List α → List α × List α × Nat
  | usage, [] => ([], [], usage)
  | usage, a :: l =>
    if !pinned a && needs usage then
      let r := takeFront (spend usage a) l
      (r.1, a :: r.2.1, r.2.2)
    else (a :: l, [], usage)

structure Walk (α : Type) where
  nodes : List (Node α)
  out : List α
  deleted : List Nat
  usage : Nat

/-- Do the same node by node, and delete the nodes that are empty then. -/
def walk : Nat → List (Node α) → Walk α
  | usage, [] => ⟨[], [], [], usage⟩
  | usage, n :: l =>
    if needs usage then
      let r := takeFront needs pinned spend usage n.entries
      let w := walk r.2.2 l
      if r.1.isEmpty then ⟨w.nodes, r.2.1 ++ w.out, n.id :: w.deleted, w.usage⟩
      else ⟨{ n with entries := r.1 } :: w.nodes, r.2.1 ++ w.out, w.deleted, w.usage⟩
    else ⟨n :: l, [], [], usage⟩

end Walk

/-- A circle from its sentinel on. The frequencies increase, and an entry is filed
under the node it knows, whose frequency is one more than its rank. -/
structure Sorted (home : α → Option Nat) (rank : α → Nat) (fresh : Nat) (deleted : List Nat)
    (ring : List (Node α)) : Prop where
  first : ring.head? = some ⟨0, 0, []⟩
  increasing : (ring.map Node.frequency).Pairwise (· < ·)
  allocated : (deleted ++ ring.map Node.id).Perm (List.range fresh)
  filed : ∀ n ∈ ring, ∀ a ∈ n.entries, home a = some n.id ∧ n.frequency = rank a + 1

theorem entries_cons (n : Node α) (l : List (Node α)) :
    entries (n :: l) = n.entries ++ entries l :=
  List.flatMap_cons

theorem entries_append (l r : List (Node α)) : entries (l ++ r) = entries l ++ entries r :=
  List.flatMap_append

theorem mem_entries {l : List (Node α)} {a : α} :
    a ∈ entries l ↔ ∃ n ∈ l, a ∈ n.entries :=
  List.mem_flatMap

theorem entries_filter (p : α → Bool) (l : List (Node α)) :
    entries (l.map (Node.withEntries (List.filter p))) = (entries l).filter p := by
  rw [entries, List.flatMap_map, entries, List.filter_flatMap]
  rfl

theorem entries_map (f : α → α) (l : List (Node α)) :
    entries (l.map (Node.withEntries (List.map f))) = (entries l).map f := by
  rw [entries, List.flatMap_map, entries, List.map_flatMap]
  rfl

theorem entries_drop {p : Node α → Bool} {l : List (Node α)}
    (hp : ∀ n ∈ l, p n = false → n.entries = []) : entries (l.filter p) = entries l := by
  induction l with
  | nil => rfl
  | cons n l ih =>
    obtain ⟨hn, hl⟩ := List.forall_mem_cons.mp hp
    cases hpn : p n with
    | true => rw [List.filter_cons_of_pos hpn, entries_cons, entries_cons, ih hl]
    | false =>
      rw [List.filter_cons_of_neg (by rw [hpn]; exact Bool.false_ne_true), entries_cons, hn hpn,
        ih hl, List.nil_append]

section Ring

variable {n m : Node α} {pre post : List (Node α)} {ring : List (Node α)}

theorem next_append (first : Node α) (hpre : ∀ m ∈ pre, m.id ≠ n.id) :
    next first n.id (pre ++ n :: post) = some (post.headD first) := by
  induction pre with
  | nil => rw [List.nil_append, next, if_pos rfl]
  | cons m pre ih =>
    obtain ⟨hm, hpre⟩ := List.forall_mem_cons.mp hpre
    rw [List.cons_append, next, if_neg hm, ih hpre]

theorem insertAfter_append (hpre : ∀ m ∈ pre, m.id ≠ n.id) :
    insertAfter n.id m (pre ++ n :: post) = pre ++ n :: m :: post := by
  induction pre with
  | nil => rw [List.nil_append, insertAfter, if_pos rfl, List.nil_append]
  | cons k pre ih =>
    obtain ⟨hk, hpre⟩ := List.forall_mem_cons.mp hpre
    rw [List.cons_append, insertAfter, if_neg hk, ih hpre, List.cons_append]

theorem fileUnder_map {β : Type} (f : Node α → β) (id : Nat) (a : α)
    (hf : ∀ n : Node α, f (n.withEntries (· ++ [a])) = f n) :
    (fileUnder id a ring).map f = ring.map f := by
  rw [fileUnder, List.map_map]
  apply List.map_congr_left
  intro n _
  by_cases hn : n.id = id
  · rw [Function.comp_apply, if_pos hn, hf]
  · rw [Function.comp_apply, if_neg hn]

theorem fileUnder_of_ne {id : Nat} (a : α) (h : ∀ n ∈ ring, n.id ≠ id) :
    fileUnder id a ring = ring := by
  rw [fileUnder]
  conv_rhs => rw [← List.map_id ring]
  apply List.map_congr_left
  intro n hn
  rw [if_neg (h n hn), id_eq]

theorem fileUnder_entries (hn : (ring.map Node.id).Nodup) (hm : m ∈ ring) (a : α) :
    (entries (fileUnder m.id a ring)).Perm (a :: entries ring) := by
  obtain ⟨pre, post, rfl⟩ := List.append_of_mem hm
  rw [List.map_append, List.map_cons, List.nodup_append] at hn
  obtain ⟨-, hpost, hdis⟩ := hn
  have hpre : ∀ n ∈ pre, n.id ≠ m.id :=
    fun n hn => hdis _ (List.mem_map_of_mem hn) _ List.mem_cons_self
  have hpost : ∀ n ∈ post, n.id ≠ m.id :=
    fun n hn he => (List.nodup_cons.mp hpost).1 (he ▸ List.mem_map_of_mem hn)
  have he : fileUnder m.id a (pre ++ m :: post) =
      pre ++ m.withEntries (· ++ [a]) :: post := by
    rw [fileUnder, List.map_append, List.map_cons, if_pos rfl]
    exact congrArg₂ _ (fileUnder_of_ne a hpre) (congrArg _ (fileUnder_of_ne a hpost))
  rw [he, entries_append, entries_append, entries_cons, entries_cons, Node.withEntries]
  refine (List.Perm.append_left _ ?_).trans List.perm_middle
  rw [List.append_assoc]
  exact List.perm_middle

end Ring

section Sorted

variable {home : α → Option Nat} {rank rank' : α → Nat} {fresh : Nat} {deleted : List Nat}
  {ring ring' : List (Node α)} {m n : Node α}

theorem Sorted.ids_nodup (h : Sorted home rank fresh deleted ring) :
    (ring.map Node.id).Nodup :=
  (List.nodup_append.mp (h.allocated.nodup_iff.mpr List.nodup_range)).2.1

theorem Sorted.id_inj (h : Sorted home rank fresh deleted ring) (hm : m ∈ ring) (hn : n ∈ ring)
    (he : m.id = n.id) : m = n :=
  List.inj_on_of_nodup_map h.ids_nodup hm hn he

theorem Sorted.not_deleted (h : Sorted home rank fresh deleted ring) (hn : n ∈ ring) :
    n.id ∉ deleted := by
  intro hd
  have hdis := List.disjoint_of_nodup_append (h.allocated.nodup_iff.mpr List.nodup_range)
  exact hdis hd (List.mem_map_of_mem hn)

theorem Sorted.sentinel_mem (h : Sorted home rank fresh deleted ring) :
    (⟨0, 0, []⟩ : Node α) ∈ ring :=
  List.mem_of_mem_head? h.first

theorem Sorted.sentinel_empty (h : Sorted home rank fresh deleted ring) (hn : n ∈ ring)
    (hid : n.id = 0) : n.entries = [] := by
  rw [h.id_inj hn h.sentinel_mem hid]

theorem Sorted.id_ne_zero (h : Sorted home rank fresh deleted ring) (hn : n ∈ ring)
    (hf : 0 < n.frequency) : n.id ≠ 0 := by
  intro he
  rw [h.id_inj hn h.sentinel_mem he] at hf
  exact lt_irrefl 0 hf

theorem Sorted.node_unique (h : Sorted home rank fresh deleted ring) {a : α} (hn : n ∈ ring)
    (hm : m ∈ ring) (ha : a ∈ n.entries) (hb : a ∈ m.entries) : n = m := by
  have hid := (h.filed n hn a ha).1.symm.trans (h.filed m hm a hb).1
  exact h.id_inj hn hm (Option.some_inj.mp hid)

theorem Sorted.tail (h : Sorted home rank fresh deleted ring) :
    ring = ⟨0, 0, []⟩ :: ring.tail :=
  (List.cons_head?_tail h.first).symm

theorem Sorted.mem_post (h : Sorted home rank fresh deleted ring) {pre post : List (Node α)}
    (hsplit : ring.tail = pre ++ n :: post) (hm : m ∈ ring.tail) :
    m ∈ post ↔ n.frequency < m.frequency := by
  have hi := h.increasing
  rw [h.tail, List.map_cons, List.pairwise_cons, hsplit, List.map_append, List.map_cons,
    List.pairwise_append, List.pairwise_cons] at hi
  obtain ⟨-, -, ⟨hpost, -⟩, hcross⟩ := hi
  constructor
  · intro hm
    exact hpost _ (List.mem_map_of_mem hm)
  · intro hlt
    rw [hsplit] at hm
    obtain hm | hm := List.mem_append.mp hm
    · have := hcross _ (List.mem_map_of_mem hm) _ List.mem_cons_self
      omega
    · obtain rfl | hm := List.mem_cons.mp hm
      · exact absurd hlt (lt_irrefl _)
      · exact hm

theorem Sorted.le_of_mem_pre (h : Sorted home rank fresh deleted ring)
    {pre post : List (Node α)} (hsplit : ring.tail = pre ++ n :: post) (hm : m ∈ pre ++ [n]) :
    m.frequency ≤ n.frequency := by
  have hi := h.increasing
  rw [h.tail, List.map_cons, List.pairwise_cons, hsplit, List.map_append, List.map_cons,
    List.pairwise_append] at hi
  obtain hm | hm := List.mem_append.mp hm
  · exact (hi.2.2.2 _ (List.mem_map_of_mem hm) _ List.mem_cons_self).le
  · rw [List.mem_singleton.mp hm]

theorem Sorted.congr (h : Sorted home rank fresh deleted ring)
    (hr : ∀ a ∈ entries ring, rank' a = rank a) : Sorted home rank' fresh deleted ring where
  first := h.first
  increasing := h.increasing
  allocated := h.allocated
  filed := by
    intro n hn a ha
    rw [hr a (mem_entries.mpr ⟨n, hn, ha⟩)]
    exact h.filed n hn a ha

theorem Sorted.cut (h : Sorted home rank fresh deleted ring) {gone : List Nat}
    (hfirst : ring'.head? = some ⟨0, 0, []⟩)
    (hid : (gone ++ ring'.map Node.id).Perm (ring.map Node.id))
    (hf : (ring'.map Node.frequency).Sublist (ring.map Node.frequency))
    (hsub : ∀ n' ∈ ring', ∃ n ∈ ring, n'.id = n.id ∧ n'.frequency = n.frequency ∧
      n'.entries ⊆ n.entries) : Sorted home rank fresh (deleted ++ gone) ring' where
  first := hfirst
  increasing := h.increasing.sublist hf
  allocated := by
    rw [List.append_assoc]
    exact (hid.append_left deleted).trans h.allocated
  filed := by
    intro n' hn' a ha
    obtain ⟨n, hn, hi, hfr, hs⟩ := hsub n' hn'
    rw [hi, hfr]
    exact h.filed n hn a (hs ha)

theorem Sorted.withEntries (h : Sorted home rank fresh deleted ring) (f : List α → List α)
    (h0 : f [] = [])
    (hf : ∀ n ∈ ring, ∀ a ∈ f n.entries, home a = some n.id ∧ n.frequency = rank a + 1) :
    Sorted home rank fresh deleted (ring.map (Node.withEntries f)) where
  first := by
    rw [List.head?_map, h.first, Option.map_some, Node.withEntries, h0]
  increasing := by
    rw [List.map_map]
    exact h.increasing
  allocated := by
    rw [List.map_map]
    exact h.allocated
  filed := by
    intro n' hn' a ha
    obtain ⟨n, hn, rfl⟩ := List.mem_map.mp hn'
    exact hf n hn a ha

theorem Sorted.filter (h : Sorted home rank fresh deleted ring) (p : α → Bool) :
    Sorted home rank fresh deleted (ring.map (Node.withEntries (List.filter p))) := by
  apply h.withEntries _ rfl
  intro n hn a ha
  exact h.filed n hn a (List.mem_of_mem_filter ha)

theorem Sorted.map (h : Sorted home rank fresh deleted ring) (f : α → α)
    (hh : ∀ a, home (f a) = home a) (hr : ∀ a, rank (f a) = rank a) :
    Sorted home rank fresh deleted (ring.map (Node.withEntries (List.map f))) := by
  apply h.withEntries _ rfl
  intro n hn a' ha'
  obtain ⟨a, ha, rfl⟩ := List.mem_map.mp ha'
  rw [hh, hr]
  exact h.filed n hn a ha

theorem Sorted.drop (h : Sorted home rank fresh deleted ring) (hn : n ∈ ring) (h0 : n.id ≠ 0) :
    Sorted home rank fresh (deleted ++ [n.id]) (ring.filter fun m => decide (m.id ≠ n.id)) := by
  have hfirst : (ring.filter fun m => decide (m.id ≠ n.id)).head? = some ⟨0, 0, []⟩ := by
    rw [h.tail, List.filter_cons_of_pos (by simpa using Ne.symm h0), List.head?_cons]
  refine h.cut hfirst ?_ (List.filter_sublist.map _) ?_
  · have he : (ring.filter fun m => decide (m.id ≠ n.id)).map Node.id =
        (ring.map Node.id).erase n.id := by
      rw [h.ids_nodup.erase_eq_filter, List.filter_map]
      refine congrArg _ (List.filter_congr fun m _ => ?_)
      rw [Function.comp_apply, bne_eq, decide_not]
      rfl
    rw [he]
    exact (List.perm_cons_erase (List.mem_map_of_mem hn)).symm
  · intro m hm
    exact ⟨m, List.mem_of_mem_filter hm, rfl, rfl, List.Subset.refl _⟩

theorem Sorted.insertAfter {pre post : List (Node α)}
    (h : Sorted home rank fresh deleted (pre ++ n :: post)) {frequency : Nat}
    (hn : n.frequency < frequency) (hpost : ∀ k ∈ post, frequency < k.frequency) :
    Sorted home rank (fresh + 1) deleted (pre ++ n :: ⟨fresh, frequency, []⟩ :: post) where
  first := by
    have hf := h.first
    cases pre with
    | nil => exact hf
    | cons k pre => exact hf
  increasing := by
    have hi := h.increasing
    rw [List.map_append, List.map_cons, List.pairwise_append, List.pairwise_cons] at hi
    obtain ⟨hpre, ⟨hnp, hp⟩, hcross⟩ := hi
    rw [List.map_append, List.map_cons, List.map_cons, List.pairwise_append, List.pairwise_cons,
      List.pairwise_cons]
    refine ⟨hpre, ⟨?_, ?_, hp⟩, ?_⟩
    · exact List.forall_mem_cons.mpr ⟨hn, hnp⟩
    · intro f hf
      obtain ⟨k, hk, rfl⟩ := List.mem_map.mp hf
      exact hpost k hk
    · intro f hf g hg
      have hfn := hcross f hf _ List.mem_cons_self
      obtain rfl | hg := List.mem_cons.mp hg
      · exact hfn
      · obtain rfl | hg := List.mem_cons.mp hg
        · exact hfn.trans hn
        · exact hcross f hf g (List.mem_cons_of_mem _ hg)
  allocated := by
    rw [List.range_succ]
    refine List.Perm.trans ?_ (h.allocated.append_right [fresh])
    simp only [List.map_append, List.map_cons, List.append_assoc]
    refine (List.Perm.append_left _ (List.Perm.append_left _ (List.Perm.cons _ ?_)))
    exact (List.perm_append_singleton _ _).symm
  filed := by
    intro k hk a ha
    obtain hk | hk := List.mem_append.mp hk
    · exact h.filed k (List.mem_append_left _ hk) a ha
    · obtain rfl | hk := List.mem_cons.mp hk
      · exact h.filed k (List.mem_append_right _ List.mem_cons_self) a ha
      · obtain rfl | hk := List.mem_cons.mp hk
        · cases ha
        · exact h.filed k (List.mem_append_right _ (List.mem_cons_of_mem _ hk)) a ha

theorem Sorted.fileUnder (h : Sorted home rank fresh deleted ring) {a : α} (hm : m ∈ ring)
    (h0 : m.id ≠ 0) (hh : home a = some m.id) (hr : m.frequency = rank a + 1) :
    Sorted home rank fresh deleted (fileUnder m.id a ring) where
  first := by
    rw [FrequencyList.fileUnder, List.head?_map, h.first, Option.map_some, if_neg (Ne.symm h0)]
  increasing := by
    rw [fileUnder_map _ _ _ fun _ => rfl]
    exact h.increasing
  allocated := by
    rw [fileUnder_map _ _ _ fun _ => rfl]
    exact h.allocated
  filed := by
    intro n' hn' b hb
    obtain ⟨n, hn, rfl⟩ := List.mem_map.mp hn'
    by_cases hid : n.id = m.id
    · rw [if_pos hid] at hb ⊢
      obtain hb | hb := List.mem_append.mp hb
      · exact h.filed n hn b hb
      · rw [List.mem_singleton.mp hb, hh]
        rw [h.id_inj hn hm hid]
        exact ⟨rfl, hr⟩
    · rw [if_neg hid] at hb ⊢
      exact h.filed n hn b hb

end Sorted

section Walk

variable (needs : Nat → Bool) (pinned : α → Bool) (spend : Nat → α → Nat)

theorem takeFront_append (usage : Nat) (l : List α) :
    (takeFront needs pinned spend usage l).2.1 ++ (takeFront needs pinned spend usage l).1 = l := by
  induction l generalizing usage with
  | nil => rfl
  | cons a l ih =>
    rw [takeFront]
    split
    · exact congrArg (a :: ·) (ih _)
    · rfl

theorem takeFront_unpinned (usage : Nat) (l : List α) :
    ∀ a ∈ (takeFront needs pinned spend usage l).2.1, pinned a = false := by
  induction l generalizing usage with
  | nil =>
    intro a ha
    cases ha
  | cons b l ih =>
    rw [takeFront]
    split
    · rename_i hb
      rw [Bool.and_eq_true, Bool.not_eq_true'] at hb
      exact List.forall_mem_cons.mpr ⟨hb.1, ih _⟩
    · intro a ha
      cases ha

theorem takeFront_usage (usage : Nat) (l : List α) :
    (takeFront needs pinned spend usage l).2.2 =
      (takeFront needs pinned spend usage l).2.1.foldl spend usage := by
  induction l generalizing usage with
  | nil => rfl
  | cons a l ih =>
    rw [takeFront]
    split
    · exact ih _
    · rfl

theorem walk_cons (usage : Nat) (n : Node α) (l : List (Node α)) (hneed : needs usage = true) :
    let r := takeFront needs pinned spend usage n.entries
    let w := walk needs pinned spend r.2.2 l
    (r.1 = [] ∧ walk needs pinned spend usage (n :: l) =
        ⟨w.nodes, r.2.1 ++ w.out, n.id :: w.deleted, w.usage⟩) ∨
      (r.1 ≠ [] ∧ walk needs pinned spend usage (n :: l) =
        ⟨{ n with entries := r.1 } :: w.nodes, r.2.1 ++ w.out, w.deleted, w.usage⟩) := by
  intro r w
  rw [walk, if_pos hneed]
  by_cases hr : r.1 = []
  · refine Or.inl ⟨hr, ?_⟩
    simp only [show (takeFront needs pinned spend usage n.entries).1 = [] from hr,
      List.isEmpty_nil, if_true]
    rfl
  · refine Or.inr ⟨hr, ?_⟩
    simp only [List.isEmpty_iff,
      show ¬(takeFront needs pinned spend usage n.entries).1 = [] from hr, if_false]
    rfl

theorem walk_done {usage : Nat} (l : List (Node α)) (hneed : needs usage = false) :
    walk needs pinned spend usage l = ⟨l, [], [], usage⟩ := by
  cases l with
  | nil => rfl
  | cons n l => rw [walk, hneed, if_neg Bool.false_ne_true]

theorem walk_usage (usage : Nat) (l : List (Node α)) :
    (walk needs pinned spend usage l).usage =
      (walk needs pinned spend usage l).out.foldl spend usage := by
  induction l generalizing usage with
  | nil => rfl
  | cons n l ih =>
    cases hneed : needs usage with
    | false => rw [walk_done _ _ _ _ hneed, List.foldl_nil]
    | true =>
      have hr := takeFront_usage needs pinned spend usage n.entries
      obtain ⟨-, he⟩ | ⟨-, he⟩ := walk_cons needs pinned spend usage n l hneed
      · rw [he, List.foldl_append, ← hr]
        exact ih _
      · rw [he, List.foldl_append, ← hr]
        exact ih _

/-- What holds of a walk that stops and is kept by each round of it. -/
theorem walk_rec (P : List (Node α) → Walk α → Prop)
    (stop : ∀ usage l, P l ⟨l, [], [], usage⟩)
    (emptied : ∀ n l w out, (∀ a ∈ out, pinned a = false) → n.entries = out → P l w →
      P (n :: l) ⟨w.nodes, out ++ w.out, n.id :: w.deleted, w.usage⟩)
    (kept : ∀ n l w out rest, (∀ a ∈ out, pinned a = false) → n.entries = out ++ rest → P l w →
      P (n :: l) ⟨{ n with entries := rest } :: w.nodes, out ++ w.out, w.deleted, w.usage⟩)
    (usage : Nat) (l : List (Node α)) : P l (walk needs pinned spend usage l) := by
  induction l generalizing usage with
  | nil => exact stop usage []
  | cons n l ih =>
    cases hneed : needs usage with
    | false =>
      rw [walk_done _ _ _ _ hneed]
      exact stop usage (n :: l)
    | true =>
      have hr := (takeFront_append needs pinned spend usage n.entries).symm
      have hu := takeFront_unpinned needs pinned spend usage n.entries
      obtain ⟨h0, he⟩ | ⟨-, he⟩ := walk_cons needs pinned spend usage n l hneed
      · rw [h0, List.append_nil] at hr
        rw [he]
        exact emptied n l _ _ hu hr (ih _)
      · rw [he]
        exact kept n l _ _ _ hu hr (ih _)

theorem walk_entries (usage : Nat) (l : List (Node α)) :
    (entries (walk needs pinned spend usage l).nodes ++
      (walk needs pinned spend usage l).out).Perm (entries l) := by
  refine walk_rec needs pinned spend (fun l w => (entries w.nodes ++ w.out).Perm (entries l))
    (fun _ l => ?_) ?_ ?_ usage l
  · rw [List.append_nil]
  · intro n l w out _ hn ih
    rw [entries_cons, hn]
    exact (List.perm_append_comm_assoc _ _ _).trans (ih.append_left out)
  · intro n l w out rest _ hn ih
    rw [entries_cons, entries_cons, hn, List.append_assoc out]
    refine (List.perm_append_comm_assoc _ _ _).trans (List.Perm.append_left out ?_)
    rw [List.append_assoc]
    exact ih.append_left rest

theorem walk_unpinned (usage : Nat) (l : List (Node α)) :
    ∀ a ∈ (walk needs pinned spend usage l).out, pinned a = false := by
  refine walk_rec needs pinned spend (fun _ w => ∀ a ∈ w.out, pinned a = false)
    (fun _ _ a ha => by cases ha) ?_ ?_ usage l
  · intro n l w out hu _ ih
    exact List.forall_mem_append.mpr ⟨hu, ih⟩
  · intro n l w out rest hu _ ih
    exact List.forall_mem_append.mpr ⟨hu, ih⟩

theorem walk_ids (usage : Nat) (l : List (Node α)) :
    ((walk needs pinned spend usage l).deleted ++
      (walk needs pinned spend usage l).nodes.map Node.id).Perm (l.map Node.id) := by
  refine walk_rec needs pinned spend
    (fun l w => (w.deleted ++ w.nodes.map Node.id).Perm (l.map Node.id))
    (fun _ l => List.Perm.refl _) ?_ ?_ usage l
  · intro n l w out _ _ ih
    exact ih.cons n.id
  · intro n l w out rest _ _ ih
    exact List.perm_middle.trans (ih.cons n.id)

theorem walk_frequencies (usage : Nat) (l : List (Node α)) :
    ((walk needs pinned spend usage l).nodes.map Node.frequency).Sublist
      (l.map Node.frequency) := by
  refine walk_rec needs pinned spend
    (fun l w => (w.nodes.map Node.frequency).Sublist (l.map Node.frequency))
    (fun _ l => List.Sublist.refl _) ?_ ?_ usage l
  · intro n l w out _ _ ih
    exact ih.cons n.frequency
  · intro n l w out rest _ _ ih
    exact ih.cons_cons n.frequency

theorem walk_nodes (usage : Nat) (l : List (Node α)) :
    ∀ n' ∈ (walk needs pinned spend usage l).nodes, ∃ n ∈ l, n'.id = n.id ∧
      n'.frequency = n.frequency ∧ n'.entries ⊆ n.entries := by
  refine walk_rec needs pinned spend (fun l w => ∀ n' ∈ w.nodes, ∃ n ∈ l, n'.id = n.id ∧
    n'.frequency = n.frequency ∧ n'.entries ⊆ n.entries) ?_ ?_ ?_ usage l
  · intro _ l n hn
    exact ⟨n, hn, rfl, rfl, List.Subset.refl _⟩
  · intro n l w out _ _ ih n' hn'
    obtain ⟨k, hk, h⟩ := ih n' hn'
    exact ⟨k, List.mem_cons_of_mem n hk, h⟩
  · intro n l w out rest _ hn ih n' hn'
    obtain rfl | hn' := List.mem_cons.mp hn'
    · refine ⟨n, List.mem_cons_self, rfl, rfl, ?_⟩
      rw [hn]
      exact List.subset_append_right out rest
    · obtain ⟨k, hk, h⟩ := ih n' hn'
      exact ⟨k, List.mem_cons_of_mem n hk, h⟩

theorem Sorted.walk {home : α → Option Nat} {rank : α → Nat} {fresh : Nat} {deleted : List Nat}
    {first : Node α} {l : List (Node α)} (h : Sorted home rank fresh deleted (first :: l))
    (usage : Nat) :
    Sorted home rank fresh (deleted ++ (walk needs pinned spend usage l).deleted)
      (first :: (walk needs pinned spend usage l).nodes) := by
  refine h.cut h.first ?_ ((walk_frequencies needs pinned spend usage l).cons_cons _) ?_
  · exact List.perm_middle.trans ((walk_ids needs pinned spend usage l).cons first.id)
  · intro n' hn'
    obtain rfl | hn' := List.mem_cons.mp hn'
    · exact ⟨n', List.mem_cons_self, rfl, rfl, List.Subset.refl _⟩
    · obtain ⟨n, hn, hs⟩ := walk_nodes needs pinned spend usage l n' hn'
      exact ⟨n, List.mem_cons_of_mem first hn, hs⟩

end Walk

section Congr

variable {needs needs' : Nat → Bool} (pinned : α → Bool) {spend spend' : Nat → α → Nat}
  {I : Nat → List α → Prop} (hn : ∀ usage l, I usage l → needs usage = needs' usage)
  (hs : ∀ usage a l, I usage (a :: l) → spend usage a = spend' usage a)
  (hI : ∀ usage a l, I usage (a :: l) → I usage l ∧ I (spend' usage a) l)

include hn hs hI

theorem takeFront_congr {usage : Nat} {l r : List α} (h : I usage (l ++ r)) :
    takeFront needs pinned spend usage l = takeFront needs' pinned spend' usage l ∧
      I (takeFront needs' pinned spend' usage l).2.2 r := by
  induction l generalizing usage with
  | nil => exact ⟨rfl, h⟩
  | cons a l ih =>
    obtain ⟨hskip, htake⟩ := hI usage a (l ++ r) h
    rw [takeFront, takeFront, hn _ _ h, hs _ _ _ h]
    by_cases hc : (!pinned a && needs' usage) = true
    · rw [if_pos hc, if_pos hc, (ih htake).1]
      exact ⟨rfl, (ih htake).2⟩
    · rw [if_neg hc, if_neg hc]
      refine ⟨rfl, ?_⟩
      clear ih htake hc h
      induction l with
      | nil => exact hskip
      | cons b l ih => exact ih (hI _ _ _ hskip).1

/-- Two walks are the same if they compute the same as long as what is used stands
in some relation to what there is. -/
theorem walk_congr {usage : Nat} {l : List (Node α)} (h : I usage (entries l)) :
    walk needs pinned spend usage l = walk needs' pinned spend' usage l := by
  induction l generalizing usage with
  | nil => rfl
  | cons n l ih =>
    rw [entries_cons] at h
    obtain ⟨hfront, hrest⟩ := takeFront_congr pinned hn hs hI h
    simp only [walk, hn _ _ h, hfront, ih hrest]

end Congr

section Room

variable (weight : α → Nat) (pinned : α → Bool) (capacity charge : Nat)

def exposed (n : Node α) : List α := n.entries.takeWhile fun a => !pinned a

def lacks (usage : Nat) : Bool := decide (capacity < usage + charge)

def roomWalk (usage : Nat) (l : List (Node α)) : Walk α :=
  walk (lacks capacity charge) pinned (fun usage a => usage - weight a) usage l

theorem foldl_sub (usage : Nat) (l : List α) :
    l.foldl (fun usage a => usage - weight a) usage = usage - total weight l := by
  induction l generalizing usage with
  | nil => rfl
  | cons a l ih => rw [List.foldl_cons, ih, total_cons, Nat.sub_sub]

theorem lacks_false {usage : Nat} (hf : usage + charge ≤ capacity) :
    lacks capacity charge usage = false := by
  rw [lacks, decide_eq_false_iff_not]
  omega

theorem lacks_true {usage : Nat} (hf : ¬usage + charge ≤ capacity) :
    lacks capacity charge usage = true := by
  rw [lacks, decide_eq_true_eq]
  omega

theorem takeFront_evict (usage : Nat) (l : List α) :
    (takeFront (lacks capacity charge) pinned (fun usage a => usage - weight a) usage l).2.1 =
      (evict weight (fun _ => false) capacity charge usage (l.takeWhile fun a => !pinned a)).2 := by
  induction l generalizing usage with
  | nil => rfl
  | cons a l ih =>
    rw [takeFront, List.takeWhile_cons]
    cases hp : pinned a with
    | true => rfl
    | false =>
      by_cases hf : usage + charge ≤ capacity
      · rw [evict_enough _ _ _ _ _ hf, lacks_false _ _ hf]
        rfl
      · rw [lacks_true _ _ hf, Bool.not_false, if_pos rfl, evict, if_neg hf]
        exact congrArg (a :: ·) (ih _)

theorem roomWalk_out (usage : Nat) (l : List (Node α)) :
    (roomWalk weight pinned capacity charge usage l).out =
      (evict weight (fun _ => false) capacity charge usage (l.flatMap (exposed pinned))).2 := by
  induction l generalizing usage with
  | nil => rfl
  | cons n l ih =>
    by_cases hf : usage + charge ≤ capacity
    · rw [evict_enough _ _ _ _ _ hf, roomWalk, walk_done _ _ _ _ (lacks_false _ _ hf)]
    · have hfront := takeFront_evict weight pinned capacity charge usage n.entries
      have husage := takeFront_usage (lacks capacity charge) pinned
        (fun usage a => usage - weight a) usage n.entries
      rw [foldl_sub] at husage
      rw [List.flatMap_cons, evict_append, exposed, ← hfront, ← husage, ← ih]
      obtain ⟨-, he⟩ | ⟨-, he⟩ := walk_cons _ pinned (fun usage a => usage - weight a) usage n l
        (lacks_true _ _ hf)
      · rw [roomWalk, he]
        rfl
      · rw [roomWalk, he]
        rfl

theorem exposed_sublist (l : List (Node α)) : (l.flatMap (exposed pinned)).Sublist (entries l) := by
  induction l with
  | nil => exact List.Sublist.refl _
  | cons n l ih =>
    rw [List.flatMap_cons, entries_cons]
    exact (List.takeWhile_sublist _).append ih

/-- Of the exposed entries the walk takes out the shortest initial part that makes
room. -/
theorem roomWalk_shortest (usage : Nat) (l : List (Node α))
    (hu : total weight (entries l) ≤ usage) :
    Shortest (fun r => usage - total weight r + charge ≤ capacity) (l.flatMap (exposed pinned))
      (roomWalk weight pinned capacity charge usage l).out := by
  have hle := total_sublist weight (exposed_sublist pinned l)
  have hs := evict_shortest weight (fun _ => false) capacity charge usage
    (l.flatMap (exposed pinned)) (hle.trans hu)
  rw [Bool.not_false, List.filter_true] at hs
  rw [roomWalk_out]
  exact hs

end Room

end WiscKey.FrequencyList
