import Mathlib

namespace WiscKey.Circles

variable {α β : Type*}

/-- Cells that are known by their addresses. The others are not allocated. -/
structure Stores (address : β → α) (heap : α → Option β) (l : List β) : Prop where
  present : ∀ b ∈ l, heap (address b) = some b
  absent : ∀ a, a ∉ l.map address → heap a = none

/-- The links of nodes in both directions. A null pointer is `none`. -/
structure Circle (α : Type*) where
  next : α → Option α
  prev : α → Option α

/-- The nodes between two nodes, linked forth and back. -/
def Path (c : Circle α) : α → List α → α → Prop
  | a, [], b => c.next a = some b ∧ c.prev b = some a
  | a, x :: l, b => (c.next a = some x ∧ c.prev x = some a) ∧ Path c x l b

/-- The nodes of a circle, in order, behind its root. -/
structure Around (c : Circle α) (root : α) (l : List α) : Prop where
  nodup : (root :: l).Nodup
  path : Path c root l root

variable {c c' : Circle α} {a b n root : α} {l m : List α}

theorem Path.next_start (h : Path c a l b) : c.next a = some (l.headD b) := by
  cases l with
  | nil => exact h.1
  | cons x l => exact h.1.1

theorem Path.prev_end (h : Path c a l b) : c.prev b = some (l.getLastD a) := by
  induction l generalizing a with
  | nil => exact h.2
  | cons x l ih =>
    rw [List.getLastD_cons]
    exact ih h.2

theorem path_append {x : α} : Path c a (l ++ x :: m) b ↔ Path c a l x ∧ Path c x m b := by
  induction l generalizing a with
  | nil => exact Iff.rfl
  | cons y l ih =>
    rw [List.cons_append, Path, Path, ih]
    exact and_assoc.symm

theorem Path.congr (h : Path c a l b) (hn : ∀ x ∈ a :: l, c'.next x = c.next x)
    (hp : ∀ x ∈ l ++ [b], c'.prev x = c.prev x) : Path c' a l b := by
  induction l generalizing a with
  | nil =>
    obtain ⟨hnext, hprev⟩ := h
    rw [← hn a List.mem_cons_self] at hnext
    rw [← hp b List.mem_cons_self] at hprev
    exact ⟨hnext, hprev⟩
  | cons x l ih =>
    obtain ⟨⟨hnext, hprev⟩, hl⟩ := h
    obtain ⟨hna, hn⟩ := List.forall_mem_cons.mp hn
    obtain ⟨hpx, hp⟩ := List.forall_mem_cons.mp hp
    rw [← hna] at hnext
    rw [← hpx] at hprev
    exact ⟨⟨hnext, hprev⟩, ih hl hn hp⟩

variable [DecidableEq α]

section stores

variable {address : β → α} {heap : α → Option β} {r s : List β} {x y : β}

omit [DecidableEq α] in
theorem Stores.perm (h : Stores address heap r) (hp : r.Perm s) : Stores address heap s where
  present := fun b hb => h.present b (hp.mem_iff.mpr hb)
  absent := fun a ha => h.absent a fun hm => ha ((hp.map address).mem_iff.mp hm)

theorem Stores.alloc (h : Stores address heap r) (hx : address x ∉ r.map address) :
    Stores address (Function.update heap (address x) (some x)) (x :: r) where
  present := by
    intro b hb
    obtain rfl | hb := List.mem_cons.mp hb
    · exact Function.update_self _ _ _
    · rw [Function.update_of_ne (ne_of_mem_of_not_mem (List.mem_map_of_mem hb) hx)]
      exact h.present b hb
  absent := by
    intro a ha
    rw [List.map_cons, List.mem_cons, not_or] at ha
    rw [Function.update_of_ne ha.1]
    exact h.absent a ha.2

theorem Stores.free (h : Stores address heap (x :: r)) (hx : address x ∉ r.map address) :
    Stores address (Function.update heap (address x) none) r where
  present := by
    intro b hb
    rw [Function.update_of_ne (ne_of_mem_of_not_mem (List.mem_map_of_mem hb) hx)]
    exact h.present b (List.mem_cons_of_mem x hb)
  absent := by
    intro a ha
    by_cases hax : a = address x
    · rw [hax]
      exact Function.update_self _ _ _
    · rw [Function.update_of_ne hax]
      refine h.absent a fun hm => ?_
      obtain hm | hm := List.mem_cons.mp hm
      · exact hax hm
      · exact ha hm

theorem Stores.write (h : Stores address heap (x :: r)) (hx : address x ∉ r.map address)
    (hy : address y = address x) :
    Stores address (Function.update heap (address x) (some y)) (y :: r) := by
  have hr := (h.free hx).alloc (x := y) (hy ▸ hx)
  rw [hy, Function.update_idem] at hr
  exact hr

end stores

def Circle.single (root : α) : Circle α where
  next := Function.update (fun _ => none) root (some root)
  prev := Function.update (fun _ => none) root (some root)

def Circle.detach (c : Circle α) (a : α) : Circle α where
  next := Function.update c.next a none
  prev := Function.update c.prev a none

def Circle.join (c : Circle α) (a b : α) : Circle α where
  next := Function.update c.next a (some b)
  prev := Function.update c.prev b (some a)

/-- Take a node out, where only some nodes may be read or written. -/
def Circle.remove (live : α → Bool) (c : Circle α) (a : α) : Option (Circle α) := do
  let p ← c.prev a
  let n ← c.next a
  if live a && live p && live n then some ((c.join p n).detach a) else none

def Circle.insertLast (live : α → Bool) (c : Circle α) (root a : α) : Option (Circle α) := do
  let last ← c.prev root
  if live a && live last then some ((c.join last a).join a root) else none

omit [DecidableEq α] in
theorem headD_mem (a : α) (l : List α) : l.headD a ∈ a :: l := by
  cases l with
  | nil => exact List.mem_cons_self
  | cons x l => exact List.mem_cons_of_mem a List.mem_cons_self

theorem Path.turn (h : Path c a l b) (hd : (a :: l).Nodup) (hn : n ∉ l) :
    Path (c.join (l.getLastD a) n) a l n := by
  induction l generalizing a with
  | nil => exact ⟨Function.update_self _ _ _, Function.update_self _ _ _⟩
  | cons x l ih =>
    obtain ⟨⟨hnext, hprev⟩, hl⟩ := h
    obtain ⟨ha, hd⟩ := List.nodup_cons.mp hd
    obtain ⟨hx, hn⟩ := List.ne_and_not_mem_of_not_mem_cons hn
    rw [List.getLastD_cons]
    refine ⟨⟨?_, ?_⟩, ih hl hd hn⟩
    · rw [← hnext]
      exact Function.update_of_ne (ne_of_mem_of_not_mem List.getLastD_mem_cons ha).symm _ _
    · rw [← hprev]
      exact Function.update_of_ne (Ne.symm hx) _ _

theorem Path.detach (h : Path c a l b) (hn : n ∉ a :: l) (hb : n ≠ b) :
    Path (c.detach n) a l b := by
  refine h.congr (fun x hx => ?_) fun x hx => ?_
  · exact Function.update_of_ne (ne_of_mem_of_not_mem hx hn) _ _
  · refine Function.update_of_ne ?_ _ _
    rintro rfl
    obtain hx | hx := List.mem_append.mp hx
    · exact hn (List.mem_cons_of_mem a hx)
    · exact hb (List.mem_singleton.mp hx)

theorem around_single (root : α) : Around (Circle.single root) root [] where
  nodup := List.nodup_singleton root
  path := by simp [Path, Circle.single]

theorem Around.detach (h : Around c root l) (ha : a ∉ root :: l) : Around (c.detach a) root l :=
  ⟨h.nodup, h.path.detach ha fun he => ha (he ▸ List.mem_cons_self)⟩

omit [DecidableEq α] in
theorem Around.next_of_mem (h : Around c root (l ++ a :: m)) : c.next a = some (m.headD root) :=
  (path_append.mp h.path).2.next_start

theorem Around.remove (live : α → Bool) (h : Around c root (l ++ a :: m))
    (hl : ∀ x ∈ root :: (l ++ a :: m), live x = true) :
    ∃ c', c.remove live a = some c' ∧ Around c' root (l ++ m) := by
  obtain ⟨hfront, hback⟩ := path_append.mp h.path
  have hperm : (root :: (l ++ a :: m)).Perm (a :: root :: (l ++ m)) :=
    (List.perm_middle.cons root).trans (List.Perm.swap a root (l ++ m))
  obtain ⟨ha, hd⟩ := List.nodup_cons.mp (hperm.nodup_iff.mp h.nodup)
  have hlive : live a = true ∧ live (l.getLastD root) = true ∧ live (m.headD root) = true := by
    refine ⟨hl a (by simp), hl _ ?_, hl _ ?_⟩
    · exact List.cons_subset_cons root (List.subset_append_left l _) List.getLastD_mem_cons
    · refine List.cons_subset_cons root ?_ (headD_mem root m)
      exact List.subset_append_of_subset_right l (List.subset_cons_self a m)
  refine ⟨(c.join (l.getLastD root) (m.headD root)).detach a, ?_, hd, ?_⟩
  · simp only [Circle.remove, hfront.prev_end, hback.next_start, Option.bind_eq_bind,
      Option.bind_some, hlive, Bool.and_self, if_true]
  refine Path.detach ?_ ha fun he => ha (he ▸ List.mem_cons_self)
  obtain ⟨hroot, hlm⟩ := List.nodup_cons.mp hd
  have hdl : (root :: l).Nodup := hd.sublist ((List.sublist_append_left l m).cons_cons root)
  cases m with
  | nil =>
    rw [List.append_nil] at hroot ⊢
    exact hfront.turn hdl hroot
  | cons x m =>
    have hx : x ∉ l := fun hm => List.disjoint_of_nodup_append hlm hm List.mem_cons_self
    refine path_append.mpr ⟨hfront.turn hdl hx, hback.2.congr (fun y hy => ?_) fun y hy => ?_⟩
    · refine Function.update_of_ne ?_ _ _
      rintro rfl
      have hmem : l.getLastD root ∈ root :: l := List.getLastD_mem_cons
      obtain he | hm := List.mem_cons.mp hmem
      · exact hroot (he ▸ List.mem_append_right l hy)
      · exact List.disjoint_of_nodup_append hlm hm hy
    · refine Function.update_of_ne ?_ _ _
      rintro rfl
      obtain hy | hy := List.mem_append.mp hy
      · exact (List.nodup_cons.mp (List.nodup_append.mp hlm).2.1).1 hy
      · rw [List.mem_singleton] at hy
        exact hroot (hy ▸ by simp)

theorem Around.insertLast (live : α → Bool) (h : Around c root l) (ha : a ∉ root :: l)
    (hl : ∀ x ∈ a :: root :: l, live x = true) :
    ∃ c', c.insertLast live root a = some c' ∧ Around c' root (l ++ [a]) := by
  obtain ⟨hroot, hal⟩ := List.ne_and_not_mem_of_not_mem_cons ha
  have hlive : live a = true ∧ live (l.getLastD root) = true :=
    ⟨hl a List.mem_cons_self, hl _ (List.mem_cons_of_mem a List.getLastD_mem_cons)⟩
  refine ⟨(c.join (l.getLastD root) a).join a root, ?_, ?_, ?_⟩
  · simp only [Circle.insertLast, h.path.prev_end, Option.bind_eq_bind, Option.bind_some, hlive,
      Bool.and_self, if_true]
  · rw [← List.cons_append]
    exact (List.perm_append_singleton a _).nodup_iff.mpr (List.nodup_cons.mpr ⟨ha, h.nodup⟩)
  · refine path_append.mpr ⟨(h.path.turn h.nodup hal).congr (fun x hx => ?_) fun x hx => ?_,
      Function.update_self _ _ _, Function.update_self _ _ _⟩
    · exact Function.update_of_ne (ne_of_mem_of_not_mem hx ha) _ _
    · refine Function.update_of_ne ?_ _ _
      rintro rfl
      obtain hx | hx := List.mem_append.mp hx
      · exact (List.nodup_cons.mp h.nodup).1 hx
      · exact hroot (List.mem_singleton.mp hx).symm

end WiscKey.Circles
