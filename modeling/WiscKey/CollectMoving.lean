import WiscKey.CollectJobs
import WiscKey.LogCoverage
import WiscKey.LogRecords

namespace WiscKey.CollectMoving

open WiscKey.ValueLog WiscKey.LogLayout WiscKey.LogRecords WiscKey.LogHistory WiscKey.LogCoverage
  WiscKey.WorkShares WiscKey.Database WiscKey.Collect WiscKey.CollectJobs

structure Part where
  index : Index
  session : Session
  moved : List (Key × Record)
  workers : List Worker

/-- The key list of a partition, the renamed file its records point into, and
the values there. -/
structure Source (keys : List (Key × Record)) (file : List UInt8) (val : Key → Value) : Prop where
  nodup : (keys.map Prod.fst).Nodup
  read : ∀ e ∈ keys, cut (alignedRead file e.2) e.2 = val e.1
  size_eq : ∀ e ∈ keys, e.2.size = (val e.1).length
  small : ∀ e ∈ keys, (val e.1).length ≤ pageSize

/-- The record of a key in the new log: its index entry if it is done, the
pending entry of a worker before that. -/
def NewRecord (index : Index) (ws : List Worker) (done : List (Key × Record)) (k : Key)
    (r : Record) : Prop :=
  k ∈ done.map Prod.fst ∧ index[k]? = some r ∨ ∃ w ∈ ws, w.pending = some (k, r)

structure Moving (b : UInt64) (keys : List (Key × Record)) (val : Key → Value) (g : Part)
    (done : List (Key × Record)) : Prop where
  layout : Layout (bufSize b) g.session.log
  range : ∀ w ∈ g.workers, InRange keys w
  account : Account keys g.moved done (g.workers.map (share keys))
  old : ∀ w ∈ g.workers, ∀ e ∈ todo keys w, g.index[e.1]? = some e.2
  pending : ∀ w ∈ g.workers, ∀ e ∈ w.pending, ∃ r l, todo keys w = (e.1, r) :: l
  placed : ∀ e ∈ done, g.index[e.1]?.isSome
  stored : ∀ k r, NewRecord g.index g.workers done k r → Stored g.session.log r (val k)
  covered : ∀ x < g.session.log.contents.length,
    (∃ k r, NewRecord g.index g.workers done k r ∧ r.offset ≤ x ∧ x < r.offset + r.size) ∨
      Padding g.session.accesses x

variable {b : UInt64} {keys : List (Key × Record)} {file : List UInt8} {val : Key → Value}
  {g : Part} {done : List (Key × Record)} {w : Worker} {e : Key × Record}

theorem keyAt_mem {i : Int} (h : keyAt keys i = some e) : e ∈ keys := by
  unfold keyAt at h
  split at h
  · exact List.mem_of_getElem? h
  · cases h

theorem todo_congr {w' : Worker} (hi : w'.i = w.i) (hs : w'.stop = w.stop) :
    todo keys w' = todo keys w := by
  rw [todo, hi, hs, todo]

theorem todo_of_keyAt (hr : InRange keys w) (hl : w.i < w.stop) (he : keyAt keys w.i = some e) :
    ∃ l, todo keys w = e :: l := by
  have h0 := hr.nonneg
  rw [keyAt, if_pos h0] at he
  obtain ⟨hn, rfl⟩ := List.getElem?_eq_some_iff.mp he
  have hm : (w.stop - w.i).toNat = (w.stop - (w.i + 1)).toNat + 1 := by omega
  rw [todo, List.drop_eq_getElem_cons hn, hm, List.take_succ_cons]
  exact ⟨_, rfl⟩

theorem todo_next {l : List (Key × Record)} (h0 : 0 ≤ w.i) (h : todo keys w = e :: l) {w' : Worker}
    (hi : w'.i = w.i + 1) (hs : w'.stop = w.stop) : todo keys w' = l := by
  have hd := congrArg (List.drop 1) h
  have hn : (w.i + 1).toNat = w.i.toNat + 1 := by omega
  have hm : (w.stop - (w.i + 1)).toNat = (w.stop - w.i).toNat - 1 := by omega
  rw [todo, List.drop_take, List.drop_drop] at hd
  rw [todo, hi, hs, hn, hm]
  exact hd

theorem lt_of_todo {l : List (Key × Record)} (h : todo keys w = e :: l) : w.i < w.stop := by
  by_contra hge
  have hm : (w.stop - w.i).toNat = 0 := by omega
  rw [todo, hm, List.take_zero] at h
  cases h

theorem keyAt_of_lt (hr : InRange keys w) (hl : w.i < w.stop) :
    ∃ e, keyAt keys w.i = some e := by
  have h0 := hr.nonneg
  have hs := hr.stop_le
  have hn : w.i.toNat < keys.length := by omega
  exact ⟨keys[w.i.toNat], by rw [keyAt, if_pos h0, List.getElem?_eq_getElem hn]⟩

theorem Moving.done_sub (h : Moving b keys val g done) (he : e ∈ done) : e ∈ keys :=
  h.account.all_perm.subset (List.mem_append_left _ he)

theorem Moving.todo_sub (h : Moving b keys val g done) (hw : w ∈ g.workers)
    (he : e ∈ todo keys w) : e ∈ keys := by
  refine h.account.all_perm.subset (List.mem_append_right _ ?_)
  exact List.mem_flatMap.mpr ⟨share keys w, List.mem_map_of_mem hw, he⟩

theorem Moving.newRecord_mem (h : Moving b keys val g done) {k : Key} {r : Record}
    (hn : NewRecord g.index g.workers done k r) : k ∈ keys.map Prod.fst := by
  obtain ⟨hk, -⟩ | ⟨w, hw, hp⟩ := hn
  · obtain ⟨e, he, rfl⟩ := List.mem_map.mp hk
    exact List.mem_map_of_mem (h.done_sub he)
  · obtain ⟨r', l, ht⟩ := h.pending w hw _ hp
    exact List.mem_map_of_mem (f := Prod.fst) (h.todo_sub hw (ht ▸ List.mem_cons_self))

theorem Moving.frame (h : Moving b keys val g done) {index : Index}
    (hi : ∀ k ∈ keys.map Prod.fst, index[k]? = g.index[k]?) :
    Moving b keys val { g with index := index } done := by
  have hn : ∀ k r, NewRecord index g.workers done k r ↔ NewRecord g.index g.workers done k r := by
    intro k r
    refine or_congr_left (and_congr_right ?_)
    intro hk
    obtain ⟨e, he, rfl⟩ := List.mem_map.mp hk
    rw [hi _ (List.mem_map_of_mem (h.done_sub he))]
  refine ⟨h.layout, h.range, h.account, ?_, h.pending, ?_, ?_, ?_⟩
  · intro w hw e he
    rw [hi _ (List.mem_map_of_mem (h.todo_sub hw he))]
    exact h.old w hw e he
  · intro e he
    rw [hi _ (List.mem_map_of_mem (h.done_sub he))]
    exact h.placed e he
  · simpa only [hn] using h.stored
  · simpa only [hn] using h.covered

end WiscKey.CollectMoving
