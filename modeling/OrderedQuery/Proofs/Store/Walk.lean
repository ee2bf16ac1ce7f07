import OrderedQuery.Store.Traversal
import OrderedQuery.Proofs.Store.Range

/-!
# Walks hand out the visible entries

A traversal over an unchanging store hands out `Store.visible`, one entry after the other,
whatever the size of its batches.  The invariant `Traversal.At` says what has been handed
out and what is still to come; the batch in hand is a beginning of what is to come.

The name of the table must hold no zero byte, for otherwise batches need not continue each
other.
-/

namespace OrderedQuery

namespace Direction

/-- In a list in scan direction, what comes after an entry lies behind it. -/
theorem filter_before_of_append {direction : Direction} {done rest : List Entry}
    {last : Entry} (h : (done ++ last :: rest).Pairwise fun a b => direction.Before a.1 b.1) :
    ((done ++ last :: rest).filter fun e => decide (direction.Before last.1 e.1)) = rest := by
  rw [List.pairwise_append] at h
  obtain ⟨-, hrest, hcross⟩ := h
  have hdone : (done.filter fun e => decide (direction.Before last.1 e.1)) = [] := by
    rw [List.filter_eq_nil_iff]
    intro e he
    simpa using (hcross e he last List.mem_cons_self).asymm
  have htail : (rest.filter fun e => decide (direction.Before last.1 e.1)) = rest := by
    rw [List.filter_eq_self]
    intro e he
    simpa using (List.pairwise_cons.mp hrest).1 e he
  have hlast : ¬direction.Before last.1 last.1 := fun h' => h'.ne rfl
  rw [List.filter_append, hdone, List.filter_cons_of_neg (by simpa using hlast), htail,
    List.nil_append]

end Direction

namespace Store

/-- Behind a key that is not in front of the range lie the later entries of the range. -/
theorem visible_behind {range : KeyRange} {direction : Direction} {key : Bytes}
    (h : range.StartsBy direction key) (s : Store) (table : String) :
    s.visible table (range.after (some key) direction) direction =
      (s.visible table range direction).filter fun e => decide (direction.Before key e.1) := by
  rw [visible, visible, Direction.filter_orient, List.filter_filter]
  congr 2
  funext e
  rw [KeyRange.after_contains_of_startsBy h, Bool.and_comm]

/-- Resuming after the last entry of a beginning leaves the rest. -/
theorem visible_after {s : Store} {table : String} {range : KeyRange}
    {direction : Direction} {done rest : List Entry}
    (h : s.visible table range direction = done ++ rest) :
    s.visible table (range.after (done.getLast?.map Prod.fst) direction) direction =
      rest := by
  rcases List.eq_nil_or_concat done with rfl | ⟨done, last, rfl⟩
  · exact h
  · have hsplit : s.visible table range direction = done ++ last :: rest := by
      rw [h, List.concat_eq_append, List.append_assoc, List.singleton_append]
    have hlast : range.contains last.1 := by
      have hmem : last ∈ s.visible table range direction := by simp [hsplit]
      exact (mem_visible_iff.mp hmem).2
    have hgetLast : (done.concat last).getLast?.map Prod.fst = some last.1 := by
      simp
    have hpairs := s.pairwise_visible table range direction
    rw [hsplit] at hpairs
    rw [hgetLast, visible_behind (KeyRange.startsBy_of_contains hlast direction), hsplit]
    exact Direction.filter_before_of_append hpairs

theorem length_visible_le (s : Store) (table : String) (range : KeyRange)
    (direction : Direction) :
    (s.visible table range direction).length ≤ s.entries.length := by
  rw [visible, Direction.length_orient]
  exact (List.length_filter_le _ _).trans (List.length_filterMap_le _ _)

theorem visible_eq_nil_of_isEmpty {range : KeyRange} (h : range.isEmpty) (s : Store)
    (table : String) (direction : Direction) : s.visible table range direction = [] := by
  have hnil : ∀ e, e ∉ s.visible table range direction := by
    intro e he
    exact KeyRange.not_contains_of_isEmpty h e.1 (mem_visible_iff.mp he).2
  exact List.eq_nil_iff_forall_not_mem.mpr hnil

end Store

namespace Traversal

/-- The traversal stands before the entries `rest` of its range. -/
structure At (t : Traversal) (s : Store) (rest : List Entry) : Prop where
  free : Layout.ZeroFree t.table
  size : 0 < t.batchSize
  handed : ∃ done, s.visible t.table t.range t.direction = done ++ rest ∧
    t.lastKey = done.getLast?.map Prod.fst
  held : t.batch <+: rest
  ended : t.exhausted → t.batch = rest

theorem at_start {table : String} (hfree : Layout.ZeroFree table) (s : Store)
    (range : KeyRange) (direction : Direction) (batchSize : Nat) :
    (start table range direction batchSize).At s (s.visible table range direction) where
  free := hfree
  size := by
    show 0 < max batchSize 1
    omega
  handed := ⟨[], rfl, rfl⟩
  held := List.nil_prefix
  ended h := (Store.visible_eq_nil_of_isEmpty h s table direction).symm

/-- After a refill the batch holds the next entry, if there is one. -/
theorem At.refill {t : Traversal} {s : Store} {rest : List Entry} (h : t.At s rest) :
    (t.refill s).At s rest ∧ ((t.refill s).batch = [] → rest = []) := by
  obtain ⟨done, hvisible, hlast⟩ := h.handed
  unfold Traversal.refill
  split
  · rename_i hempty
    rw [Bool.and_eq_true] at hempty
    have hscan : s.scan t.table t.range t.lastKey t.direction t.batchSize =
        rest.take t.batchSize := by
      rw [Store.scan_eq_take h.free, hlast, Store.visible_after hvisible]
    have hsize := h.size
    constructor
    · refine ⟨h.free, h.size, h.handed, ?_, ?_⟩
      · show s.scan t.table t.range t.lastKey t.direction t.batchSize <+: rest
        rw [hscan]
        exact List.take_prefix _ _
      · intro hshort
        have hlength : (rest.take t.batchSize).length < t.batchSize := by
          simpa [hscan] using hshort
        show s.scan t.table t.range t.lastKey t.direction t.batchSize = rest
        rw [hscan]
        rw [List.length_take] at hlength
        exact List.take_of_length_le (by omega)
    · show s.scan t.table t.range t.lastKey t.direction t.batchSize = [] → rest = []
      rw [hscan, List.take_eq_nil_iff]
      rintro (hzero | hnil)
      · omega
      · exact hnil
  · rename_i hheld
    refine ⟨h, fun hnil => ?_⟩
    have hexhausted : t.exhausted = true := by simpa [hnil] using hheld
    rw [← h.ended hexhausted, hnil]

/-- At the end of its range a traversal hands out nothing. -/
theorem At.next_nil {t : Traversal} {s : Store} (h : t.At s []) :
    (t.next s).1 = none ∧ (t.next s).2.At s [] := by
  have hrefill := h.refill.1
  have hbatch : (t.refill s).batch = [] := List.prefix_nil.mp hrefill.held
  rw [next]
  simp only [hbatch]
  exact ⟨trivial, hrefill⟩

/-- A traversal hands out the entry it stands before, and moves past it. -/
theorem At.next_cons {t : Traversal} {s : Store} {e : Entry} {rest : List Entry}
    (h : t.At s (e :: rest)) :
    (t.next s).1 = some e ∧ (t.next s).2.At s rest := by
  obtain ⟨hrefill, hfull⟩ := h.refill
  obtain ⟨done, hvisible, hlast⟩ := hrefill.handed
  cases hbatch : (t.refill s).batch with
  | nil => exact absurd (hfull hbatch) (by simp)
  | cons e' batch =>
      have hheld := hrefill.held
      rw [hbatch, List.cons_prefix_cons] at hheld
      obtain ⟨rfl, hinitial⟩ := hheld
      rw [next]
      simp only [hbatch]
      refine ⟨trivial, hrefill.free, hrefill.size, ?_, hinitial, ?_⟩
      · exact ⟨done ++ [e'], by simpa using hvisible, by simp⟩
      · intro hexhausted
        have hended := hrefill.ended hexhausted
        rw [hbatch] at hended
        exact (List.cons.inj hended).2

/-- The bound on what a walk can still fetch covers what is to come. -/
theorem At.length_le_pending {t : Traversal} {s : Store} {rest : List Entry}
    (h : t.At s rest) : rest.length ≤ t.pending s := by
  obtain ⟨done, hvisible, -⟩ := h.handed
  have hlength : rest.length ≤ s.entries.length := by
    have hall := s.length_visible_le t.table t.range t.direction
    rw [hvisible, List.length_append] at hall
    omega
  rw [pending]
  by_cases hexhausted : t.exhausted
  · rw [h.ended hexhausted]
    omega
  · have hfetch : s.entries.length ≤ fetchLimit s := by
      rw [fetchLimit, Nat.succ_mul]
      exact Nat.le_add_left _ _
    rw [if_neg hexhausted]
    omega

end Traversal
end OrderedQuery
