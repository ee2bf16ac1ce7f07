import OrderedQuery.Proofs.Cursor.Parallel.Agreement

/-!
# No cursor reads positions that its plan does not read

The environments of a tree of cursors are read by predicates, projections, the bounds of scans and
nothing else, and a parallel map passes them on to its workers with its own position bound.  By
induction on the plan, trees whose environments agree on the positions that the plan reads stay in
lockstep.
-/

namespace OrderedQuery

variable {L : Likeness} {A : Nat → Prop}

/-! ## Operators without input -/

namespace ValuesCursor

variable (rows : List Row)

abbrev AgreeOn (A : Nat → Prop) : State → State → Prop := Leaf.AgreeOn A Eq

theorem openRun_agrees : openRun.Agrees L (AgreeOn A) := by
  intro ctx s s' h w w' hw
  by_cases hidle : s.base.state = .idle
  · rw [openRun, openRun, CursorBase.beginOpen_eq_ok hidle,
      CursorBase.beginOpen_eq_ok (h.base.state.trans hidle)]
    exact .intro _ ⟨h.base.withState .active, h.source, rfl⟩ hw
  · rw [openRun, openRun, CursorBase.beginOpen_eq_error hidle,
      CursorBase.beginOpen_eq_error fun hs => hidle (h.base.state.symm.trans hs),
      h.base.violation]
    exact .intro _ h hw

theorem next_agrees : (next rows).Agrees L (AgreeOn A) := by
  intro ctx s s' h w w' hw
  rw [next, next, h.base.checkNext, h.run]
  split
  · exact .intro _ h hw
  · exact .intro _ ⟨h.base.hand _, h.source, rfl⟩ hw

theorem closeRun_agrees : closeRun.Agrees L (AgreeOn A) := by
  intro ctx s s' h w w' hw
  by_cases hlive : s.base.state = .destroyed
  · rw [closeRun, closeRun, CursorBase.beginClose_eq_error hlive,
      CursorBase.beginClose_eq_error (h.base.state.trans hlive), h.base.violation]
    exact .intro _ h hw
  · rw [closeRun, closeRun, CursorBase.beginClose_eq_ok hlive,
      CursorBase.beginClose_eq_ok fun hs => hlive (h.base.state.symm.trans hs)]
    exact .intro _ ⟨h.base.withState .idle, h.source, h.run⟩ hw

theorem agrees : (machine rows).Agrees L A (AgreeOn A) where
  evolving := evolving rows
  fresh hsource := ⟨.start _, hsource, rfl⟩
  pending := by
    intro ctx s s' h w w' hw
    dsimp only [machine]
    rw [h.base.state, h.run]
  openRun := openRun_agrees
  next := next_agrees rows
  closeRun := closeRun_agrees
  destroy := Leaf.destroy_agrees closeRun_agrees
  openBindings := Leaf.openBindings_agrees
  nextBindings := Leaf.nextBindings_supplied
  closeBindings := Leaf.closeBindings_agrees
  letGo _ _ _ hw := .inr hw

end ValuesCursor

namespace IndexScanCursor

variable (scan : IndexScan)

abbrev AgreeOn (A : Nat → Prop) : State → State → Prop := Leaf.AgreeOn A Eq

theorem openRun_agrees (hreads : ∀ position ∈ scan.range.exprs.flatMap Expr.reads, A position) :
    (openRun scan).Agrees L (AgreeOn A) := by
  intro ctx s s' h w w' hw
  by_cases hidle : s.base.state = .idle
  · have hactive : CursorBase.AgreeOn A { s.base with state := .active }
        { s'.base with state := .active } := h.base.withState .active
    have htraversal : traversal? scan ctx { s'.base with state := .active } =
        traversal? scan ctx { s.base with state := .active } :=
      hactive.bind_currentEnv fun env env' henv => by rw [scan.keyRange_congr henv hreads]
    rw [openRun, openRun, CursorBase.beginOpen_eq_ok hidle,
      CursorBase.beginOpen_eq_ok (h.base.state.trans hidle)]
    dsimp only
    rw [htraversal]
    cases traversal? scan ctx { s.base with state := .active } with
    | error e => exact .intro _ ⟨hactive.finish, h.source, h.run⟩ hw
    | ok run => exact .intro _ ⟨hactive, h.source, rfl⟩ hw
  · rw [openRun, openRun, CursorBase.beginOpen_eq_error hidle,
      CursorBase.beginOpen_eq_error fun hs => hidle (h.base.state.symm.trans hs),
      h.base.violation]
    exact .intro _ h hw

theorem next_agrees : (next scan).Agrees L (AgreeOn A) := by
  intro ctx s s' h w w' hw
  rw [next, next, h.base.checkNext]
  split
  · exact .intro _ h hw
  · have hchecked := hw.check ctx
    generalize w.check ctx = x, w'.check ctx = x' at hchecked
    obtain ⟨result, w₁⟩ := x
    obtain ⟨result', w₁'⟩ := x'
    obtain hlost | ⟨hresult, hw⟩ := hchecked
    · left
      cases result with
      | error e => exact hlost
      | ok _ =>
          dsimp only
          split
          · exact hlost
          · split <;> exact hlost
    · obtain rfl : result = result' := hresult
      dsimp only at hw
      cases result with
      | error e => exact .intro _ h hw
      | ok _ =>
          have hadvance : advance ctx w₁' s'.run = advance ctx w₁ s.run := by
            rw [← h.run]
            cases s.run with
            | none => rfl
            | some t => simp only [advance, hw.engine]
          dsimp only
          rw [hadvance]
          split
          · exact .intro _ ⟨h.base.finish, h.source, rfl⟩ hw
          · split
            · exact .intro _ ⟨h.base, h.source, rfl⟩ (hw.recordRead 1)
            · rename_i row _
              exact .intro _ ⟨h.base.hand (some row), h.source, rfl⟩ (hw.recordRead 1)

theorem closeRun_agrees : closeRun.Agrees L (AgreeOn A) := by
  intro ctx s s' h w w' hw
  by_cases hlive : s.base.state = .destroyed
  · rw [closeRun, closeRun, CursorBase.beginClose_eq_error hlive,
      CursorBase.beginClose_eq_error (h.base.state.trans hlive), h.base.violation]
    exact .intro _ h hw
  · rw [closeRun, closeRun, CursorBase.beginClose_eq_ok hlive,
      CursorBase.beginClose_eq_ok fun hs => hlive (h.base.state.symm.trans hs)]
    exact .intro _ ⟨h.base.withState .idle, h.source, rfl⟩ hw

theorem agrees (hreads : ∀ position ∈ scan.range.exprs.flatMap Expr.reads, A position) :
    (machine scan).Agrees L A (AgreeOn A) where
  evolving := evolving scan
  fresh hsource := ⟨.start _, hsource, rfl⟩
  pending := by
    intro ctx s s' h w w' hw
    dsimp only [machine]
    rw [pending, pending, h.base.state, h.run, hw.engine]
  openRun := openRun_agrees scan hreads
  next := next_agrees scan
  closeRun := closeRun_agrees
  destroy := Leaf.destroy_agrees closeRun_agrees
  openBindings := Leaf.openBindings_agrees
  nextBindings := Leaf.nextBindings_supplied
  closeBindings := Leaf.closeBindings_agrees
  letGo _ _ _ hw := .inr hw

end IndexScanCursor

/-! ## Operators over an input -/

namespace SelectCursor

variable {σ : Type} {m : Machine σ} {R : σ → σ → Prop}

abbrev AgreeOn (A : Nat → Prop) (R : σ → σ → Prop) : State σ → State σ → Prop :=
  Node.AgreeOn A R

theorem passes_congr_of_reads {predicate : Expr}
    (hreads : ∀ position ∈ predicate.reads, A position) {b b' : CursorBase} (h : b.AgreeOn A b')
    (row : Row) : passes predicate b' row = passes predicate b row :=
  h.bind_currentEnv fun _ _ henv => by rw [predicate.eval_congr _ henv hreads]

theorem search_agree (hm : m.Agrees L A R) {predicate : Expr}
    (hreads : ∀ position ∈ predicate.reads, A position) (ctx : Context) (fuel : Nat)
    {s s' : State σ} (h : AgreeOn A R s s') {w w' : World} (hw : w.Alike L w') :
    (search m predicate ctx fuel s w).Agree L (AgreeOn A R)
      (search m predicate ctx fuel s' w') := by
  induction fuel generalizing s s' w w' with
  | zero => exact .intro _ h hw
  | succ fuel ih =>
      have hrest := search_rest predicate ctx fuel
        (search_evolves hm.evolving predicate ctx fuel) s w
      obtain hlost | hnext := hm.next ctx h.input hw
      · exact .inl (hrest.lost hlost)
      · have hover {input input' : σ} (hs : R input input') :
            AgreeOn A R { s with input } { s' with input := input' } := ⟨h.base, hs, h.run⟩
        rw [search, search]
        dsimp only [Node.onInput]
        generalize m.next ctx s.input w = o, m.next ctx s'.input w' = o' at hnext
        obtain ⟨_ | _ | row, hs, hw⟩ := hnext
        · exact .intro _ ⟨h.base, hs, h.run⟩ hw
        · exact .intro _ ⟨h.base.finish, hs, h.run⟩ hw
        · dsimp only
          rw [passes_congr_of_reads hreads h.base]
          split
          · exact .intro _ ⟨h.base, hs, h.run⟩ hw
          · exact .intro _ ⟨h.base.hand (some row), hs, h.run⟩ hw
          · exact ih (hover hs) hw

theorem agrees (hm : m.Agrees L A R) {predicate : Expr}
    (hreads : ∀ position ∈ predicate.reads, A position) :
    (machine m predicate).Agrees L A (AgreeOn A R) where
  evolving := evolving hm.evolving predicate
  fresh hsource := ⟨.start _, hm.fresh hsource, rfl⟩
  pending ctx _ _ h _ _ hw := hm.pending ctx h.input hw
  openRun := Node.openRun_agrees hm id
  next := by
    intro ctx s s' h w w' hw
    dsimp only [machine]
    rw [next, next, h.base.checkNext, hm.pending ctx h.input hw]
    split
    · exact .intro _ h hw
    · exact search_agree hm hreads ctx _ h hw
  closeRun := Node.closeRun_agrees hm id
  destroy := Node.destroy_agrees hm (Node.closeRun_agrees hm id)
  openBindings := Node.openBindings_agrees hm
  nextBindings := Node.nextBindings_supplied hm
  closeBindings := Node.closeBindings_agrees hm
  letGo h _ _ hw := hm.letGo h.input hw

end SelectCursor

namespace ProjectCursor

variable {σ : Type} {m : Machine σ} {R : σ → σ → Prop}

abbrev AgreeOn (A : Nat → Prop) (R : σ → σ → Prop) : State σ → State σ → Prop :=
  Node.AgreeOn A R

theorem next_agrees (hm : m.Agrees L A R) {p : Projection}
    (hreads : ∀ position ∈ p.exprs.flatMap Expr.reads, A position) :
    (next m p).Agrees L (AgreeOn A R) := by
  intro ctx s s' h w w' hw
  have hrow (row : Row) : rowOf p s'.base row = rowOf p s.base row :=
    h.base.bind_currentEnv fun _ _ henv => p.apply_congr henv row hreads
  rw [next, next, h.base.checkNext]
  split
  · exact .intro _ h hw
  · have hnext := hm.next ctx h.input hw
    dsimp only [Node.onInput]
    generalize m.next ctx s.input w = o, m.next ctx s'.input w' = o' at hnext
    obtain hlost | hnext := hnext
    · left
      split
      · exact hlost
      · exact hlost
      · split <;> exact hlost
    · obtain ⟨_ | _ | row, hs, hw⟩ := hnext
      · exact .intro _ ⟨h.base, hs, h.run⟩ hw
      · exact .intro _ ⟨h.base.finish, hs, h.run⟩ hw
      · dsimp only
        rw [hrow]
        split
        · exact .intro _ ⟨h.base, hs, h.run⟩ hw
        · exact .intro _ ⟨h.base.hand (some row), hs, h.run⟩ hw

theorem agrees (hm : m.Agrees L A R) {p : Projection}
    (hreads : ∀ position ∈ p.exprs.flatMap Expr.reads, A position) :
    (machine m p).Agrees L A (AgreeOn A R) where
  evolving := evolving hm.evolving p
  fresh hsource := ⟨.start _, hm.fresh hsource, rfl⟩
  pending ctx _ _ h _ _ hw := hm.pending ctx h.input hw
  openRun := Node.openRun_agrees hm id
  next := next_agrees hm hreads
  closeRun := Node.closeRun_agrees hm id
  destroy := Node.destroy_agrees hm (Node.closeRun_agrees hm id)
  openBindings := Node.openBindings_agrees hm
  nextBindings := Node.nextBindings_supplied hm
  closeBindings := Node.closeBindings_agrees hm
  letGo h _ _ hw := hm.letGo h.input hw

end ProjectCursor

namespace AggregateCursor

variable {σ : Type} {m : Machine σ} {R : σ → σ → Prop}

abbrev AgreeOn (A : Nat → Prop) (R : σ → σ → Prop) : State σ → State σ → Prop :=
  Node.AgreeOn A R

theorem flush_agree (g : Grouping) {s s' : State σ} (h : AgreeOn A R s s') {w w' : World}
    (hw : w.Alike L w') : (flush g s w).Agree L (AgreeOn A R) (flush g s' w') := by
  rw [flush, flush, h.run]
  split
  · exact .intro _ ⟨h.base, h.input, rfl⟩ hw
  · exact .intro _ ⟨h.base.hand _, h.input, rfl⟩ hw

theorem search_agree (hm : m.Agrees L A R) (g : Grouping) (ctx : Context) (fuel : Nat)
    {s s' : State σ} (h : AgreeOn A R s s') {w w' : World} (hw : w.Alike L w') :
    (search m g ctx fuel s w).Agree L (AgreeOn A R) (search m g ctx fuel s' w') := by
  induction fuel generalizing s s' w w' with
  | zero => exact .intro _ h hw
  | succ fuel ih =>
      have hrest := search_rest g ctx fuel (search_evolves hm.evolving g ctx fuel) s w
      obtain hlost | hnext := hm.next ctx h.input hw
      · exact .inl (hrest.lost hlost)
      · have hover {input input' : σ} (hs : R input input') (run : Progress) :
            AgreeOn A R { s with input, run } { s' with input := input', run } :=
          ⟨h.base, hs, rfl⟩
        rw [search, search]
        dsimp only [Node.onInput]
        rw [h.run]
        generalize m.next ctx s.input w = o, m.next ctx s'.input w' = o' at hnext
        obtain ⟨_ | _ | row, hs, hw⟩ := hnext
        · exact .intro _ (hover hs _) hw
        · exact flush_agree g (hover hs _) hw
        · dsimp only
          split
          · exact ih (hover hs _) hw
          · exact .intro _ (hover hs _) hw
          · exact .intro _ ⟨h.base.hand _, hs, rfl⟩ hw

theorem agrees (hm : m.Agrees L A R) (g : Grouping) :
    (machine m g).Agrees L A (AgreeOn A R) where
  evolving := evolving hm.evolving g
  fresh hsource := ⟨.start _, hm.fresh hsource, rfl⟩
  pending := by
    intro ctx s s' h w w' hw
    dsimp only [machine]
    rw [pending, pending, h.base.state, h.run, hm.pending ctx h.input hw]
  openRun := Node.openRun_agrees hm fun _ => Progress.start
  next := by
    intro ctx s s' h w w' hw
    dsimp only [machine]
    rw [next, next, h.base.checkNext, h.run, searchLimit, searchLimit,
      hm.pending ctx h.input hw]
    split
    · exact .intro _ h hw
    · split
      · exact flush_agree g h hw
      · exact search_agree hm g ctx _ h hw
  closeRun := Node.closeRun_agrees hm clear
  destroy := Node.destroy_agrees hm (Node.closeRun_agrees hm clear)
  openBindings := Node.openBindings_agrees hm
  nextBindings := Node.nextBindings_supplied hm
  closeBindings := Node.closeBindings_agrees hm
  letGo h _ _ hw := hm.letGo h.input hw

end AggregateCursor

namespace SortCursor

variable {σ : Type} {m : Machine σ} {R : σ → σ → Prop}

abbrev AgreeOn (A : Nat → Prop) (R : σ → σ → Prop) : State σ → State σ → Prop :=
  Node.AgreeOn A R

theorem fill_agree (hm : m.Agrees L A R) (sorting : Sorting) (ctx : Context) (fuel : Nat)
    (held : List Row) {input input' : σ} (h : R input input') {w w' : World}
    (hw : w.Alike L w') :
    (fill m sorting ctx fuel held input w).Agree L R
      (fill m sorting ctx fuel held input' w') := by
  induction fuel generalizing held input input' w w' with
  | zero => exact .intro _ h hw
  | succ fuel ih =>
      have hevolves := fill_evolves hm.evolving sorting ctx fuel
      obtain hlost | hnext := hm.next ctx h hw
      · exact .inl ((fill_rest sorting ctx fuel hevolves held input w).lost hlost)
      · rw [fill, fill]
        generalize m.next ctx input w = o, m.next ctx input' w' = o' at hnext
        obtain ⟨_ | _ | row, hs, hw⟩ := hnext
        · exact .intro _ hs hw
        · exact .intro _ hs hw
        · rename_i s₁ s₁' w₁ w₁'
          have hchecked := hw.check ctx
          dsimp only
          generalize w₁.check ctx = x, w₁'.check ctx = x' at hchecked
          obtain ⟨result, w₂⟩ := x
          obtain ⟨result', w₂'⟩ := x'
          obtain hlost | ⟨hresult, hw⟩ := hchecked
          · left
            cases result with
            | error e => exact hlost
            | ok _ => exact (hevolves _ s₁ w₂).lost hlost
          · obtain rfl : result = result' := hresult
            cases result with
            | error e => exact .intro _ hs hw
            | ok _ => exact ih _ hs hw

theorem sorted_agrees (hm : m.Agrees L A R) (sorting : Sorting) :
    (sorted m sorting).Agrees L R := by
  intro ctx input input' h w w' hw
  rw [sorted, sorted]
  split
  · exact .intro _ h hw
  · have hopened := hm.openRun ctx h hw
    dsimp only
    generalize m.openRun ctx input w = o, m.openRun ctx input' w' = o' at hopened
    obtain hlost | ⟨_ | _, hs, hw⟩ := hopened
    · left
      split
      · exact hlost
      · exact (fill_evolves hm.evolving sorting ctx _ [] _ _).lost hlost
    · exact .intro _ hs hw
    · dsimp only
      rw [hm.pending ctx hs hw]
      exact fill_agree hm sorting ctx _ [] hs hw

theorem openRun_agrees (hm : m.Agrees L A R) (sorting : Sorting) :
    (openRun m sorting).Agrees L (AgreeOn A R) := by
  intro ctx s s' h w w' hw
  by_cases hidle : s.base.state = .idle
  · have hactive := h.base.withState .active
    have hsorted := sorted_agrees hm sorting ctx h.input hw
    rw [openRun, openRun, CursorBase.beginOpen_eq_ok hidle,
      CursorBase.beginOpen_eq_ok (h.base.state.trans hidle)]
    dsimp only
    generalize sorted m sorting ctx s.input w = o, sorted m sorting ctx s'.input w' = o' at hsorted
    obtain hlost | ⟨_ | _, hs, hw⟩ := hsorted
    · left
      split <;> exact hlost
    · exact .intro _ ⟨hactive.finish, hs, rfl⟩ hw
    · exact .intro _ ⟨hactive, hs, rfl⟩ hw
  · rw [openRun, openRun, CursorBase.beginOpen_eq_error hidle,
      CursorBase.beginOpen_eq_error fun hs => hidle (h.base.state.symm.trans hs),
      h.base.violation]
    exact .intro _ h hw

theorem next_agrees : (next (σ := σ)).Agrees L (AgreeOn A R) := by
  intro ctx s s' h w w' hw
  rw [next, next, h.base.checkNext, h.run]
  split
  · exact .intro _ h hw
  · exact .intro _ ⟨h.base.hand _, h.input, rfl⟩ hw

theorem agrees (hm : m.Agrees L A R) (sorting : Sorting) :
    (machine m sorting).Agrees L A (AgreeOn A R) where
  evolving := evolving hm.evolving sorting
  fresh hsource := ⟨.start _, hm.fresh hsource, rfl⟩
  pending := by
    intro ctx s s' h w w' hw
    dsimp only [machine]
    rw [pending, pending, h.base.state, h.run, hm.pending ctx h.input hw]
  openRun := openRun_agrees hm sorting
  next := next_agrees
  closeRun := Node.closeRun_agrees hm fun _ => []
  destroy := Node.destroy_agrees hm (Node.closeRun_agrees hm fun _ => [])
  openBindings := Node.openBindings_agrees hm
  nextBindings := Node.nextBindings_supplied hm
  closeBindings := Node.closeBindings_agrees hm
  letGo h _ _ hw := hm.letGo h.input hw

end SortCursor

/-! ## Plans -/

namespace Plan

/-- Trees of cursors that differ in nothing but environments, which bind the same at some
positions; below a parallel map, at its position as well. -/
def AgreeOn : (p : Plan) → (Nat → Prop) → p.State → p.State → Prop
  | values .., A => ValuesCursor.AgreeOn A
  | scan _, A => IndexScanCursor.AgreeOn A
  | select input _, A => SelectCursor.AgreeOn A (input.AgreeOn A)
  | project input _, A => ProjectCursor.AgreeOn A (input.AgreeOn A)
  | aggregate input _, A => AggregateCursor.AgreeOn A (input.AgreeOn A)
  | sort input _, A => SortCursor.AgreeOn A (input.AgreeOn A)
  | map input m, A =>
      ParallelCursor.AgreeOn A (input.AgreeOn (ParallelCursor.Below A m.position))

theorem AgreeOn.refl (p : Plan) (A : Nat → Prop) (s : p.State) : p.AgreeOn A s s := by
  induction p generalizing A with
  | values | scan => exact Leaf.AgreeOn.refl (fun _ => rfl) s
  | select _ _ ih | project _ _ ih | aggregate _ _ ih | sort _ _ ih =>
      exact Node.AgreeOn.refl (ih A) s
  | map _ _ ih => exact ParallelCursor.AgreeOn.refl (ih _) A s

/-- No cursor of a plan reads environments outside of the positions its plan reads. -/
theorem cursor_agrees (p : Plan) (hreads : ∀ position ∈ p.reads, A position) :
    p.cursor.Agrees L A (p.AgreeOn A) := by
  induction p generalizing A with
  | values type rows => exact ValuesCursor.agrees rows
  | scan s => exact IndexScanCursor.agrees s hreads
  | select input predicate ih =>
      exact SelectCursor.agrees (ih fun q hq => hreads q (List.mem_append_right _ hq))
        fun q hq => hreads q (List.mem_append_left _ hq)
  | project input p ih =>
      exact ProjectCursor.agrees (ih fun q hq => hreads q (List.mem_append_right _ hq))
        fun q hq => hreads q (List.mem_append_left _ hq)
  | aggregate input g ih => exact AggregateCursor.agrees (ih hreads) g
  | sort input s ih => exact SortCursor.agrees (ih hreads) s
  | map input m ih =>
      refine ParallelCursor.agrees (ih fun q hq => ?_)
      by_cases hown : q = m.position
      · exact .inl hown
      · exact .inr (hreads q (List.mem_filter.mpr ⟨hq, bne_iff_ne.mpr hown⟩))

end Plan
end OrderedQuery
