import OrderedQuery.Proofs.Cursor.Leaves
import OrderedQuery.Proofs.Cursor.Parallel.Alone

/-!
# Runs are finite

`Machine.AtMost` limits the rows that an open cursor still hands out, however long it rests
between two calls.  A limit is passed from the input of a cursor to the cursor.
-/

namespace OrderedQuery

/-- A cursor that rests, or does not, finds the world like this. -/
def World.Rests (w w' : World) : Prop :=
  w' = w ∨ w.Resumes w'

theorem World.Rests.refl (w : World) : w.Rests w :=
  .inl rfl

theorem World.Rests.view_eq {w w' : World} (h : w.Rests w') (session : SessionId) :
    w'.engine.view session = w.engine.view session := by
  rcases h with rfl | h
  · rfl
  · rw [Engine.view, Engine.view, Engine.transaction?, Engine.transaction?, h.active,
      h.committed]

theorem World.Rests.trans {w w' w'' : World} (h : w.Rests w') (h' : w'.Rests w'') :
    w.Rests w'' := by
  rcases h' with rfl | h'
  · exact h
  · rcases h with rfl | h
    · exact .inr h'
    · exact .inr ⟨h'.committed.trans h.committed, h'.active.trans h.active,
        h'.raised.trans h.raised, h'.silent, Nat.le_trans h.sessions h'.sessions,
        Nat.le_trans h.flags h'.flags⟩

/-- The open cursor hands out `n` rows at most. -/
def Machine.AtMost {σ : Type} (m : Machine σ) (ctx : Context) : Nat → σ → World → Prop
  | 0, s, w => ∀ w' row, w.Rests w' → (m.next ctx s w').result ≠ .ok (some row)
  | n + 1, s, w => ∀ w' row, w.Rests w' → (m.next ctx s w').result = .ok (some row) →
      m.AtMost ctx n (m.next ctx s w').state (m.next ctx s w').world

namespace Machine

variable {σ : Type} {m : Machine σ} {ctx : Context} {n n' : Nat} {s : σ} {w : World}

theorem AtMost.succ (h : m.AtMost ctx n s w) : m.AtMost ctx (n + 1) s w := by
  induction n generalizing s w with
  | zero =>
      intro w' row hw' hrow
      exact absurd hrow (h w' row hw')
  | succ n ih =>
      intro w' row hw' hrow
      exact ih (h w' row hw' hrow)

theorem AtMost.mono (h : m.AtMost ctx n s w) (hle : n ≤ n') : m.AtMost ctx n' s w := by
  induction hle with
  | refl => exact h
  | step hle ih => exact ih.succ

theorem AtMost.rests {w' : World} (h : m.AtMost ctx n s w) (hw : w.Rests w') :
    m.AtMost ctx n s w' := by
  cases n with
  | zero =>
      intro w'' row hw''
      exact h w'' row (hw.trans hw'')
  | succ n =>
      intro w'' row hw''
      exact h w'' row (hw.trans hw'')

/-- A condition that goes down with every row is a limit. -/
theorem AtMost.of_steps {R : Nat → σ → World → Prop}
    (hstep : ∀ {n s w w' row}, R n s w → w.Rests w' → (m.next ctx s w').result = .ok (some row) →
      ∃ n' < n, R n' (m.next ctx s w').state (m.next ctx s w').world)
    (h : R n s w) : m.AtMost ctx n s w := by
  induction n using Nat.strongRecOn generalizing s w with
  | ind n ih =>
      cases n with
      | zero =>
          intro w' row hw' hrow
          obtain ⟨n', hless, -⟩ := hstep h hw' hrow
          exact absurd hless (Nat.not_lt_zero n')
      | succ n =>
          intro w' row hw' hrow
          obtain ⟨n', hless, hrest⟩ := hstep h hw' hrow
          exact (ih n' hless hrest).mono (Nat.le_of_lt_succ hless)

/-- A row that comes shows that there was one to come. -/
theorem AtMost.next (h : m.AtMost ctx n s w) {row : Row}
    (hrow : (m.next ctx s w).result = .ok (some row)) :
    ∃ n' < n, m.AtMost ctx n' (m.next ctx s w).state (m.next ctx s w).world := by
  cases n with
  | zero => exact absurd hrow (h w row (World.Rests.refl w))
  | succ n => exact ⟨n, Nat.lt_succ_self n, h w row (World.Rests.refl w) hrow⟩

/-- Draining ends if there is more fuel than rows. -/
theorem AtMost.length_drainWith (h : m.AtMost ctx n s w) (fuel : Nat) :
    (m.drainWith ctx fuel s w).1.length ≤ n := by
  induction fuel generalizing n s w with
  | zero => exact Nat.zero_le n
  | succ fuel ih =>
      rw [Machine.drainWith]
      dsimp only
      rcases hresult : (m.next ctx s w).result with e | _ | row
      · exact Nat.zero_le n
      · exact Nat.zero_le n
      · obtain ⟨n', hless, hrest⟩ := h.next hresult
        exact Nat.le_trans (Nat.succ_le_succ (ih hrest)) hless

end Machine

/-! ## Leaves -/

namespace ValuesCursor

theorem atMost (rows : List Row) (ctx : Context) (s : State) (w : World) :
    (machine rows).AtMost ctx (rows.length - s.run) s w := by
  have hstep : ∀ {n : Nat} {s : State} {w w' : World} {row : Row}, n = rows.length - s.run →
      w.Rests w' → ((machine rows).next ctx s w').result = .ok (some row) →
      ∃ n' < n, n' = rows.length - ((machine rows).next ctx s w').state.run := by
    intro n s w w' row hn hw' hrow
    dsimp only [machine, next] at hrow ⊢
    cases hcheck : s.base.checkNext with
    | error e =>
        rw [hcheck] at hrow
        cases hrow
    | ok u =>
        rw [hcheck] at hrow
        have hless : s.run < rows.length :=
          (List.getElem?_eq_some_iff.mp (Except.ok.inj hrow)).1
        exact ⟨rows.length - (s.run + 1), by omega, rfl⟩
  exact Machine.AtMost.of_steps (R := fun n s _ => n = rows.length - s.run) hstep rfl

end ValuesCursor

namespace IndexScanCursor

variable {scan : IndexScan} {ctx : Context} {store : Store}

/-- A row comes from an entry of the traversal. -/
theorem advance_of_row {s : State} {w : World} {row : Row}
    (hrow : (next scan ctx s w).result = .ok (some row)) :
    ∃ e, advance ctx w s.run = (some e, (next scan ctx s w).state.run) ∧
      (next scan ctx s w).world.engine = w.engine := by
  have hengine : (w.check ctx).2.engine = w.engine := rfl
  have hadvance : ∀ run, advance ctx (w.check ctx).2 run = advance ctx w run := by
    intro run
    cases run with
    | none => rfl
    | some t => rfl
  unfold next at hrow ⊢
  cases hcheck : s.base.checkNext with
  | error e =>
      rw [hcheck] at hrow
      cases hrow
  | ok u =>
      simp only [hcheck] at hrow ⊢
      generalize w.check ctx = x at hengine hadvance hrow ⊢
      obtain ⟨_ | _, w₁⟩ := x
      · cases hrow
      · rw [← hadvance]
        dsimp only at hengine hrow ⊢
        generalize advance ctx w₁ s.run = y at hrow ⊢
        obtain ⟨_ | ⟨key, value⟩, run⟩ := y
        · cases hrow
        · dsimp only at hrow ⊢
          cases hdecoded : rowOf scan key with
          | error e =>
              rw [hdecoded] at hrow
              cases hrow
          | ok row' => exact ⟨(key, value), rfl, hengine⟩

/-- A scan hands out no more than the entries before which it stands. -/
theorem atMost {s : State} {w : World} {rest : List Entry} (hat : At store s.run rest)
    (hview : w.engine.view ctx.session = store) :
    (machine scan).AtMost ctx rest.length s w := by
  induction rest generalizing s w with
  | nil =>
      intro w' row hw' hrow
      obtain ⟨e, hadvance, -⟩ := advance_of_row hrow
      have hnone := advance_nil hat ((hw'.view_eq ctx.session).trans hview)
      rw [hadvance] at hnone
      cases hnone
  | cons e rest ih =>
      intro w' row hw' hrow
      obtain ⟨e', hadvance, hengine⟩ := advance_of_row hrow
      have hview' := (hw'.view_eq ctx.session).trans hview
      obtain ⟨run', hadvance', hat'⟩ := advance_cons hat hview'
      rw [hadvance] at hadvance'
      obtain ⟨-, hrun⟩ := Prod.mk.inj hadvance'
      refine ih (hrun ▸ hat') ?_
      rwa [← hengine] at hview'

end IndexScanCursor

/-! ## Nodes -/

section

variable {σ : Type} {m : Machine σ} {ctx : Context} {n : Nat} {w : World}

namespace SelectCursor

theorem search_atMost {predicate : Expr} {s : State σ} (h : m.AtMost ctx n s.input w)
    {row : Row} {fuel : Nat} (hrow : (search m predicate ctx fuel s w).result = .ok (some row)) :
    ∃ n' < n, m.AtMost ctx n' (search m predicate ctx fuel s w).state.input
      (search m predicate ctx fuel s w).world := by
  induction fuel generalizing s w n with
  | zero => cases hrow
  | succ fuel ih =>
      simp only [search, Node.onInput] at hrow ⊢
      rcases hresult : (m.next ctx s.input w).result with e | _ | row'
      · rw [hresult] at hrow
        cases hrow
      · rw [hresult] at hrow
        cases hrow
      · obtain ⟨n', hless, hrest⟩ := h.next hresult
        simp only [hresult] at hrow ⊢
        rcases hpasses : passes predicate s.base row' with e | _ | _
        · rw [hpasses] at hrow
          cases hrow
        · simp only [hpasses] at hrow ⊢
          obtain ⟨n'', hless', hrest'⟩ := ih hrest hrow
          exact ⟨n'', Nat.lt_trans hless' hless, hrest'⟩
        · exact ⟨n', hless, hrest⟩

theorem atMost {predicate : Expr} {s : State σ} (h : m.AtMost ctx n s.input w) :
    (machine m predicate).AtMost ctx n s w := by
  refine Machine.AtMost.of_steps (R := fun n s w => m.AtMost ctx n s.input w) ?_ h
  intro n s w w' row h hw' hrow
  dsimp only [machine, next] at hrow ⊢
  cases hcheck : s.base.checkNext with
  | error e =>
      rw [hcheck] at hrow
      cases hrow
  | ok u =>
      simp only [hcheck] at hrow ⊢
      exact search_atMost (h.rests hw') hrow

end SelectCursor

namespace ProjectCursor

theorem atMost {p : Projection} {s : State σ} (h : m.AtMost ctx n s.input w) :
    (machine m p).AtMost ctx n s w := by
  refine Machine.AtMost.of_steps (R := fun n s w => m.AtMost ctx n s.input w) ?_ h
  intro n s w w' row h hw' hrow
  simp only [machine, next, Node.onInput] at hrow ⊢
  cases hcheck : s.base.checkNext with
  | error e =>
      rw [hcheck] at hrow
      cases hrow
  | ok u =>
      simp only [hcheck] at hrow ⊢
      rcases hresult : (m.next ctx s.input w').result with e | _ | row'
      · rw [hresult] at hrow
        cases hrow
      · rw [hresult] at hrow
        cases hrow
      · obtain ⟨n', hless, hrest⟩ := (h.rests hw').next hresult
        simp only [hresult] at hrow ⊢
        cases hcomputed : rowOf p s.base row' with
        | error e =>
            rw [hcomputed] at hrow
            cases hrow
        | ok out => exact ⟨n', hless, hrest⟩

end ProjectCursor

namespace AggregateCursor

/-- The number of open groups. -/
def openGroups (p : Progress) : Nat :=
  if p.group.isSome then 1 else 0

theorem openGroups_le_one (p : Progress) : openGroups p ≤ 1 := by
  unfold openGroups
  split
  · exact Nat.le_refl 1
  · exact Nat.zero_le 1

/-- At most one group for every row still to come, and the one that is open. -/
def AtMostGroups (m : Machine σ) (ctx : Context) (n : Nat) (s : State σ) (w : World) : Prop :=
  openGroups s.run ≤ n ∧
    (s.run.inputDone = false → ∃ n', m.AtMost ctx n' s.input w ∧ n' + openGroups s.run ≤ n)

theorem flush_atMost {g : Grouping} {s : State σ} {w' : World} {row : Row}
    (hle : openGroups s.run ≤ n) (hdone : s.run.inputDone = true)
    (hrow : (flush g s w').result = .ok (some row)) :
    ∃ n' < n, AtMostGroups m ctx n' (flush g s w').state (flush g s w').world := by
  unfold flush emit at hrow ⊢
  cases hgroup : s.run.group with
  | none =>
      rw [hgroup] at hrow
      cases hrow
  | some key =>
      simp only [hgroup] at hrow ⊢
      have hpos : 0 < n := by
        rw [openGroups, hgroup] at hle
        exact hle
      cases hcomputed : g.rowOf key s.run.slots with
      | error e =>
          rw [hcomputed] at hrow
          cases hrow
      | ok out =>
          refine ⟨0, hpos, Nat.le_refl 0, ?_⟩
          intro hopen
          have hopen' : s.run.inputDone = false := hopen
          rw [hdone] at hopen'
          cases hopen'

/-- A group ends only if one was open. -/
theorem take_cases (g : Grouping) (row : Row) (p : Progress) :
    (∃ e p', take g row p = (.failed e, p')) ∨
      (∃ p', take g row p = (.more, p') ∧ p'.inputDone = p.inputDone) ∨
      ∃ out p', take g row p = (.finished out, p') ∧ p'.inputDone = p.inputDone ∧
        openGroups p = 1 := by
  unfold take
  cases hgroup : p.group with
  | none =>
      dsimp only [feed, startGroup]
      generalize Grouping.feed row g.calls g.freshSlots = x
      obtain ⟨e | u, slots⟩ := x
      · exact .inl ⟨_, _, rfl⟩
      · exact .inr (.inl ⟨_, rfl, rfl⟩)
  | some key =>
      dsimp only
      split
      · dsimp only [feed]
        generalize Grouping.feed row g.calls p.slots = x
        obtain ⟨e | u, slots⟩ := x
        · exact .inl ⟨_, _, rfl⟩
        · exact .inr (.inl ⟨_, rfl, rfl⟩)
      · simp only [emit, hgroup]
        cases g.rowOf key p.slots with
        | error e => exact .inl ⟨_, _, rfl⟩
        | ok out =>
            dsimp only [Except.map, feed, startGroup]
            generalize Grouping.feed row g.calls g.freshSlots = x
            obtain ⟨e | u, slots⟩ := x
            · exact .inl ⟨_, _, rfl⟩
            · exact .inr (.inr ⟨_, _, rfl, rfl, by rw [openGroups, hgroup]; rfl⟩)

theorem search_atMost {g : Grouping} {s : State σ} {n' : Nat} (h : m.AtMost ctx n' s.input w)
    (hle : n' + openGroups s.run ≤ n) (hopen : s.run.inputDone = false) {row : Row}
    {fuel : Nat} (hrow : (search m g ctx fuel s w).result = .ok (some row)) :
    ∃ n' < n, AtMostGroups m ctx n' (search m g ctx fuel s w).state
      (search m g ctx fuel s w).world := by
  induction fuel generalizing s w n' with
  | zero => cases hrow
  | succ fuel ih =>
      simp only [search, Node.onInput] at hrow ⊢
      rcases hresult : (m.next ctx s.input w).result with e | _ | row'
      · rw [hresult] at hrow
        cases hrow
      · simp only [hresult] at hrow ⊢
        exact flush_atMost (Nat.le_trans (Nat.le_add_left _ _) hle) rfl hrow
      · obtain ⟨n'', hless, hrest⟩ := h.next hresult
        simp only [hresult] at hrow ⊢
        rcases take_cases g row' s.run with ⟨e, p', htake⟩ | ⟨p', htake, hsame⟩ |
          ⟨out, p', htake, hsame, hgroup⟩
        · rw [htake] at hrow
          cases hrow
        · simp only [htake] at hrow ⊢
          have hgroups := openGroups_le_one p'
          exact ih hrest (by dsimp only; omega) (hsame.trans hopen) hrow
        · simp only [htake]
          have hgroups := openGroups_le_one p'
          refine ⟨n'' + openGroups p', by omega, Nat.le_add_left _ _, ?_⟩
          exact fun _ => ⟨n'', hrest, Nat.le_refl _⟩

theorem atMost {g : Grouping} {s : State σ} (h : AtMostGroups m ctx n s w) :
    (machine m g).AtMost ctx n s w := by
  refine Machine.AtMost.of_steps (R := AtMostGroups m ctx) ?_ h
  intro n s w w' row h hw' hrow
  simp only [machine, next] at hrow ⊢
  cases hcheck : s.base.checkNext with
  | error e =>
      rw [hcheck] at hrow
      cases hrow
  | ok u =>
      simp only [hcheck] at hrow ⊢
      obtain ⟨hle, hinput⟩ := h
      cases hdone : s.run.inputDone with
      | true =>
          simp only [hdone, if_true] at hrow ⊢
          exact flush_atMost hle hdone hrow
      | false =>
          obtain ⟨n', hatMost, hle'⟩ := hinput hdone
          simp only [hdone, Bool.false_eq_true, if_false] at hrow ⊢
          exact search_atMost (hatMost.rests hw') hle' hdone hrow

end AggregateCursor

namespace SortCursor

theorem length_insert_le (sorting : Sorting) {held : List Row} (row : Row)
    (h : held.length ≤ sorting.limit) : (sorting.insert held row).length ≤ sorting.limit := by
  rw [Sorting.insert]
  split
  · exact h
  · exact List.length_take_le _ _

theorem length_fill_le {sorting : Sorting} {fuel : Nat} {held rows : List Row} {input : σ}
    (h : held.length ≤ sorting.limit)
    (hrows : (fill m sorting ctx fuel held input w).result = .ok rows) :
    rows.length ≤ sorting.limit := by
  induction fuel generalizing held input w with
  | zero => cases hrows
  | succ fuel ih =>
      rw [fill] at hrows
      split at hrows
      · cases hrows
      · rw [← Except.ok.inj hrows]
        exact h
      · split at hrows
        · cases hrows
        · exact ih (length_insert_le sorting _ h) hrows

theorem atMost {sorting : Sorting} {s : State σ} (h : s.run.length ≤ n) :
    (machine m sorting).AtMost ctx n s w := by
  refine Machine.AtMost.of_steps (R := fun n s _ => s.run.length ≤ n) ?_ h
  intro n s w w' row h hw' hrow
  simp only [machine, next] at hrow ⊢
  cases hcheck : s.base.checkNext with
  | error e =>
      rw [hcheck] at hrow
      cases hrow
  | ok u =>
      simp only [hcheck] at hrow ⊢
      obtain ⟨base, input, held⟩ := s
      cases held with
      | nil => cases hrow
      | cons first held => exact ⟨held.length, h, Nat.le_refl _⟩

end SortCursor
end
end OrderedQuery
