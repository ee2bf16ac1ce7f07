import OrderedQuery.Proofs.Cursor.Listing
import OrderedQuery.Proofs.Cursor.OperatorTerms
import OrderedQuery.Proofs.Cursor.Parallel.Cancellation
import OrderedQuery.Proofs.Cursor.Parallel.Terms
import OrderedQuery.Proofs.Cursor.Protocol
import OrderedQuery.Proofs.Plan.Agreement

/-!
# Cancelled runs do not seem complete

Somebody cancels the context of a query, or has it cancelled by a later poll, before any call of a
run: `World.Disturbed`.  A run that is disturbed in this way and comes to its end without an error
has returned all rows of the same run left in peace, with the same choices between the steps of
workers.  Until the cancellation the two runs go on in lockstep; after it, a call that takes notice
of it fails, and one that does not returns the same in every world.
-/

namespace OrderedQuery

/-- The context may have been cancelled, or may be going to be by some later poll. -/
inductive World.Disturbed (ctx : Context) (w : World) : World → Prop
  | intro (raised : List Nat) (alarm : Option (Nat × Nat))
      (hraised : ∀ f ∈ raised, f ∈ ctx.token.flags)
      (halarm : ∀ polls f, alarm = some (polls, f) → f ∈ ctx.token.flags) :
      Disturbed ctx w
        { w with signals := { w.signals with raised := raised ++ w.signals.raised, alarm } }

/-- From a state of an open cursor its rows are taken to their end, while the context can be
cancelled at any time, and no call fails. -/
inductive Machine.Drains {σ : Type} (m : Machine σ) (ctx : Context) :
    σ → World → List Row → Prop
  | done {s : σ} {w w' : World} (hw : w.Disturbed ctx w')
      (hend : (m.next ctx s w').result = .ok none) : Drains m ctx s w []
  | row {s : σ} {w w' : World} {row : Row} {rows : List Row} (hw : w.Disturbed ctx w')
      (hrow : (m.next ctx s w').result = .ok (some row))
      (hrest : Drains m ctx (m.next ctx s w').state (m.next ctx s w').world rows) :
      Drains m ctx s w (row :: rows)

variable {ctx : Context}

namespace World

variable {w w₀ w' : World}

theorem Disturbed.cancelled (h : w.Disturbed ctx w') (hw : w.Cancelled ctx) : w'.Cancelled ctx := by
  obtain ⟨raised, alarm, -, -⟩ := h
  exact Signals.isCancelled_mono (fun f hf => List.mem_append_right raised hf) hw

theorem Disturbed.again (h : w.Disturbed ctx w') : w'.Disturbed ctx w' := by
  obtain ⟨raised, alarm, -, halarm⟩ := h
  exact .intro (w := { w with signals := _ }) [] alarm (List.forall_mem_nil _) halarm

/-- A world that is disturbed looks as before until the context has been cancelled. -/
theorem Disturbed.alike (h : w.Disturbed ctx w') (hw : w.Alike (.calm ctx.token) w₀)
    (hlive : ¬ w'.Cancelled ctx) : w'.Alike (.calm ctx.token) w₀ := by
  obtain ⟨raised, alarm, hraised, halarm⟩ := h
  obtain ⟨rfl, -⟩ := hw
  cases raised with
  | nil => exact .intro (w := { w with signals := _ }) ⟨rfl, halarm⟩
  | cons f raised =>
      refine absurd (List.any_eq_true.mpr ⟨f, hraised f List.mem_cons_self, ?_⟩) hlive
      exact decide_eq_true (List.mem_append_left _ List.mem_cons_self)

/-- A world without an alarm looks as before when it is disturbed. -/
theorem Alike.calm_refl (halarm : w.signals.alarm = none) (t : Token) : w.Alike (.calm t) w := by
  obtain ⟨engine, ⟨raised, issued, alarm⟩, stats, schedule, refusals, spawns⟩ := w
  obtain rfl : alarm = none := halarm
  exact .intro (w := ⟨engine, _, stats, schedule, refusals, spawns⟩) ⟨rfl, nofun⟩

end World

/-! ## Runs that are disturbed -/

namespace Machine

variable {σ : Type} {m : Machine σ} {Sound Silent : σ → Prop} {A : Nat → Prop}
  {R : σ → σ → Prop} {s s₀ : σ} {w w₀ : World} {rows : List Row} {fuel : Nat}

/-- A request that does not fail after the context has been cancelled is made in a silent state. -/
theorem Heeds.silent_of_next (hm : m.Heeds ctx Sound Silent) (hw : w.Cancelled ctx)
    {row : Option Row} (hrow : (m.next ctx s w).result = .ok row) : Silent s := by
  by_contra hnot
  obtain ⟨e, he⟩ := hm.next_of_cancelled hnot hw
  cases hrow.symm.trans he

/-- A request that does not fail after the context has been cancelled returns the same in every
world, from all states that agree. -/
theorem Heeds.next_ok (hm : m.Heeds ctx Sound Silent) (hagrees : m.Agrees .exact A R)
    (hw : w.Cancelled ctx) {row : Option Row} (hrow : (m.next ctx s w).result = .ok row)
    (hs : R s s₀) (w₀ : World) :
    ∃ t, R (m.next ctx s w).state t ∧ m.next ctx s₀ w₀ = ⟨.ok row, t, w₀⟩ := by
  obtain ⟨result, t, -, hnext⟩ := hm.next_of_silent (hm.silent_of_next hw hrow)
  dsimp only at hnext
  have hmatches := (hagrees.next ctx hs (World.alike_exact.mpr rfl) (w := w₀)).resolve_left id
  rw [hnext w] at hrow ⊢
  rw [hnext w₀] at hmatches
  obtain rfl : result = .ok row := hrow
  generalize m.next ctx s₀ w₀ = o at hmatches
  obtain ⟨-, hs, hw⟩ := hmatches
  obtain rfl := World.alike_exact.mp hw
  exact ⟨_, hs, rfl⟩

namespace Drains

theorem silent (h : m.Drains ctx s w rows) (hm : m.Heeds ctx Sound Silent)
    (hw : w.Cancelled ctx) : Silent s := by
  cases h with
  | done hdisturbed hend => exact hm.silent_of_next (hdisturbed.cancelled hw) hend
  | row hdisturbed hrow => exact hm.silent_of_next (hdisturbed.cancelled hw) hrow

/-- What is drained after the context has been cancelled is drained in every world. -/
theorem of_cancelled (h : m.Drains ctx s w rows) (hm : m.Heeds ctx Sound Silent)
    (hagrees : m.Agrees .exact A R) (hw : w.Cancelled ctx) (hs : R s s₀) (w₀ : World)
    (hfuel : rows.length < fuel) :
    (m.drainWith ctx fuel s₀ w₀).1 = rows ∧
      (m.drainWith ctx fuel s₀ w₀).2.result = .ok () := by
  obtain ⟨fuel, rfl⟩ := Nat.exists_eq_succ_of_ne_zero (Nat.ne_of_gt
    (Nat.lt_of_le_of_lt (Nat.zero_le _) hfuel))
  induction h generalizing s₀ w₀ fuel with
  | done hdisturbed hend =>
      obtain ⟨t, -, hnext⟩ := hm.next_ok hagrees (hdisturbed.cancelled hw) hend hs w₀
      rw [drainWith, hnext]
      exact ⟨rfl, rfl⟩
  | @row s w w' row rows hdisturbed hrow hrest ih =>
      have hcancelled := hdisturbed.cancelled hw
      have hrest := Nat.lt_of_succ_lt_succ hfuel
      obtain ⟨t, ht, hnext⟩ := hm.next_ok hagrees hcancelled hrow hs w₀
      obtain ⟨fuel, rfl⟩ := Nat.exists_eq_succ_of_ne_zero (Nat.ne_of_gt
        (Nat.lt_of_le_of_lt (Nat.zero_le _) hrest))
      obtain ⟨hrows, hresult⟩ :=
        ih ((hm.evolving.next ctx s w').isCancelled hcancelled) ht w₀ fuel hrest
      rw [drainWith, hnext]
      exact ⟨congrArg (row :: ·) hrows, hresult⟩

/-- A run that looks as if nobody had cancelled it yet is drained of the rows of one that nobody
does cancel. -/
theorem of_alike (h : m.Drains ctx s w rows) (hm : m.Heeds ctx Sound Silent)
    (hagrees : ∀ L, m.Agrees L A R) (hsound : Sound s) (hs : R s s₀)
    (hw : w.Alike (.calm ctx.token) w₀) (hfuel : rows.length < fuel) :
    (m.drainWith ctx fuel s₀ w₀).1 = rows ∧
      (m.drainWith ctx fuel s₀ w₀).2.result = .ok () := by
  induction h generalizing s₀ w₀ fuel with
  | @done s w w' hdisturbed hend =>
      by_cases hcancelled : w'.Cancelled ctx
      · exact (done hdisturbed.again hend).of_cancelled hm (hagrees _) hcancelled hs w₀ hfuel
      · obtain ⟨fuel, rfl⟩ := Nat.exists_eq_succ_of_ne_zero (Nat.ne_of_gt hfuel)
        rw [drainWith]
        obtain hlost | hmatches := (hagrees _).next ctx hs (hdisturbed.alike hw hcancelled)
        · -- the end is not reported by a call during which the context is cancelled
          obtain ⟨hsome, -⟩ := hm.next_interrupted hsound hcancelled hlost _ hend
          cases hsome
        · generalize m.next ctx s w' = o, m.next ctx s₀ w₀ = o₀ at hend hmatches
          obtain ⟨result, -, -⟩ := hmatches
          obtain rfl : result = .ok none := hend
          exact ⟨rfl, rfl⟩
  | @row s w w' row rows hdisturbed hrow hrest ih =>
      by_cases hcancelled : w'.Cancelled ctx
      · exact (hrest.row hdisturbed.again hrow).of_cancelled hm (hagrees _) hcancelled hs w₀ hfuel
      · obtain ⟨fuel, rfl⟩ := Nat.exists_eq_succ_of_ne_zero (Nat.ne_of_gt
          (Nat.lt_of_le_of_lt (Nat.zero_le _) hfuel))
        rw [drainWith]
        obtain hlost | hmatches := (hagrees _).next ctx hs (hdisturbed.alike hw hcancelled)
        · -- the state that such a call leaves behind cannot be drained
          obtain ⟨-, hspoilt⟩ := hm.next_interrupted hsound hcancelled hlost _ hrow
          exact absurd (hrest.silent hm hlost) hspoilt
        · have hsound' := hm.next_sound hsound w'
          generalize m.next ctx s w' = o, m.next ctx s₀ w₀ = o₀ at hrow hmatches hsound' ih
          obtain ⟨result, hs, hw⟩ := hmatches
          obtain rfl : result = .ok (some row) := hrow
          obtain ⟨hrows, hresult⟩ := ih hsound' hs hw (Nat.lt_of_succ_lt_succ hfuel)
          exact ⟨congrArg (row :: ·) hrows, hresult⟩

end Drains

/-- A run that is opened and drained while its context can be cancelled at any time has the rows of
one that is left in peace. -/
theorem Heeds.runWith_of_drains (hm : m.Heeds ctx Sound Silent) (hagrees : ∀ L, m.Agrees L A R)
    (hrefl : ∀ s, R s s) {w' : World} (halarm : w.signals.alarm = none) (hknows : w.Knows ctx)
    (hdisturbed : w.Disturbed ctx w') (hopened : (m.openRun ctx s w').result = .ok ())
    (hdrains : m.Drains ctx (m.openRun ctx s w').state (m.openRun ctx s w').world rows)
    (hfuel : rows.length < fuel) :
    (m.runWith ctx fuel s w).1 = rows ∧ (m.runWith ctx fuel s w).2.result = .ok () := by
  have hspoilt (hcancelled : (m.openRun ctx s w').world.Cancelled ctx) :
      ¬ (m.openRun ctx s w').Spoilt Silent :=
    fun h => h () hopened (hdrains.silent hm hcancelled)
  have hknows' : w'.Knows ctx := by
    obtain ⟨_, _, -, -⟩ := hdisturbed
    exact hknows
  rw [runWith]
  by_cases hcancelled : w'.Cancelled ctx
  · have hstill := (hm.evolving.openRun ctx s w').isCancelled hcancelled
    obtain ⟨t, -, hopen⟩ := (hm.openRun_of_cancelled s hcancelled).resolve_left (hspoilt hstill)
    rw [hopen w'] at hdrains
    rw [hopen w]
    exact hdrains.of_cancelled hm (hagrees _) hcancelled (hrefl t) w hfuel
  · have halike := hdisturbed.alike (.calm_refl halarm ctx.token) hcancelled
    obtain hlost | hmatches := (hagrees _).openRun ctx (hrefl s) halike
    · exact absurd (hm.openRun_interrupted s hknows' hcancelled hlost) (hspoilt hlost)
    · have hsound := hm.openRun_sound s hknows' hopened
      generalize m.openRun ctx s w' = o, m.openRun ctx s w = o₀ at hopened hdrains hmatches hsound
      obtain ⟨result, hs, hw⟩ := hmatches
      obtain rfl : result = .ok () := hopened
      exact hdrains.of_alike hm hagrees hsound hs hw hfuel

end Machine

/-! ## Plans -/

namespace Plan

/-- The parallel maps of a tree that its root calls are as they should be while they are read. -/
def Sound (ctx : Context) : (p : Plan) → p.State → Prop
  | values .. => fun _ => True
  | scan _ => fun _ => True
  | select input _ => fun s : SelectCursor.State _ => input.Sound ctx s.input
  | project input _ => fun s : ProjectCursor.State _ => input.Sound ctx s.input
  | aggregate input _ => fun s : AggregateCursor.State _ => input.Sound ctx s.input
  | sort .. => fun _ => True
  | map .. => ParallelCursor.Sound ctx

/-- The rest of the run takes no notice of the world. -/
def Silent : (p : Plan) → p.State → Prop
  | values .. => fun s : ValuesCursor.State => s.base.state = .active
  | scan _ => fun _ => False
  | select input _ => Node.SilentOver input.Silent
  | project input _ => Node.SilentOver input.Silent
  | aggregate input _ => AggregateCursor.SilentOver input.Silent
  | sort .. => fun s : SortCursor.State _ => s.base.state = .active
  | map .. => fun _ => False

theorem cursor_heeds (p : Plan) (ctx : Context) :
    p.cursor.Heeds ctx (p.Sound ctx) p.Silent := by
  induction p with
  | values _ rows => exact ValuesCursor.heeds rows ctx
  | scan s => exact IndexScanCursor.heeds s ctx
  | select _ predicate ih => exact SelectCursor.heeds ih predicate
  | project _ p ih => exact ProjectCursor.heeds ih p
  | aggregate _ g ih => exact AggregateCursor.heeds ih g
  | sort _ s ih => exact SortCursor.heeds ih s
  | map input m => exact ParallelCursor.heeds input.cursor_evolving m ctx

/-! ## The scans of a tree -/

/-- The scans of a tree whose root is called in a context, those of workers included, each with the
context it is called in. -/
def scanCursors :
    (p : Plan) → Context → p.State → List (Context × IndexScan × IndexScanCursor.State)
  | values .., _ => fun _ => []
  | scan s, ctx => fun t => [(ctx, s, t)]
  | select input _, ctx => fun s : SelectCursor.State _ => input.scanCursors ctx s.input
  | project input _, ctx => fun s : ProjectCursor.State _ => input.scanCursors ctx s.input
  | aggregate input _, ctx => fun s : AggregateCursor.State _ => input.scanCursors ctx s.input
  | sort input _, ctx => fun s : SortCursor.State _ => input.scanCursors ctx s.input
  | map input _, _ => fun s : ParallelCursor.State input.State =>
      (s.run.toList.flatMap Run.workers).flatMap fun k => input.scanCursors k.context k.cursor

/-- No terms but that workers run in contexts below that of their map. -/
def belowTerms : Terms where
  World _ := True
  world_evolves _ h := h
  Error _ := True
  error_operational _ := trivial
  Employs ctx c := ∀ f ∈ ctx.token.flags, f ∈ c.token.flags
  employs _ _ _ _ hf := List.mem_cons_of_mem _ hf

/-- All workers of a tree whose root is called in a context run in contexts below it. -/
def WorkersBelow : (p : Plan) → Context → p.State → Prop
  | values .., _ => ValuesCursor.Kept fun _ => True
  | scan s, _ => IndexScanCursor.Kept (fun _ => True) s fun _ => True
  | select input _, ctx => SelectCursor.Kept (fun _ => True) (input.WorkersBelow ctx)
  | project input _, ctx => ProjectCursor.Kept (fun _ => True) (input.WorkersBelow ctx)
  | aggregate input _, ctx =>
      AggregateCursor.Kept (fun _ => True) (input.WorkersBelow ctx) fun _ => True
  | sort input _, ctx => SortCursor.Kept (fun _ => True) (input.WorkersBelow ctx) fun _ => True
  | map input _, ctx =>
      ParallelCursor.Kept belowTerms (fun _ => True) (fun _ => True) input.WorkersBelow ctx

theorem cursor_workersBelow (p : Plan) :
    p.cursor.Upholds belowTerms (fun _ => True) (fun _ => True) p.WorkersBelow := by
  have hfails {α : Type} (x : Except QueryError α) : FailsWith belowTerms.Error x :=
    fun _ _ => trivial
  induction p with
  | values => exact ValuesCursor.upholds fun _ _ => trivial
  | scan =>
      exact IndexScanCursor.upholds (fun _ _ => hfails _) (fun _ _ _ _ _ _ _ _ _ => trivial)
        fun _ _ => .of_failsWith (hfails _)
  | select _ _ ih => exact SelectCursor.upholds ih fun _ _ _ _ => hfails _
  | project _ _ ih => exact ProjectCursor.upholds ih fun _ _ _ _ => .of_failsWith (hfails _)
  | aggregate _ g ih =>
      refine AggregateCursor.upholds ih (P := fun _ => True) ⟨trivial, fun _ _ => trivial,
        fun _ _ => trivial, fun p _ => ⟨?_, trivial⟩, fun row p _ _ => ⟨?_, trivial⟩⟩
      · exact (Yields.of_failsWith (hfails _)).mono (fun _ h => h) fun _ _ _ _ => trivial
      · cases (AggregateCursor.take g row p).1 with
        | more => trivial
        | finished row => exact fun _ _ => trivial
        | failed e => trivial
  | sort _ _ ih => exact SortCursor.upholds ih
  | map _ _ ih => exact ParallelCursor.upholds ih fun _ _ _ _ => trivial

theorem WorkersBelow.scanCursors {p : Plan} {s : p.State} (h : p.WorkersBelow ctx s)
    {x : Context × IndexScan × IndexScanCursor.State} (hx : x ∈ p.scanCursors ctx s) :
    ∀ f ∈ ctx.token.flags, f ∈ x.1.token.flags := by
  induction p generalizing ctx with
  | values => cases hx
  | scan =>
      obtain rfl := List.mem_singleton.mp hx
      exact fun _ hf => hf
  | select _ _ ih | project _ _ ih | aggregate _ _ ih | sort _ _ ih => exact ih h.input hx
  | map input m ih =>
      obtain ⟨k, hk, hx⟩ := List.mem_flatMap.mp hx
      obtain ⟨r, hr, hk⟩ := List.mem_flatMap.mp hk
      have hworker := (h.run r (Option.mem_toList.mp hr)).workers k hk
      exact fun f hf => ih hworker.cursor hx f (hworker.employed f hf)

end Plan

/-- A state that calls in one context lead to from a new cursor, whatever happens to the world
between them. -/
inductive Machine.CalledIn {σ : Type} (m : Machine σ) (ctx : Context) (source : BindingSource) :
    σ → Prop
  | fresh : CalledIn m ctx source (m.fresh source)
  | call {s : σ} (h : CalledIn m ctx source s) (c : Call) (w : World) :
      CalledIn m ctx source (m.call c ctx s w).state

namespace Plan

theorem CalledIn.workersBelow {p : Plan} {source : BindingSource} {s : p.State}
    (h : p.cursor.CalledIn ctx source s) : p.WorkersBelow ctx s := by
  have hm := p.cursor_workersBelow
  have hsource : source.Supplies fun _ => True := by
    cases source with
    | single => trivial
    | several => exact fun _ _ => trivial
  induction h with
  | fresh => exact hm.fresh ctx hsource
  | call h c w ih => exact (hm.call c ctx ih (w := w) trivial).state

/-- Cancellation never truncates silently.  However the context of a run is cancelled, if the run is
opened and drained without an error, its rows are those of the run that starts in the same state
and is not cancelled, with the same choices between the steps of workers.  An open scan fails with
its next call once its context, or one above it, has been cancelled; and all scans of a tree, those
of workers included, are called in contexts below that of the tree. -/
theorem drained_rows_of_cancelled_run (p : Plan) (ctx : Context) :
    (∀ (s : p.State) (w w' : World) (rows : List Row),
      w.signals.alarm = none → w.Knows ctx → w.Disturbed ctx w' →
      (p.cursor.openRun ctx s w').result = .ok () →
      p.cursor.Drains ctx (p.cursor.openRun ctx s w').state (p.cursor.openRun ctx s w').world rows →
        ∀ fuel > rows.length, (p.cursor.runWith ctx fuel s w).1 = rows ∧
          (p.cursor.runWith ctx fuel s w).2.result = .ok ()) ∧
      (∀ (c : Context) (scan : IndexScan) (s : IndexScanCursor.State) (w : World),
        (∀ f ∈ ctx.token.flags, f ∈ c.token.flags) → s.base.state = .active → w.Cancelled ctx →
          (IndexScanCursor.next scan c s w).result = .error .cancelled) ∧
      ∀ (source : BindingSource) (s : p.State), p.cursor.CalledIn ctx source s →
        ∀ x ∈ p.scanCursors ctx s, ∀ f ∈ ctx.token.flags, f ∈ x.1.token.flags := by
  refine ⟨?_, ?_, ?_⟩
  · intro s w w' rows halarm hknows hdisturbed hopened hdrains fuel hfuel
    exact (p.cursor_heeds ctx).runWith_of_drains
      (fun _ => p.cursor_agrees (A := fun _ => True) fun _ _ => trivial)
      (AgreeOn.refl p _) halarm hknows hdisturbed hopened hdrains hfuel
  · intro c scan s w hbelow hactive hcancelled
    obtain ⟨f, hf, hraised⟩ := List.any_eq_true.mp hcancelled
    exact IndexScanCursor.next_of_cancelled scan hactive
      (List.any_eq_true.mpr ⟨f, hbelow f hf, hraised⟩)
  · intro source s hs x hx
    exact (CalledIn.workersBelow hs).scanCursors hx

/-- Two rows that have been sorted are handed out after the context has been cancelled.  An open
scan fails, and the scan of a worker runs in a context below that of its map. -/
theorem drained_rows_of_cancelled_run_sorted :
    let type : RowType := .ofFields [.int]
    let one : Row := ⟨type, [.int 1], rfl⟩
    let two : Row := ⟨type, [.int 2], rfl⟩
    let p : Plan := .sort (.values type [two, one]) ⟨[⟨0, true⟩], .preserve, 10⟩
    let made := (World.ofEngine .empty).newContext {}
    let s := p.cursor.fresh (.ofEnv .root)
    let opened := p.cursor.openRun made.1 s made.2
    let cancelled := opened.world.cancel made.1
    let ix : Index := ⟨"t", "i", [⟨"a", .int, true, .declared⟩], 1, false, none⟩
    let scan : IndexScan := ⟨ix, ⟨none, none⟩, .forward, false, type⟩
    let t : IndexScanCursor.State := ⟨⟨"IndexScan", .active, some .root, 0⟩, .ofEnv .root, none⟩
    let q : Plan := .map (.scan scan) ⟨[.value (.int 7)], 3⟩
    let supplied := (q.cursor.call .nextBindings made.1
      (q.cursor.call .openBindings made.1
        (q.cursor.fresh (.ofEnv .root)) made.2).state made.2).state
    let started := (q.cursor.call .openRun made.1 supplied made.2).state
    (p.cursor.Drains made.1 opened.state opened.world [one, two] ∧
        (p.cursor.runWith made.1 3 s made.2).1 = [one, two]) ∧
      (IndexScanCursor.next scan made.1 t cancelled).result = .error .cancelled ∧
      (q.scanCursors made.1 started).map (fun x => x.1.token.flags) = [[1, 0]] ∧
      ∀ x ∈ q.scanCursors made.1 started, 0 ∈ x.1.token.flags := by
  intro type one two p made s opened cancelled ix scan t q supplied started
  have hknows : made.2.Knows made.1 := List.forall_mem_singleton.mpr Nat.zero_lt_one
  have hcancel : opened.world.Disturbed made.1 cancelled :=
    .intro made.1.token.flags none (fun _ h => h) nofun
  have hdrains : p.cursor.Drains made.1 opened.state opened.world [one, two] :=
    .row hcancel rfl
      (.row (.intro [] none nofun nofun) rfl (.done (.intro [] none nofun nofun) rfl))
  have hstarted : q.cursor.CalledIn made.1 (.ofEnv .root) started :=
    ((Machine.CalledIn.fresh.call .openBindings made.2).call .nextBindings made.2).call
      .openRun made.2
  refine ⟨⟨hdrains, ?_⟩, ?_, by decide +kernel, ?_⟩
  · exact ((drained_rows_of_cancelled_run p made.1).1 s made.2 made.2 [one, two] rfl hknows
      (.intro [] none nofun nofun) rfl hdrains 3 (by decide)).1
  · exact (drained_rows_of_cancelled_run p made.1).2.1 made.1 scan t cancelled (fun _ h => h) rfl
      rfl
  · intro x hx
    exact (drained_rows_of_cancelled_run q made.1).2.2 _ started hstarted x hx 0 List.mem_cons_self

end Plan
end OrderedQuery
