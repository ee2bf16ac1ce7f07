import OrderedQuery.Proofs.Plan.Closing
import OrderedQuery.Proofs.Plan.Execution

/-!
# Running a plan again

Once a tree of cursors has been closed and has moved on to its next environment, it is the twin of
a new tree in that environment, whatever has become of its earlier runs.  So it runs as a new tree
would.  Executing a plan in several environments is therefore no different from executing it in
one of them after the other, each time with a new tree.
-/

namespace OrderedQuery

/-- A supply that hands out `envs` and then ends. -/
def BindingSource.HandsOut : List Env → BindingSource → Prop
  | [], source => source.take.1 = .ok none
  | env :: envs, source => source.take.1 = .ok (some env) ∧ HandsOut envs source.take.2

namespace BindingSource

theorem handsOut_ofEnv (env : Env) : (ofEnv env).openUp.HandsOut [env] := ⟨rfl, rfl⟩

theorem handsOut_several (taken envs : List Env) :
    (several (taken ++ envs) taken.length true).HandsOut envs := by
  induction envs generalizing taken with
  | nil =>
      rw [HandsOut, take, List.append_nil, List.getElem?_length]
  | cons env envs ih =>
      have hrest := ih (taken ++ [env])
      rw [List.append_assoc, List.singleton_append, List.length_append] at hrest
      have htake : (several (taken ++ env :: envs) taken.length true).take =
          (.ok (some env), several (taken ++ env :: envs) (taken.length + 1) true) := by
        rw [take, List.getElem?_append_right (Nat.le_refl _), Nat.sub_self]
        rfl
      rw [HandsOut, htake]
      exact ⟨rfl, hrest⟩

theorem handsOut_ofEnvs (envs : List Env) : (ofEnvs envs).openUp.HandsOut envs :=
  handsOut_several [] envs

end BindingSource

namespace Machine

variable {σ : Type} {m : Machine σ} {ctx : Context} {s : σ} {w : World}

/-- One run, from opening to closing, and its rows. -/
def once (m : Machine σ) : Action σ (List Row) := fun ctx s w =>
  let opened := m.openRun ctx s w
  match opened.result with
  | .error e => ⟨.error e, opened.state, opened.world⟩
  | .ok () =>
      let collected := m.collect ctx opened.state opened.world
      match collected.result with
      | .error e => ⟨.error e, collected.state, collected.world⟩
      | .ok rows =>
          let closed := m.closeRun ctx collected.state collected.world
          ⟨closed.result.map fun () => rows, closed.state, closed.world⟩

/-- A new cursor that has been supplied with an environment. -/
def freshIn (m : Machine σ) (ctx : Context) (env : Env) (w : World) : σ :=
  let opened := m.openBindings ctx (m.fresh (.ofEnv env)) w
  (m.nextBindings ctx opened.state opened.world).state

/-- What the caller sees of a run: its rows, the way it ends and the world it leaves behind. -/
def seen (run : List Row × Outcome σ Unit) : List Row × Except QueryError Unit × World :=
  (run.1, run.2.result, run.2.world)

/-- There are no more environments. -/
theorem runEach_of_none {fuel : Nat} {s' : σ} {w' : World}
    (h : m.nextBindings ctx s w = ⟨.ok none, s', w'⟩) :
    m.runEach ctx (fuel + 1) s w = ⟨.ok [], s', w'⟩ := by
  rw [runEach]
  simp only [h]

/-- The run in the next environment comes before the others. -/
theorem runEach_of_some {fuel : Nat} {env : Env} {s' : σ} {w' : World}
    (h : m.nextBindings ctx s w = ⟨.ok (some env), s', w'⟩) :
    m.runEach ctx (fuel + 1) s w =
      match (m.once ctx s' w').result with
      | .error e => ⟨.error e, (m.once ctx s' w').state, (m.once ctx s' w').world⟩
      | .ok rows =>
          let rest := m.runEach ctx fuel (m.once ctx s' w').state (m.once ctx s' w').world
          ⟨rest.result.map (rows ++ ·), rest.state, rest.world⟩ := by
  rw [runEach]
  simp only [h]
  rw [once]
  obtain ⟨e | _, s₁, w₁⟩ := m.openRun ctx s' w'
  · rfl
  · dsimp only
    obtain ⟨e | rows, s₂, w₂⟩ := m.collect ctx s₁ w₁
    · rfl
    · dsimp only
      obtain ⟨e | _, s₃, w₃⟩ := m.closeRun ctx s₂ w₂
      · rfl
      · rfl

theorem Twins.once {Twin : σ → σ → Prop} (hm : m.Twins Twin) : m.once.Respects Twin := by
  intro ctx s s' h w
  have hopened := hm.openRun ctx h w
  rw [Machine.once, Machine.once]
  generalize m.openRun ctx s w = o, m.openRun ctx s' w = o' at hopened
  obtain @⟨s₁, s₁', opened, hopened, w₁⟩ := hopened
  cases opened with
  | error e => exact .intro _ hopened w₁
  | ok _ =>
      have hcollected := hm.collect ctx hopened w₁
      dsimp only
      generalize m.collect ctx s₁ w₁ = o, m.collect ctx s₁' w₁ = o' at hcollected
      obtain @⟨s₂, s₂', collected, hcollected, w₂⟩ := hcollected
      cases collected with
      | error e => exact .intro _ hcollected w₂
      | ok rows =>
          have hclosed := hm.closeRun ctx hcollected w₂
          dsimp only
          generalize m.closeRun ctx s₂ w₂ = o, m.closeRun ctx s₂' w₂ = o' at hclosed
          obtain ⟨closed, hclosed, w₃⟩ := hclosed
          exact .intro _ hclosed w₃

end Machine

/-- Collects rows in one environment after the other, until that fails. -/
def inEach (run : Env → World → Except QueryError (List Row) × World) :
    List Env → World → Except QueryError (List Row) × World
  | [], w => (.ok [], w)
  | env :: envs, w =>
      match run env w with
      | (.error e, w) => (.error e, w)
      | (.ok rows, w) =>
          let (rest, w) := inEach run envs w
          (rest.map (rows ++ ·), w)

theorem inEach_singleton (run : Env → World → Except QueryError (List Row) × World) (env : Env)
    (w : World) : inEach run [env] w = run env w := by
  rw [inEach]
  obtain ⟨e | rows, w'⟩ := run env w
  · rfl
  · exact congrArg (fun rows => (Except.ok rows, w')) (List.append_nil rows)

/-- Where nothing is disturbed, the rows of each environment can be collected by itself. -/
theorem inEach_eq_mapM {ctx : Context} {store : Store}
    {run : Env → World → Except QueryError (List Row) × World}
    {rowsIn : Env → Except QueryError (List Row)}
    (hrows : ∀ env {w}, Calm ctx store w → (run env w).1 = rowsIn env)
    (hcalm : ∀ {env w}, Calm ctx store w → ∀ {rows}, (run env w).1 = .ok rows →
      Calm ctx store (run env w).2) (envs : List Env) {w : World} (hw : Calm ctx store w) :
    (inEach run envs w).1 = (envs.mapM rowsIn).map List.flatten := by
  induction envs generalizing w with
  | nil => rfl
  | cons env envs ih =>
      have hfirst := hrows env hw
      have hafter := fun rows => @hcalm env w hw rows
      rw [inEach, List.mapM_cons, ← hfirst]
      generalize run env w = x at hafter
      obtain ⟨e | rows, w'⟩ := x
      · rfl
      · have hrest := ih (hafter rows rfl)
        dsimp only
        rw [hrest]
        cases envs.mapM rowsIn with
        | error e => rfl
        | ok rest => rfl

namespace Plan

variable {p : Plan} {ctx : Context} {source : BindingSource} {env : Option Env} {s : p.State}
  {w : World}

/-! ## After the last run -/

/-- Closes and destroys the tree that has been run.  An error of the runs comes first. -/
def conclude (p : Plan) (ctx : Context) (run : Outcome p.State (List Row)) :
    Except QueryError (List Row) × World :=
  let closed := p.cursor.closeTop ctx run.state run.world
  let destroyed := p.cursor.destroy ctx closed.state closed.world
  match run.result with
  | .error e => (.error e, destroyed.world)
  | .ok rows =>
      match firstError closed.result destroyed.result with
      | .error e => (.error e, destroyed.world)
      | .ok () => (.ok rows, destroyed.world)

/-- All there is to do is to close the run. -/
theorem Held.windUp (h : p.Held source env s) (ctx : Context) (w : World) :
    ∃ s', p.cursor.closeTop ctx s w =
        ⟨(p.cursor.closeRun ctx s w).result, s', (p.cursor.closeRun ctx s w).world⟩ ∧
      ∀ w', (p.cursor.destroy ctx s' w').result = .ok () ∧
        (p.cursor.destroy ctx s' w').world = w' := by
  obtain ⟨hheld, hclosed⟩ := p.upkeep.closeRun h ctx w
  obtain ⟨s', hunbound, hheld', hclosed'⟩ := p.upkeep.closeBindings hheld ctx
    (p.cursor.closeRun ctx s w).world
  refine ⟨s', ?_, p.upkeep.destroy hheld' (hclosed' hclosed) ctx⟩
  rw [Machine.closeTop, hunbound]
  cases (p.cursor.closeRun ctx s w).result with
  | error e => rfl
  | ok _ => rfl

theorem conclude_error (h : p.Held source env s) (e : QueryError) :
    p.conclude ctx ⟨.error e, s, w⟩ = (.error e, (p.cursor.closeRun ctx s w).world) := by
  obtain ⟨s', hclosed, hdestroyed⟩ := Held.windUp h ctx w
  rw [conclude]
  dsimp only
  rw [hclosed, (hdestroyed _).2]

theorem conclude_ok (h : p.Held source env s) (hs : p.Closed s) (rows : List Row) :
    p.conclude ctx ⟨.ok rows, s, w⟩ = (.ok rows, w) := by
  obtain ⟨hresult, hworld⟩ := p.upkeep.closeAgain h hs ctx w
  obtain ⟨s', hclosed, hdestroyed⟩ := Held.windUp h ctx w
  rw [conclude]
  dsimp only
  rw [hclosed, (hdestroyed _).1, (hdestroyed _).2, hresult, hworld]
  rfl

/-- Rows can be added before or after the tree is closed. -/
theorem conclude_map (f : List Row → List Row) (run : Outcome p.State (List Row)) :
    p.conclude ctx ⟨run.result.map f, run.state, run.world⟩ =
      ((p.conclude ctx run).1.map f, (p.conclude ctx run).2) := by
  obtain ⟨e | rows, s, w⟩ := run
  · rfl
  · rw [conclude, conclude]
    dsimp only [Except.map]
    split
    · rfl
    · rfl

/-! ## One run after another -/

/-- A new tree that has been supplied with an environment. -/
theorem held_freshIn (p : Plan) (ctx : Context) (env : Env) (w : World) :
    p.Held (.single env true false) (some env) (p.cursor.freshIn ctx env w) ∧
      p.Closed (p.cursor.freshIn ctx env w) := by
  obtain ⟨hheld, hclosed⟩ := p.upkeep.fresh (.ofEnv env)
  obtain ⟨s₁, hopened, hheld₁, hclosed₁⟩ := p.upkeep.openBindings hheld ctx w
  obtain ⟨s₂, hmoved, hheld₂, hclosed₂⟩ := p.upkeep.nextBindings hheld₁ ctx w
  rw [Machine.freshIn, hopened]
  dsimp only
  rw [hmoved]
  exact ⟨hheld₂, hclosed₂ (hclosed₁ hclosed)⟩

/-- A closed tree that moves on to an environment is the twin of a new tree there. -/
theorem twin_freshIn (h : p.Held source env s) (hs : p.Closed s) {env' : Env}
    (htake : source.take.1 = .ok (some env')) (ctx : Context) (w : World) :
    ∃ s', p.cursor.nextBindings ctx s w = ⟨.ok (some env'), s', w⟩ ∧
      p.Held source.take.2 (some env') s' ∧
      ∀ ctx' w', p.Twin (some env') source.take.2 (.single env' true false) s'
        (p.cursor.freshIn ctx' env' w') := by
  obtain ⟨s', hmoved, hheld, hclosed⟩ := p.upkeep.nextBindings h ctx w
  have henv : source.envAfter env = some env' := by rw [BindingSource.envAfter, htake]
  rw [htake] at hmoved
  rw [henv] at hheld
  refine ⟨s', hmoved, hheld, ?_⟩
  intro ctx' w'
  obtain ⟨hnew, hnewClosed⟩ := p.held_freshIn ctx' env' w'
  exact p.upkeep.twins hheld hnew (hclosed hs) hnewClosed

/-- A run that does not fail ends with a closed tree. -/
theorem Held.once (h : p.Held source env s) (ctx : Context) (w : World) :
    p.Held source env (p.cursor.once ctx s w).state ∧
      ∀ rows, (p.cursor.once ctx s w).result = .ok rows →
        p.Closed (p.cursor.once ctx s w).state := by
  have hm := p.cursor_twins env source source
  refine ⟨(hm.once ctx h w).state, ?_⟩
  have hopened := (hm.openRun ctx h w).state
  rw [Machine.once]
  generalize p.cursor.openRun ctx s w = o at hopened
  obtain ⟨e | _, s₁, w₁⟩ := o
  · exact nofun
  · have hcollected := (hm.collect ctx hopened w₁).state
    dsimp only at hcollected ⊢
    generalize p.cursor.collect ctx s₁ w₁ = o at hcollected
    obtain ⟨e | rows, s₂, w₂⟩ := o
    · exact nofun
    · exact fun _ _ => (p.upkeep.closeRun hcollected ctx w₂).2

/-- One run of a new tree in an environment. -/
def alone (p : Plan) (ctx : Context) (env : Env) (w : World) :
    Except QueryError (List Row) × World :=
  p.conclude ctx (p.cursor.once ctx (p.cursor.freshIn ctx env w) w)

/-- Every run of a tree is that of a new one. -/
theorem conclude_runEach {envs : List Env} (h : p.Held source env s) (hs : p.Closed s)
    (henvs : source.HandsOut envs) :
    p.conclude ctx (p.cursor.runEach ctx (envs.length + 1) s w) = inEach (p.alone ctx) envs w := by
  induction envs generalizing source env s w with
  | nil =>
      obtain ⟨s', hmoved, hheld, hclosed⟩ := p.upkeep.nextBindings h ctx w
      rw [henvs] at hmoved
      rw [Machine.runEach_of_none hmoved]
      exact conclude_ok hheld (hclosed hs) []
  | cons env' envs ih =>
      obtain ⟨htake, hrest⟩ := henvs
      obtain ⟨s', hmoved, hheld, hnew⟩ := twin_freshIn h hs htake ctx w
      obtain ⟨hnewHeld, -⟩ := p.held_freshIn ctx env' w
      have hm := p.cursor_twins (some env') source.take.2 (.single env' true false)
      have hone := hm.once ctx (hnew ctx w) w
      have hleft := Held.once hheld ctx w
      have hright := Held.once hnewHeld ctx w
      rw [List.length_cons, Machine.runEach_of_some hmoved, inEach, alone]
      generalize p.cursor.once ctx s' w = o, p.cursor.once ctx (p.cursor.freshIn ctx env' w) w = o'
        at hone hleft hright
      obtain @⟨s₁, s₁', result, htwin, w₁⟩ := hone
      obtain ⟨hheld₁, hclosed₁⟩ := hleft
      obtain ⟨hheld₁', hclosed₁'⟩ := hright
      cases result with
      | error e =>
          have hended := hm.closeRun ctx htwin w₁
          dsimp only
          rw [conclude_error hheld₁, conclude_error hheld₁', hended.world_eq]
      | ok rows =>
          dsimp only
          rw [conclude_map, ih hheld₁ (hclosed₁ rows rfl) hrest,
            conclude_ok hheld₁' (hclosed₁' rows rfl)]

theorem executeWith_eq_inEach (p : Plan) (ctx : Context) {source : BindingSource} {envs : List Env}
    (hsize : source.size = envs.length) (henvs : source.openUp.HandsOut envs) (w : World) :
    p.executeWith ctx source w = inEach (p.alone ctx) envs w := by
  obtain ⟨hheld, hclosed⟩ := p.upkeep.fresh source
  obtain ⟨s, hopened, hheld', hclosed'⟩ := p.upkeep.openBindings hheld ctx w
  have hrun : p.cursor.runAll source.size ctx (p.cursor.fresh source) w =
      p.cursor.runEach ctx (envs.length + 1) s w := by
    rw [Machine.runAll, hopened, hsize]
  have hconclude : p.executeWith ctx source w =
      p.conclude ctx (p.cursor.runAll source.size ctx (p.cursor.fresh source) w) := rfl
  rw [hconclude, hrun]
  exact conclude_runEach hheld' (hclosed' hclosed) henvs

theorem execute_eq_alone (p : Plan) (ctx : Context) (env : Env) (w : World) :
    p.execute ctx env w = p.alone ctx env w :=
  (p.executeWith_eq_inEach ctx rfl (BindingSource.handsOut_ofEnv env) w).trans
    (inEach_singleton _ env w)

/-- A tree that has been closed and has moved on to an environment runs as a new tree there. -/
theorem seen_rerun (hs : p.cursor.Reached source s) (hlive : (p.cursor.base s).state ≠ .destroyed)
    (ctx₁ : Context) (w₁ : World) (ctx₂ : Context) (w₂ : World) {env : Env} :
    let closed := p.cursor.closeRun ctx₁ s w₁
    let supplied := p.cursor.nextBindings ctx₂ closed.state w₂
    supplied.result = .ok (some env) → ∀ ctx w fuel,
      Machine.seen (p.cursor.runWith ctx fuel supplied.state w) =
        Machine.seen (p.cursor.runWith ctx fuel (p.cursor.freshIn ctx env w) w) := by
  intro closed supplied hsupplied ctx w fuel
  obtain ⟨source', env', hheld⟩ := held_of_reached hs hlive
  obtain ⟨hheld, hclosed⟩ := p.upkeep.closeRun hheld ctx₁ w₁
  have htake : source'.take.1 = .ok (some env) := by
    obtain ⟨s', hmoved, -, -⟩ := p.upkeep.nextBindings hheld ctx₂ w₂
    rw [← hsupplied]
    exact (congrArg Outcome.result hmoved).symm
  obtain ⟨s', hmoved, -, hnew⟩ := twin_freshIn hheld hclosed htake ctx₂ w₂
  have hstate : supplied.state = s' := congrArg Outcome.state hmoved
  obtain ⟨hrows, hend⟩ := (p.cursor_twins _ _ _).runWith ctx fuel (hnew ctx w) w
  rw [hstate, Machine.seen, Machine.seen, hrows, hend.result_eq, hend.world_eq]

theorem executeWith_ofEnvs (p : Plan) (ctx : Context) (envs : List Env) (w : World) :
    p.executeWith ctx (.ofEnvs envs) w = inEach (p.execute ctx) envs w := by
  have halone : p.execute ctx = p.alone ctx := by
    funext env w
    exact p.execute_eq_alone ctx env w
  rw [halone]
  exact p.executeWith_eq_inEach ctx rfl (BindingSource.handsOut_ofEnvs envs) w

/-- Without parallel maps, and while nothing disturbs the plan, it does not matter in which world
it is executed in each environment. -/
theorem Built.executeWith_ofEnvs {registry : Registry} (hp : Built registry p) {store : Store}
    (hw : Calm ctx store w) (envs : List Env) :
    (p.executeWith ctx (.ofEnvs envs) w).1 =
      (envs.mapM fun env => (p.execute ctx env w).1).map List.flatten := by
  obtain ⟨Live, Idle, hconduct, hopens⟩ := hp.opens ctx store
  rw [p.executeWith_ofEnvs]
  refine inEach_eq_mapM ?_ (calm_execute hconduct hopens) envs hw
  intro env w' hw'
  rw [execute_eq hconduct hopens env hw', execute_eq hconduct hopens env hw]

/-- A run leaves nothing behind that a later one could tell.  Whatever calls have been made on a
tree of cursors, unless they have destroyed it: once it has been closed and has moved on to an
environment, opening it and taking its rows gives the same rows, ends in the same way and changes
the world in the same way as with a new tree in that environment.

So executing a plan in several environments is executing it in one after the other, each time with
a new tree, until that fails.  Without parallel maps, and while nothing disturbs the plan, the
outcome is put together from those of each environment in one and the same world. -/
theorem runs_leave_no_trace (p : Plan) :
    (∀ {source s}, p.cursor.Reached source s → (p.cursor.base s).state ≠ .destroyed →
      ∀ ctx₁ w₁ ctx₂ w₂ {env},
        let closed := p.cursor.closeRun ctx₁ s w₁
        let supplied := p.cursor.nextBindings ctx₂ closed.state w₂
        supplied.result = .ok (some env) → ∀ ctx w fuel,
          Machine.seen (p.cursor.runWith ctx fuel supplied.state w) =
            Machine.seen (p.cursor.runWith ctx fuel (p.cursor.freshIn ctx env w) w)) ∧
      (∀ envs ctx w,
        p.executeWith ctx (.ofEnvs envs) w = inEach (p.execute ctx) envs w) ∧
      ∀ {registry}, Built registry p → ∀ {ctx store w}, Calm ctx store w → ∀ envs,
        (p.executeWith ctx (.ofEnvs envs) w).1 =
          (envs.mapM fun env => (p.execute ctx env w).1).map List.flatten :=
  ⟨seen_rerun, fun envs ctx w => p.executeWith_ofEnvs ctx envs w,
    fun hp _ _ _ hw envs => hp.executeWith_ofEnvs hw envs⟩

/-- Having failed to divide by zero, the sort is closed.  In the next environment it returns the
quotient there, as a new one does.  Executing the plan in both environments fails in the first. -/
theorem runs_leave_no_trace_zeroThenTwo :
    let m := sortedQuotient.cursor
    let made := (World.ofEngine .empty).newContext {}
    let zero := Env.root.set 0 (.value (.int 0))
    let two := Env.root.set 0 (.value (.int 2))
    let supplied := m.openBindings made.1 (m.fresh zeroThenTwo) made.2
    let first := m.nextBindings made.1 supplied.state supplied.world
    let failed := m.openRun made.1 first.state first.world
    let closed := m.closeRun made.1 failed.state failed.world
    let second := m.nextBindings made.1 closed.state closed.world
    let rerun := m.runWith made.1 2 second.state second.world
    let new := m.runWith made.1 2 (m.freshIn made.1 two second.world) second.world
    failed.result = .error .divisionByZero ∧
      Machine.seen rerun = Machine.seen new ∧ rerun.1.map Row.values = [[.int 4]] ∧
      rerun.2.result = .ok () ∧
      sortedQuotient.executeWith made.1 (.ofEnvs [zero, two]) made.2 =
        inEach (sortedQuotient.execute made.1) [zero, two] made.2 ∧
      (sortedQuotient.executeWith made.1 (.ofEnvs [zero, two]) made.2).1.map (·.map Row.values) =
        .error .divisionByZero := by
  intro m made zero two supplied first failed closed second rerun new
  have hreached : m.Reached zeroThenTwo failed.state :=
    .call (.call (.call .fresh .openBindings made.1 made.2) .nextBindings made.1 supplied.world)
      .openRun made.1 first.world
  have hlive : (m.base failed.state).state ≠ .destroyed := by decide +kernel
  have hsecond : second.result = .ok (some two) := rfl
  obtain ⟨hruns, heach, -⟩ := runs_leave_no_trace sortedQuotient
  exact ⟨by decide +kernel,
    hruns hreached hlive made.1 failed.world made.1 closed.world hsecond made.1 second.world 2,
    by decide +kernel, by decide +kernel, heach [zero, two] made.1 made.2, by decide +kernel⟩

end Plan
end OrderedQuery
