import OrderedQuery.Plan.Cursor

/-!
# Executing a plan

A plan is executed once for every environment of a source, and the rows of all runs are put
together.  The cursor is closed and destroyed whether or not a run fails; an error of a run
comes before errors of closing.
-/

namespace OrderedQuery
namespace Machine

variable {σ : Type}

/-- Runs the cursor once for every environment there is left, `fuel` at most, and collects
the rows. -/
def runEach (m : Machine σ) (ctx : Context) : Nat → σ → World → Outcome σ (List Row)
  | 0, s, w => ⟨.error .stalled, s, w⟩
  | fuel + 1, s, w =>
      let o := m.nextBindings ctx s w
      match o.result with
      | .error e => ⟨.error e, o.state, o.world⟩
      | .ok none => ⟨.ok [], o.state, o.world⟩
      | .ok (some _) =>
          let o := m.openRun ctx o.state o.world
          match o.result with
          | .error e => ⟨.error e, o.state, o.world⟩
          | .ok () =>
              let o := m.collect ctx o.state o.world
              match o.result with
              | .error e => ⟨.error e, o.state, o.world⟩
              | .ok rows =>
                  let o := m.closeRun ctx o.state o.world
                  match o.result with
                  | .error e => ⟨.error e, o.state, o.world⟩
                  | .ok () =>
                      let o := m.runEach ctx fuel o.state o.world
                      ⟨o.result.map (rows ++ ·), o.state, o.world⟩

/-- Runs the cursor once for each of `count` environments. -/
def runAll (m : Machine σ) (count : Nat) : Action σ (List Row) := fun ctx s w =>
  let o := m.openBindings ctx s w
  match o.result with
  | .error e => ⟨.error e, o.state, o.world⟩
  | .ok () => m.runEach ctx (count + 1) o.state o.world

end Machine

namespace Plan

/-- Runs a plan in every environment of a source. -/
def executeWith (p : Plan) (ctx : Context) (source : BindingSource) (w : World) :
    Except QueryError (List Row) × World :=
  let m := p.cursor
  let run := m.runAll source.size ctx (m.fresh source) w
  let closed := m.closeTop ctx run.state run.world
  let destroyed := m.destroy ctx closed.state closed.world
  match run.result with
  | .error e => (.error e, destroyed.world)
  | .ok rows =>
      match firstError closed.result destroyed.result with
      | .error e => (.error e, destroyed.world)
      | .ok () => (.ok rows, destroyed.world)

/-- Runs a plan in one environment. -/
def execute (p : Plan) (ctx : Context) (env : Env) (w : World) :
    Except QueryError (List Row) × World :=
  p.executeWith ctx (.ofEnv env) w

end Plan
end OrderedQuery
