import OrderedQuery.Proofs.Cursor.Listing
import OrderedQuery.Proofs.Cursor.Parallel.Alone

/-!
# Workers over a listing

If a cursor hands out a listing, then so does a worker that runs it on its own: it sends the
rows of the listing in their order, and its report is the way the listing ends, unless the
engine refuses its transaction.
-/

namespace OrderedQuery

namespace Listing

/-- The listing of a run, which may fail before its first row. -/
def ofRun : Except QueryError Listing → Listing
  | .error e => ⟨[], .error e⟩
  | .ok l => l

/-- What a worker over the listing reports after it has sent some rows. -/
inductive Reports (l : Listing) (rows : List Row) : Except QueryError Unit → Prop
  | all {result : Except QueryError Unit} (hl : l = ⟨rows, result⟩) : Reports l rows result
  | refused {e : StoreError} (hrows : rows <+: l.rows) : Reports l rows (.error (.store e))

end Listing

theorem Calm.resumes {ctx : Context} {store : Store} {w w' : World} (hw : Calm ctx store w)
    (hresumes : w.Resumes w') : Calm ctx store w' where
  silent := hresumes.silent
  live := by
    have hlive := hw.live
    rw [Signals.isCancelled] at hlive ⊢
    rwa [hresumes.raised]
  view := by
    have hview := hw.view
    rw [Engine.view, Engine.transaction?] at hview ⊢
    rwa [hresumes.active, hresumes.committed]

/-- A worker's transaction begins on what its session saw before. -/
theorem Calm.beginWork {ctx : Context} {store : Store} {w : World} (hw : Calm ctx store w)
    (hactive : w.engine.active = []) :
    (∃ w', w.beginWork ctx = (.ok (), w') ∧ Calm ctx store w') ∨
      ∃ e w', w.beginWork ctx = (.error (.store e), w') := by
  have hcommitted : w.engine.committed = store := by
    have hview := hw.view
    rwa [Engine.view, Engine.transaction?, hactive] at hview
  rcases World.beginWork_of_active_eq_nil hactive ctx with ⟨refusals, hbegun⟩ | hrefused
  · refine .inl ⟨_, hbegun, hw.silent, hw.live, ?_⟩
    rw [Engine.view, Engine.transaction?]
    simpa using hcommitted
  · exact .inr hrefused

/-- A commit fails with an error of the store. -/
theorem World.commitWork_cases (w : World) (ctx : Context) :
    (w.commitWork ctx).1 = .ok () ∨ ∃ e, (w.commitWork ctx).1 = .error (.store e) := by
  unfold commitWork
  dsimp only
  split
  · exact .inr ⟨_, rfl⟩
  · split
    · exact .inl rfl
    · exact .inr ⟨_, rfl⟩

namespace Worker

variable {σ : Type}

/-- Where a worker over a listing stands after it has sent some messages. -/
inductive Follows (m : Machine σ) (Live : Standing σ) (store : Store) (i : Nat)
    (context : Context) (env : Env) (l : Listing) : Worker σ → List Message → World → Prop
  | begin {w : World} (hw : Calm context store w) (hactive : w.engine.active = []) :
      Follows m Live store i context env l ⟨context, m.fresh (.ofEnv env), .begin⟩ [] w
  | opening {w : World} (hw : Calm context store w) :
      Follows m Live store i context env l ⟨context, m.fresh (.ofEnv env), .opening⟩ [] w
  | pulling {cursor : σ} {rows rest : List Row} {w : World} (hw : Calm context store w)
      (hl : l.rows = rows ++ rest)
      (hhands : m.Hands context store (Live (.single env true false) (some env)) l.fate rest
        cursor) :
      Follows m Live store i context env l ⟨context, cursor, .pulling⟩ (rows.map (.row i)) w
  | sending {cursor : σ} {rows rest : List Row} {row : Row} {w : World}
      (hw : Calm context store w) (hl : l.rows = rows ++ row :: rest)
      (hhands : m.Hands context store (Live (.single env true false) (some env)) l.fate rest
        cursor) :
      Follows m Live store i context env l ⟨context, cursor, .sending row⟩
        (rows.map (.row i)) w
  | closing {cursor : σ} {rows : List Row} {pumped : Except QueryError Unit} {w : World}
      (hl : l = ⟨rows, pumped⟩)
      (hlive : pumped = .ok () → Live (.single env true false) (some env) cursor) :
      Follows m Live store i context env l ⟨context, cursor, .closing pumped⟩
        (rows.map (.row i)) w
  | ending {cursor : σ} {rows : List Row} {result : Except QueryError Unit} {w : World}
      (hl : l = ⟨rows, result⟩) :
      Follows m Live store i context env l ⟨context, cursor, .ending result⟩
        (rows.map (.row i)) w
  | reporting {cursor : σ} {rows : List Row} {result : Except QueryError Unit} {w : World}
      (hreports : l.Reports rows result) :
      Follows m Live store i context env l ⟨context, cursor, .reporting result⟩
        (rows.map (.row i)) w
  | ended {cursor : σ} {rows : List Row} {result : Except QueryError Unit} {w : World}
      (hreports : l.Reports rows result) :
      Follows m Live store i context env l ⟨context, cursor, .ended⟩
        (rows.map (.row i) ++ [report i result]) w
  | aborted {cursor : σ} {rows : List Row} {w : World} (hl : l = ⟨rows, .error .aborted⟩) :
      Follows m Live store i context env l ⟨context, cursor, .aborted⟩ (rows.map (.row i)) w

namespace Follows

variable {m : Machine σ} {Live Idle : Standing σ} {store : Store} {i : Nat} {context : Context}
  {env : Env} {l : Listing} {k : Worker σ} {sent : List Message} {w w' : World}

theorem resumes (h : Follows m Live store i context env l k sent w) (hw : w.Resumes w') :
    Follows m Live store i context env l k sent w' := by
  cases h with
  | begin hcalm hactive => exact .begin (hcalm.resumes hw) (hw.active.trans hactive)
  | opening hcalm => exact .opening (hcalm.resumes hw)
  | pulling hcalm hl hhands => exact .pulling (hcalm.resumes hw) hl hhands
  | sending hcalm hl hhands => exact .sending (hcalm.resumes hw) hl hhands
  | closing hl hlive => exact .closing hl hlive
  | ending hl => exact .ending hl
  | reporting hreports => exact .reporting hreports
  | ended hreports => exact .ended hreports
  | aborted hl => exact .aborted hl

theorem stop {e : QueryError} (rows : List Row) (hl : l = ⟨rows, .error e⟩) (cursor cursor' : σ)
    (phase : Phase) (w : World) :
    Follows m Live store i context env l (Worker.stop m ⟨context, cursor, phase⟩ cursor' e w).1
      (rows.map (.row i)) (Worker.stop m ⟨context, cursor, phase⟩ cursor' e w).2 := by
  unfold Worker.stop
  split
  · rename_i haborted
    exact .aborted (by rw [hl, haborted])
  · exact .closing hl nofun

theorem openCursor {listing : Env → Except QueryError Listing}
    (hconduct : m.Conduct context Live Idle)
    (hopens : m.Opens context store Live Idle listing) (hw : Calm context store w) :
    Follows m Live store i context env (.ofRun (listing env))
      (Worker.openCursor m ⟨context, m.fresh (.ofEnv env), .opening⟩ w).1 []
      (Worker.openCursor m ⟨context, m.fresh (.ofEnv env), .opening⟩ w).2 := by
  obtain ⟨s, hidle, hopenTop⟩ := hconduct.openTop_eq env w
  have hrun := hopens hidle hw
  rw [Worker.openCursor, hopenTop]
  cases hlisting : listing env with
  | error e =>
      rw [hlisting] at hrun
      obtain ⟨s', w', hfailed⟩ := hrun
      rw [hfailed]
      exact stop [] rfl _ s' _ w'
  | ok l =>
      rw [hlisting] at hrun
      obtain ⟨s', w', hopened, hhands, hw'⟩ := hrun
      rw [hopened]
      have hl : l.rows = [] ++ l.rows := rfl
      exact .pulling hw' hl hhands

theorem pull {cursor : σ} {rows rest : List Row} (hw : Calm context store w)
    (hl : l.rows = rows ++ rest)
    (hhands : m.Hands context store (Live (.single env true false) (some env)) l.fate rest
      cursor) :
    Follows m Live store i context env l (Worker.pull m ⟨context, cursor, .pulling⟩ w).1
      (rows.map (.row i)) (Worker.pull m ⟨context, cursor, .pulling⟩ w).2 := by
  obtain ⟨all, fate⟩ := l
  obtain rfl : all = rows ++ rest := hl
  cases rest with
  | nil =>
      obtain ⟨s', w', hnext, hlive, hw'⟩ := hhands.2 w hw
      rw [Worker.pull, hnext]
      have hall : Listing.mk (rows ++ []) fate = ⟨rows, fate⟩ := by rw [List.append_nil]
      cases fate with
      | error e => exact stop rows hall cursor s' _ w'
      | ok u => exact .closing hall fun _ => hlive
  | cons row rest =>
      obtain ⟨-, s', w', hnext, hrest, hw'⟩ := hhands.2 w hw
      rw [Worker.pull, hnext]
      simp only [hw'.check]
      exact .sending hw' rfl hrest

theorem close {cursor : σ} {rows : List Row} {pumped : Except QueryError Unit}
    (hconduct : m.Conduct context Live Idle) (hl : l = ⟨rows, pumped⟩)
    (hlive : pumped = .ok () → Live (.single env true false) (some env) cursor) (w : World) :
    Follows m Live store i context env l
      (Worker.close m ⟨context, cursor, .closing pumped⟩ pumped w).1 (rows.map (.row i))
      (Worker.close m ⟨context, cursor, .closing pumped⟩ pumped w).2 := by
  unfold Worker.close
  cases pumped with
  | error e => exact .ending hl
  | ok u =>
      obtain ⟨s₁, hclosed, hidle₁⟩ := hconduct.closeRun (hlive rfl) w
      obtain ⟨s₂, hunbound, hidle₂⟩ := hconduct.closeBindings hidle₁ w
      obtain ⟨s₃, hdestroyed⟩ := hconduct.destroy hidle₂ w
      simp only [Machine.closeTop, hclosed, hunbound, hdestroyed, firstError]
      exact .ending hl

theorem endTransaction {cursor : σ} {rows : List Row} {result : Except QueryError Unit}
    (hl : l = ⟨rows, result⟩) (w : World) :
    Follows m Live store i context env l
      (Worker.endTransaction ⟨context, cursor, .ending result⟩ result w).1 (rows.map (.row i))
      (Worker.endTransaction ⟨context, cursor, .ending result⟩ result w).2 := by
  unfold Worker.endTransaction
  cases result with
  | error e => exact .reporting (.all hl)
  | ok u =>
      rcases w.commitWork_cases context with hcommitted | ⟨e, hrefused⟩
      · simp only [hcommitted]
        exact .reporting (.all hl)
      · simp only [hrefused]
        exact .reporting (.refused (hl ▸ List.prefix_rfl))

/-- Whatever a worker over a listing does, it is a worker over that listing. -/
theorem advance {listing : Env → Except QueryError Listing}
    (hconduct : m.Conduct context Live Idle)
    (hopens : m.Opens context store Live Idle listing)
    (h : Follows m Live store i context env (.ofRun (listing env)) k sent w) :
    Follows m Live store i context env (.ofRun (listing env)) (k.advance m i w).1
      (sent ++ (k.advance m i w).2.1) (k.advance m i w).2.2 := by
  cases h with
  | begin hw hactive =>
      unfold Worker.advance step beginTransaction
      rcases hw.beginWork hactive with ⟨w', hbegun, hw'⟩ | ⟨e, w', hrefused⟩
      · simp only [hbegun]
        exact .opening hw'
      · simp only [hrefused]
        have hreports : (Listing.ofRun (listing env)).Reports [] (.error (.store e)) :=
          .refused List.nil_prefix
        exact .reporting hreports
  | opening hw => exact openCursor hconduct hopens hw
  | pulling hw hl hhands =>
      rw [Worker.advance, step, Channel.vacant, List.append_nil]
      exact pull hw hl hhands
  | @sending cursor rows rest row w hw hl hhands =>
      have hsent : rows.map (Message.row i) ++ [.row i row] = (rows ++ [row]).map (.row i) := by
        rw [List.map_append]
        rfl
      have hnext : Follows m Live store i context env (.ofRun (listing env))
          ⟨context, cursor, .pulling⟩ (rows.map (.row i) ++ [.row i row]) w := by
        rw [hsent]
        exact .pulling hw (by rw [hl, List.append_assoc]; rfl) hhands
      exact hnext
  | closing hl hlive =>
      rw [Worker.advance, step, Channel.vacant, List.append_nil]
      exact close hconduct hl hlive _
  | ending hl =>
      rw [Worker.advance, step, Channel.vacant, List.append_nil]
      exact endTransaction hl _
  | reporting hreports => exact .ended hreports
  | ended hreports =>
      rw [Worker.advance, step, Channel.vacant, List.append_nil]
      exact .ended hreports
  | aborted hl =>
      rw [Worker.advance, step, Channel.vacant, List.append_nil]
      exact .aborted hl

end Follows

/-- A worker on its own stays a worker over the listing of its cursor. -/
theorem Alone.follows {m : Machine σ} {Live Idle : Standing σ} {store : Store} {i : Nat}
    {context : Context} {env : Env} {k : Worker σ} {sent : List Message} {w : World}
    {listing : Env → Except QueryError Listing} (hconduct : m.Conduct context Live Idle)
    (hopens : m.Opens context store Live Idle listing)
    (h : Alone m store i context env k sent w) :
    Follows m Live store i context env (.ofRun (listing env)) k sent w := by
  induction h with
  | start hw =>
      have hcalm : Calm context store _ :=
        ⟨hw.silent, by simp [Signals.isCancelled, hw.raised], by
          rw [Engine.view, Engine.transaction?, hw.active, hw.committed]; rfl⟩
      exact .begin hcalm hw.active
  | wait h hw ih => exact ih.resumes hw
  | step h ih => exact ih.advance hconduct hopens

end Worker
end OrderedQuery
