import OrderedQuery.Proofs.Cursor.Parallel.WindingUp

/-!
# What a call makes of a run

A call on the cursor of a parallel map leaves its run alone, opens one, leads it on, or lets it
go after all of its workers have come to their ends.  `Turn` has a constructor for each of these.
So the cursor keeps to a discipline, over any input that does.
-/

namespace OrderedQuery
namespace ParallelCursor

open Run (Steps Concludes)

variable {σ : Type}

/-- A parallel map answers for the workers of its open run. -/
def discipline (D : Discipline σ) (p : Partitioning) : Discipline (State σ) where
  Orderly ctx s := ∀ r, s.run = some r →
    s.base.state = .active ∧ r.channel.hasReader = true ∧ r.Orderly D p ctx
  Rests s := s.run = none
  dues s := (s.run.map (Run.dues D)).getD 0
  dues_of_rests h := by
    rw [h]
    rfl

/-- What a call makes of the run of a cursor. -/
inductive Turn (m : Machine σ) (D : Discipline σ) (p : Partitioning) (ctx : Context)
    (s : State σ) (w : World) (s' : State σ) (w' : World) : Prop where
  /-- The run is as it was, if there is one. -/
  | keeps (hrun : s'.run = s.run) (hbase : s.run ≠ none → s'.base.state = s.base.state)
      (hw : w.Passes w')
  /-- A run has been opened. -/
  | opens {r : Run σ} (hnone : s.run = none) (hmode : checkMode p ctx w = .ok ())
      (hsteps : Steps m p ctx (begun p ctx w) (r, w')) (hreader : r.channel.hasReader = true)
      (hactive : s'.base.state = .active) (hrun : s'.run = some r)
  /-- A run could not be opened, and what had been started of it has come to its end. -/
  | fails (hnone : s.run = none) (hmode : checkMode p ctx w = .ok ())
      (h : Concludes m D p ctx (begun p ctx w) w') (hrun : s'.run = none)
  /-- The run has gone on. -/
  | goes {r r' : Run σ} (hrun : s.run = some r) (hsteps : Steps m p ctx (r, w) (r', w'))
      (hreader : r'.channel.hasReader = true) (hactive : s'.base.state = .active)
      (hrun' : s'.run = some r')
  /-- The run has come to its end. -/
  | ends {r : Run σ} (hrun : s.run = some r) (h : Concludes m D p ctx (r, w) w')
      (hrun' : s'.run = none)

variable {m : Machine σ} {D : Discipline σ} {p : Partitioning} {ctx : Context}
  {access : Access} {r : Run σ} {s s' : State σ} {w w' : World}

theorem dues_eq (hrun : s.run = some r) : (discipline D p).dues s = r.dues D := by
  show (s.run.map (Run.dues D)).getD 0 = r.dues D
  rw [hrun]
  rfl

/-- A cursor has a run only while it is active. -/
theorem run_eq_none (hs : (discipline D p).Orderly ctx s) (h : s.base.state ≠ .active) :
    s.run = none := by
  cases hrun : s.run with
  | none => rfl
  | some r => exact absurd (hs r hrun).1 h

/-- Workers can begin transactions as long as a run is open. -/
theorem allows_run (hs : (discipline D p).Allows access ctx s w) (hrun : s.run = some r) :
    access = .free ∧ Run.Allows D p ctx (r, w) := by
  obtain ⟨horderly, hclear⟩ := hs
  obtain ⟨-, -, hr⟩ := horderly r hrun
  cases access with
  | inside =>
      obtain ⟨-, -, hnone⟩ := hclear
      rw [show s.run = none from hnone] at hrun
      cases hrun
  | free =>
      have hworld : w.Clear ctx.config.mode ((discipline D p).dues s) := hclear
      rw [dues_eq hrun] at hworld
      exact ⟨rfl, hr, hworld⟩

/-- No run is started inside of a transaction if its workers would write. -/
theorem clear_of_checkMode (hs : (discipline D p).Clear access ctx s w) (hnone : s.run = none)
    (hmode : checkMode p ctx w = .ok ()) : access = .free ∧ w.Clear ctx.config.mode 0 := by
  cases access with
  | inside =>
      obtain ⟨hwrites, hin, -⟩ := hs
      unfold checkMode at hmode
      rw [hwrites, hin] at hmode
      dsimp only at hmode
      split at hmode
      · cases hmode
      · cases hmode
  | free =>
      have hworld : w.Clear ctx.config.mode ((discipline D p).dues s) := hs
      rw [(discipline D p).dues_of_rests hnone] at hworld
      exact ⟨rfl, hworld⟩

/-- A cursor with an open run. -/
theorem leads_of_run {d : Dues} (ha : Accounts d (r.dues D) w w')
    (hr : Run.Allows D p ctx (r, w')) (hreader : r.channel.hasReader = true)
    (hactive : s'.base.state = .active) (hrun : s'.run = some r)
    (hd : (discipline D p).dues s = d) :
    (discipline D p).Leads .free ctx s w s' w' := by
  have hclear : w'.Clear ctx.config.mode ((discipline D p).dues s') := by
    rw [dues_eq hrun]
    exact hr.clear
  refine ⟨⟨?_, hclear⟩, ?_⟩
  · intro r' hrun'
    obtain rfl := Option.some.inj (hrun.symm.trans hrun')
    exact ⟨hactive, hreader, hr.orderly⟩
  · rw [hd, dues_eq hrun]
    exact ha

/-- A cursor that has no run any more. -/
theorem leads_of_none {d : Dues} (ha : Accounts d 0 w w') (hw : w.Clear ctx.config.mode d)
    (hrun : s'.run = none) (hd : (discipline D p).dues s = d) :
    (discipline D p).Leads .free ctx s w s' w' := by
  have hzero := (discipline D p).dues_of_rests hrun
  have hclear : w'.Clear ctx.config.mode ((discipline D p).dues s') := by
    rw [hzero]
    exact hw.accounts ha fun _ s hs => absurd hs (Multiset.notMem_zero s)
  refine ⟨⟨?_, hclear⟩, ?_⟩
  · intro r hr
    rw [hrun] at hr
    cases hr
  · rw [hd, hzero]
    exact ha

/-- Whatever a call makes of the run, it keeps to the discipline. -/
theorem Turn.leads (hm : m.Disciplined D) (h : Turn m D p ctx s w s' w')
    (hs : (discipline D p).Allows access ctx s w) :
    (discipline D p).Leads access ctx s w s' w' := by
  cases h with
  | keeps hrun hbase hw =>
      have hdues : (discipline D p).dues s' = (discipline D p).dues s := by
        show (s'.run.map (Run.dues D)).getD 0 = (s.run.map (Run.dues D)).getD 0
        rw [hrun]
      have hclear : (discipline D p).Clear access ctx s' w := by
        cases access with
        | free =>
            show w.Clear ctx.config.mode _
            rw [hdues]
            exact hs.clear
        | inside =>
            obtain ⟨hmode, hin, hnone⟩ := hs.clear
            exact ⟨hmode, hin, hrun.trans hnone⟩
      refine ⟨⟨?_, hclear.passes hw⟩, ?_⟩
      · intro r hr
        have hr' : s.run = some r := hrun.symm.trans hr
        obtain ⟨hactive, hrest⟩ := hs.orderly r hr'
        have hsome : s.run ≠ none := by rw [hr']; exact nofun
        exact ⟨(hbase hsome).trans hactive, hrest⟩
      · rw [hdues]
        exact hw.accounts _
  | opens hnone hmode hsteps hreader hactive hrun =>
      obtain ⟨rfl, hw⟩ := clear_of_checkMode hs.clear hnone hmode
      obtain ⟨hr, haccounts⟩ := hsteps.leads hm (allows_begun hmode hw)
      exact leads_of_run (((w.passes_newChild ctx.token).accounts 0).trans haccounts) hr hreader
        hactive hrun ((discipline D p).dues_of_rests hnone)
  | fails hnone hmode hconcludes hrun =>
      obtain ⟨rfl, hw⟩ := clear_of_checkMode hs.clear hnone hmode
      have haccounts := hconcludes.accounts hm (allows_begun hmode hw)
      exact leads_of_none (((w.passes_newChild ctx.token).accounts 0).trans haccounts) hw hrun
        ((discipline D p).dues_of_rests hnone)
  | goes hrun hsteps hreader hactive hrun' =>
      obtain ⟨rfl, hr⟩ := allows_run hs hrun
      obtain ⟨hr', haccounts⟩ := hsteps.leads hm hr
      exact leads_of_run haccounts hr' hreader hactive hrun' (dues_eq hrun)
  | ends hrun hconcludes hrun' =>
      obtain ⟨rfl, hr⟩ := allows_run hs hrun
      exact leads_of_none (hconcludes.accounts hm hr) hr.clear hrun' (dues_eq hrun)

/-! ## Calls -/

theorem Turn.refl (s : State σ) (w : World) : Turn m D p ctx s w s w :=
  .keeps rfl (fun _ => rfl) (.refl w)

/-- There was no run, and there is none. -/
theorem Turn.of_none (hrun : s.run = none) (hrun' : s'.run = none) (hw : w.Passes w') :
    Turn m D p ctx s w s' w' :=
  .keeps (hrun'.trans hrun.symm) (fun hsome => absurd hrun hsome) hw

/-- Nothing else of the state matters once there is no run. -/
theorem Turn.of_run_eq_none {s'' : State σ} (h : Turn m D p ctx s w s' w') (hrun : s'.run = none)
    (hrun' : s''.run = none) : Turn m D p ctx s w s'' w' := by
  cases h with
  | keeps hkept _ hw => exact .of_none (hkept.symm.trans hrun) hrun' hw
  | opens _ _ _ _ _ hopened => exact absurd (hrun.symm.trans hopened) nofun
  | fails hnone hmode hconcludes _ => exact .fails hnone hmode hconcludes hrun'
  | goes _ _ _ _ hgone => exact absurd (hrun.symm.trans hgone) nofun
  | ends hr hconcludes _ => exact .ends hr hconcludes hrun'

/-- An operation that leaves run and world as they were. -/
theorem Turn.of_stays {α : Type} {o : Outcome (State σ) α} (h : Leaf.Stays s w o) :
    Turn m D p ctx s w o.state o.world :=
  .keeps h.run (fun _ => h.state) (h.world.symm ▸ .refl w)

/-- Opening a run that fails leaves none. -/
theorem openRun_turn (hm : m.Disciplined D) (hs : (discipline D p).Allows access ctx s w) :
    Turn m D p ctx s w (openRun m p ctx s w).state (openRun m p ctx s w).world ∧
      NoAbort (openRun m p ctx s w).result ∧
      ((openRun m p ctx s w).result ≠ .ok () → (openRun m p ctx s w).state.run = s.run) := by
  by_cases hidle : s.base.state = .idle
  · have hnone : s.run = none := run_eq_none hs.orderly (by rw [hidle]; exact nofun)
    rw [openRun, CursorBase.beginOpen_eq_ok hidle]
    dsimp only
    rcases startRun_cases hm { s.base with state := .active }
        fun hmode => (clear_of_checkMode hs.clear hnone hmode).2 with
      ⟨e, he, hrefused⟩ | ⟨hmode, hstarts⟩
    · rw [hrefused]
      exact ⟨.of_none hnone hnone (.refl w), .error he, fun _ => rfl⟩
    · generalize startRun m p ctx { s.base with state := .active } w = started at hstarts
      cases hstarts with
      | started hsteps hreader =>
          exact ⟨.opens hnone hmode hsteps hreader rfl rfl, .ok (), fun h => absurd rfl h⟩
      | failed he hconcludes =>
          exact ⟨.fails hnone hmode hconcludes hnone, .error he, fun _ => rfl⟩
  · rw [openRun, CursorBase.beginOpen_eq_error hidle]
    exact ⟨.refl s w, .violation _ _, fun _ => rfl⟩

/-- Asking for a row leaves a run open only if it returns one. -/
theorem next_turn (hm : m.Disciplined D) (hs : (discipline D p).Allows access ctx s w) :
    Turn m D p ctx s w (next m ctx s w).state (next m ctx s w).world ∧
      NoAbort (next m ctx s w).result ∧
      ((∀ row, (next m ctx s w).result ≠ .ok (some row)) → (next m ctx s w).state.run = none) := by
  by_cases hactive : s.base.state = .active
  · rw [next, CursorBase.checkNext_eq_ok hactive]
    dsimp only
    cases hrun : s.run with
    | none =>
        have hchecked := w.passes_check ctx
        have hresult := w.noAbort_check ctx
        rw [patience, receive]
        generalize w.check ctx = checked at hchecked hresult
        obtain ⟨e | _, w'⟩ := checked
        · simp only [fail, hrun]
          exact ⟨.of_none hrun hrun hchecked, .error hresult.ne_aborted, fun _ => trivial⟩
        · simp only [hrun]
          exact ⟨.of_none hrun rfl hchecked, .ok _, fun _ => trivial⟩
    | some r =>
        obtain ⟨-, hr⟩ := allows_run hs hrun
        have hfuel : w.schedule.length + r.live < patience s w := by
          rw [patience, hrun]
          exact Nat.lt_succ_self _
        have htakes := receive_takes hm hr (hs.orderly r hrun).2.1 hrun hactive hfuel
        generalize receive m ctx (patience s w) s w = o at htakes
        cases htakes with
        | @row r' s' w' row hsteps hreader hactive' hrun' =>
            exact ⟨.goes hrun hsteps hreader hactive' hrun', .ok _,
              fun hrow => absurd rfl (hrow row)⟩
        | ended hresult hrow hconcludes hrun' =>
            exact ⟨.ends hrun hconcludes hrun', hresult, fun _ => hrun'⟩
  · rw [next, CursorBase.checkNext_eq_error hactive]
    exact ⟨.refl s w, .violation _ _, fun _ => run_eq_none hs.orderly hactive⟩

theorem closeRun_turn (hm : m.Disciplined D) (hs : (discipline D p).Allows access ctx s w) :
    Turn m D p ctx s w (closeRun m ctx s w).state (closeRun m ctx s w).world ∧
      NoAbort (closeRun m ctx s w).result ∧ (closeRun m ctx s w).state.run = none := by
  by_cases hdestroyed : s.base.state = .destroyed
  · have hinactive : s.base.state ≠ .active := by
      rw [hdestroyed]
      rintro ⟨⟩
    rw [closeRun, CursorBase.beginClose_eq_error hdestroyed]
    exact ⟨.refl s w, .violation _ _, run_eq_none hs.orderly hinactive⟩
  · rw [closeRun, CursorBase.beginClose_eq_ok hdestroyed]
    dsimp only
    cases hrun : s.run with
    | none =>
        exact ⟨.of_none hrun rfl (.refl w), .ok _, rfl⟩
    | some r =>
        obtain ⟨-, hr⟩ := allows_run hs hrun
        obtain ⟨hsteps, hended⟩ := hr.shutdown hm
        dsimp only
        rw [hended.verdict_eq]
        exact ⟨.ends hrun ⟨_, hsteps, hended⟩ rfl, .ok _, rfl⟩

theorem destroy_turn (hm : m.Disciplined D) (hs : (discipline D p).Allows access ctx s w) :
    let o := Leaf.destroy (closeRun m) ctx s w
    Turn m D p ctx s w o.state o.world ∧ NoAbort o.result ∧ o.state.run = none := by
  obtain ⟨hturn, hresult, hnone⟩ := closeRun_turn hm hs
  by_cases hdestroyed : s.base.state = .destroyed
  · rw [closeRun, CursorBase.beginClose_eq_error hdestroyed] at hnone
    rw [Leaf.destroy, CursorBase.ensureLive_eq_error hdestroyed]
    exact ⟨.refl s w, .violation _ _, hnone⟩
  · rw [Leaf.destroy, CursorBase.ensureLive_eq_ok hdestroyed]
    exact ⟨hturn.of_run_eq_none hnone hnone, hresult, hnone⟩

theorem call_turn (hm : m.Disciplined D) (hs : (discipline D p).Allows access ctx s w)
    (c : Call) :
    let o := (machine m p).call c ctx s w
    Turn m D p ctx s w o.state o.world ∧ NoAbort o.result := by
  cases c with
  | openRun =>
      obtain ⟨hturn, hresult, -⟩ := openRun_turn hm hs
      exact ⟨hturn, hresult.map _⟩
  | next =>
      obtain ⟨hturn, hresult, -⟩ := next_turn hm hs
      exact ⟨hturn, hresult.map _⟩
  | closeRun =>
      obtain ⟨hturn, hresult, -⟩ := closeRun_turn hm hs
      exact ⟨hturn, hresult.map _⟩
  | destroy =>
      obtain ⟨hturn, hresult, -⟩ := destroy_turn hm hs
      exact ⟨hturn, hresult.map _⟩
  | openBindings =>
      have hstays := Leaf.openBindings_stays ctx s w
      have hturn : Turn m D p ctx s w _ _ := .of_stays hstays
      exact ⟨hturn, hstays.result.map _⟩
  | nextBindings =>
      have hstays := Leaf.nextBindings_stays ctx s w
      have hturn : Turn m D p ctx s w _ _ := .of_stays hstays
      exact ⟨hturn, hstays.result.map _⟩
  | closeBindings =>
      have hstays := Leaf.closeBindings_stays ctx s w
      have hturn : Turn m D p ctx s w _ _ := .of_stays hstays
      exact ⟨hturn, hstays.result.map _⟩

/-- A parallel map keeps to its discipline over any input that keeps to one. -/
theorem disciplined (hm : m.Disciplined D) (p : Partitioning) :
    (machine m p).Disciplined (discipline D p) where
  fresh ctx source := nofun
  rests source := rfl
  respects c := by
    intro access ctx s w hs
    obtain ⟨hturn, hresult⟩ := call_turn hm hs c
    exact ⟨hturn.leads hm hs, hresult⟩
  destroyed hs := (destroy_turn hm hs).2.2

end ParallelCursor
end OrderedQuery
