import OrderedQuery.Proofs.Cursor.Discipline
import OrderedQuery.Proofs.Cursor.Parallel.Alone

/-!
# What a worker answers for

From its beginning until it has committed or abandoned its transaction, a worker answers for
that transaction and for being counted as finished, besides whatever its cursor answers for.
`Worker.Allows` collects what is to hold of a worker before each of its steps, and one lemma per
operation says that it holds after the step as well, and that the world has changed by what the
worker answers for and by nothing else.

The cursor of a worker that writes is used inside the transaction of the worker.
-/

namespace OrderedQuery

/-- How the cursor of a worker is used. -/
def Mode.access : Mode → Access
  | .readOnly => .free
  | .readWrite => .inside

namespace Phase

/-- The thread of the worker has not been ended from within. -/
def Returns : Phase → Prop
  | .closing result | .ending result | .reporting result => NoAbort result
  | .aborted => False
  | _ => True

/-- The cursor has not been opened yet, or has been destroyed. -/
def Unused : Phase → Prop
  | .opening | .pulling | .sending _ | .closing _ => False
  | _ => True

/-- What a worker with the given session answers for apart from its cursor. -/
def dues (s : SessionId) : Phase → Dues
  | .begin => .worker
  | .opening | .pulling | .sending _ | .closing _ | .ending _ => .session s + .worker
  | .reporting _ | .ended | .aborted => 0

end Phase

namespace Worker

variable {σ : Type}

/-- What a worker answers for. -/
def dues (D : Discipline σ) (k : Worker σ) : Dues :=
  k.phase.dues k.context.session + D.dues k.cursor

/-- A worker of a run that has been opened in a context. -/
structure Orderly (D : Discipline σ) (ctx : Context) (token : Token) (k : Worker σ) : Prop where
  config : k.context.config = ctx.config
  token : k.context.token = token
  cursor : D.Orderly k.context k.cursor
  returns : k.phase.Returns
  unused : k.phase.Unused → D.Rests k.cursor
  writes : ctx.config.mode = .readWrite → D.Rests k.cursor

/-- A worker can take a step, as far as transactions are concerned. -/
structure Allows (D : Discipline σ) (ctx : Context) (token : Token) (k : Worker σ) (w : World) :
    Prop where
  orderly : k.Orderly D ctx token
  clear : w.Clear ctx.config.mode (k.dues D)

/-- A worker has gone on as it should. -/
structure Leads (D : Discipline σ) (ctx : Context) (token : Token) (k : Worker σ) (w : World)
    (x : Worker σ × World) : Prop where
  allows : x.1.Allows D ctx token x.2
  accounts : Accounts (k.dues D) (x.1.dues D) w x.2

variable {m : Machine σ} {D : Discipline σ} {ctx context : Context} {token : Token}
  {k : Worker σ} {c c' : σ} {phase phase' : Phase} {w w' : World}

theorem dues_of_rests (h : D.Rests k.cursor) : k.dues D = k.phase.dues k.context.session := by
  rw [dues, D.dues_of_rests h, add_zero]

theorem Allows.leads_refl (h : k.Allows D ctx token w) : k.Leads D ctx token w (k, w) :=
  ⟨h, .refl _ w⟩

/-- Inside of its transaction, a worker can use its cursor. -/
theorem Allows.cursor (h : Allows D ctx token ⟨context, c, phase⟩ w)
    (hinside : phase.dues context.session = .session context.session + .worker) :
    D.Allows ctx.config.mode.access context c w := by
  obtain ⟨⟨hconfig, -, hcursor, -, -, hwrites⟩, hclear⟩ := h
  refine ⟨hcursor, ?_⟩
  cases hmode : ctx.config.mode with
  | readOnly =>
      show w.Clear context.config.mode (D.dues c)
      have hreads : context.config.mode = .readOnly := by rw [← hmode]; exact congrArg _ hconfig
      rw [hreads]
      exact w.clear_of_readOnly _
  | readWrite =>
      refine ⟨by rw [← hmode]; exact congrArg _ hconfig, hclear.held hmode _ ?_, hwrites hmode⟩
      rw [dues, hinside]
      simp [Dues.session]

/-- To use the cursor is a step of a worker that stays inside of its transaction. -/
theorem Allows.of_cursor (h : Allows D ctx token ⟨context, c, phase⟩ w)
    (hl : D.Leads ctx.config.mode.access context c w c' w')
    (hdues : phase'.dues context.session = phase.dues context.session)
    (hreturns : phase'.Returns) (hunused : phase'.Unused → D.Rests c') :
    Leads D ctx token ⟨context, c, phase⟩ w (⟨context, c', phase'⟩, w') := by
  obtain ⟨⟨hconfig, htoken, -, -, -, hwrites⟩, hclear⟩ := h
  have hwrites' : ctx.config.mode = .readWrite → D.Rests c' := by
    intro hmode
    have hinside := hl.allows.clear
    rw [hmode] at hinside
    exact hinside.2.2
  have haccounts : Accounts (dues D ⟨context, c, phase⟩) (dues D ⟨context, c', phase'⟩) w w' := by
    unfold dues
    rw [hdues]
    exact hl.accounts.add_left _
  refine ⟨⟨⟨hconfig, htoken, hl.allows.orderly, hreturns, hunused, hwrites'⟩,
    hclear.accounts haccounts ?_⟩, haccounts⟩
  -- whoever writes is the worker itself, whose transaction the cursor leaves alone
  intro hmode s hs
  have hcursor := hl.accounts
  rw [D.dues_of_rests (hwrites hmode), D.dues_of_rests (hwrites' hmode)] at hcursor
  rw [dues_of_rests (hwrites' hmode)] at hs
  have hheld := hclear.held hmode s
  rw [dues_of_rests (hwrites hmode)] at hheld
  rw [hcursor.inTransaction_eq]
  exact hheld (hdues ▸ hs)

/-- A step that does not use the cursor. -/
theorem Allows.of_unused (h : Allows D ctx token ⟨context, c, phase⟩ w) (hunused : phase.Unused)
    (hreturns : phase'.Returns)
    (ha : Accounts (phase.dues context.session) (phase'.dues context.session) w w')
    (hheld : ∀ s ∈ (phase'.dues context.session).sessions,
      w'.engine.inTransaction s = true) :
    Leads D ctx token ⟨context, c, phase⟩ w (⟨context, c, phase'⟩, w') := by
  obtain ⟨⟨hconfig, htoken, hcursor, -, hrests, hwrites⟩, hclear⟩ := h
  have hdues : ∀ phase, dues D ⟨context, c, phase⟩ = phase.dues context.session :=
    fun phase => dues_of_rests (hrests hunused)
  have haccounts : Accounts (dues D ⟨context, c, phase⟩) (dues D ⟨context, c, phase'⟩) w w' := by
    rwa [hdues, hdues]
  refine ⟨⟨⟨hconfig, htoken, hcursor, hreturns, fun _ => hrests hunused, hwrites⟩,
    hclear.accounts haccounts ?_⟩, haccounts⟩
  intro _ s hs
  rw [hdues] at hs
  exact hheld s hs

/-! ## Operations -/

theorem Allows.beginTransaction (h : Allows D ctx token ⟨context, c, .begin⟩ w) :
    Leads D ctx token ⟨context, c, .begin⟩ w
      (Worker.beginTransaction ⟨context, c, .begin⟩ w) := by
  unfold Worker.beginTransaction
  rcases w.beginWork_cases context with ⟨w', hbegun, ha, hin⟩ | ⟨e, w', hbegun, hpasses⟩
  · rw [hbegun]
    apply h.of_unused trivial
    · trivial
    · have hadded := ha.add_right .worker
      rwa [zero_add] at hadded
    · intro s hs
      obtain rfl : s = context.session := by
        simpa [Phase.dues, Dues.session, Dues.worker] using hs
      exact hin
  · rw [hbegun]
    apply h.of_unused trivial
    · intro habort
      cases habort
    · exact (hpasses.accounts _).trans w'.accounts_recordFinished
    · exact fun s hs => absurd hs (Multiset.notMem_zero s)

/-- Where a worker goes when an operation of its cursor has failed without ending the thread. -/
theorem stop_eq {e : QueryError} (he : e ≠ .aborted) (k : Worker σ) (c : σ) (w : World) :
    k.stop m c e w = ({ k with cursor := c, phase := .closing (.error e) }, w) := by
  rw [stop, if_neg he]

theorem Allows.openCursor (hm : m.Disciplined D)
    (h : Allows D ctx token ⟨context, c, .opening⟩ w) :
    Leads D ctx token ⟨context, c, .opening⟩ w
      (Worker.openCursor m ⟨context, c, .opening⟩ w) := by
  obtain ⟨hleads, hresult⟩ := hm.openTop (h.cursor rfl)
  unfold Worker.openCursor
  dsimp only
  generalize m.openTop context c w = o at hleads hresult
  obtain ⟨e | goes, c', w'⟩ := o
  · dsimp only
    rw [stop_eq hresult.ne_aborted]
    exact h.of_cursor hleads rfl hresult.of_error nofun
  · cases goes with
    | false => exact h.of_cursor hleads rfl (.ok ()) nofun
    | true => exact h.of_cursor hleads rfl trivial nofun

theorem Allows.pull (hm : m.Disciplined D) (h : Allows D ctx token ⟨context, c, .pulling⟩ w) :
    Leads D ctx token ⟨context, c, .pulling⟩ w (Worker.pull m ⟨context, c, .pulling⟩ w) := by
  obtain ⟨hleads, hresult⟩ := hm.next (h.cursor rfl)
  unfold Worker.pull
  dsimp only
  generalize m.next context c w = o at hleads hresult
  obtain ⟨e | row, c', w'⟩ := o
  · dsimp only
    rw [stop_eq hresult.ne_aborted]
    exact h.of_cursor hleads rfl hresult.of_error nofun
  · cases row with
    | none => exact h.of_cursor hleads rfl (.ok ()) nofun
    | some row =>
        have hchecked := hleads.passes (w'.passes_check context)
        have hresult := w'.noAbort_check context
        dsimp only
        generalize w'.check context = x at hchecked hresult
        obtain ⟨e | _, w''⟩ := x
        · exact h.of_cursor hchecked rfl hresult.of_error nofun
        · exact h.of_cursor hchecked rfl trivial nofun

/-- Nothing is left of the cursor after it has been destroyed. -/
theorem Allows.close (hm : m.Disciplined D) {pumped : Except QueryError Unit}
    (h : Allows D ctx token ⟨context, c, .closing pumped⟩ w) :
    Leads D ctx token ⟨context, c, .closing pumped⟩ w
      (Worker.close m ⟨context, c, .closing pumped⟩ pumped w) := by
  obtain ⟨hclosed, hresult⟩ := hm.closeTop (h.cursor rfl)
  obtain ⟨hdestroyed, hresult'⟩ := hm.destroy hclosed.allows
  have hpumped : NoAbort pumped := h.orderly.returns
  exact h.of_cursor (hclosed.trans hdestroyed) rfl
    (hpumped.firstError (hresult.firstError hresult')) fun _ => hm.destroyed hclosed.allows

/-- Whether it is committed or abandoned, the transaction has come to its end. -/
theorem Allows.endTransaction {result : Except QueryError Unit}
    (h : Allows D ctx token ⟨context, c, .ending result⟩ w) :
    Leads D ctx token ⟨context, c, .ending result⟩ w
      (Worker.endTransaction ⟨context, c, .ending result⟩ result w) := by
  have hends : ∀ {w'}, Accounts (.session context.session) 0 w w' →
      Accounts (.session context.session + .worker) 0 w w'.recordFinished := by
    intro w' ha
    have hadded := ha.add_right .worker
    rw [zero_add] at hadded
    exact hadded.trans w'.accounts_recordFinished
  have hreturns : NoAbort result := h.orderly.returns
  cases result with
  | ok _ =>
      exact h.of_unused trivial (w.noAbort_commitWork context)
        (hends (w.accounts_commitWork context)) fun s hs => absurd hs (Multiset.notMem_zero s)
  | error e =>
      exact h.of_unused trivial hreturns (hends (w.accounts_rollback context))
        fun s hs => absurd hs (Multiset.notMem_zero s)

/-! ## Steps -/

/-- A step of a worker, whatever the state of the channel. -/
theorem Allows.step (hm : m.Disciplined D) (h : k.Allows D ctx token w) (i : Nat) (ch : Channel) :
    k.Leads D ctx token w ((k.step m i ch w).1, (k.step m i ch w).2.2) := by
  obtain ⟨context, c, phase⟩ := k
  unfold Worker.step
  cases phase with
  | begin => exact h.beginTransaction
  | opening => exact h.openCursor hm
  | pulling => exact h.pull hm
  | sending row =>
      dsimp only
      split
      · exact h.of_cursor (.refl (h.cursor rfl)) rfl trivial nofun
      · exact h.of_cursor (.refl (h.cursor rfl)) rfl (fun habort => nomatch habort) nofun
  | closing pumped => exact h.close hm
  | ending result => exact h.endTransaction
  | reporting result =>
      exact h.of_unused trivial trivial (.refl _ w) fun s hs => absurd hs (Multiset.notMem_zero s)
  | ended => exact h.leads_refl
  | aborted => exact h.leads_refl

end Worker
end OrderedQuery
