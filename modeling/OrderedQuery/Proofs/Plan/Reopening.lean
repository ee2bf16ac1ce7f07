import OrderedQuery.Proofs.Plan.Refusals

/-!
# Opening again after a failure

Opening a tree of cursors can fail halfway down.  Every cursor on the way back up is idle again,
and so is the tree as a whole, unless a sort has failed while it took the rows of its input: the
sort is then idle over an input that it has left open.  The next attempt to open the tree is
refused by that input, whatever the environment is, until the tree has been closed.
-/

namespace OrderedQuery

/-- States that calls of certain kinds lead to, in whatever contexts and worlds they are made. -/
inductive Machine.Via {σ : Type} (m : Machine σ) (C : Call → Prop) (s : σ) : σ → Prop
  | now : Via m C s s
  | call {s' : σ} (h : Via m C s s') {c : Call} (hc : C c) (ctx : Context) (w : World) :
      Via m C s (m.call c ctx s' w).state

namespace Call

/-- The call is about the supply of environments. -/
def Supplies : Call → Prop
  | openBindings | nextBindings | closeBindings => True
  | _ => False

/-- The call neither closes nor destroys. -/
def LeavesOpen : Call → Prop
  | closeRun | destroy => False
  | _ => True

theorem Supplies.leadsTo {c : Call} (hc : c.Supplies) (state : CursorState)
    (result : Except QueryError Reply) : c.leadsTo state result = state := by
  cases c with
  | openBindings => rfl
  | nextBindings => rfl
  | closeBindings => rfl
  | _ => exact hc.elim

end Call

/-- Calls about the supply of environments change neither name nor state of a cursor. -/
theorem Machine.Obeys.base_of_supplies {σ : Type} {m : Machine σ} {name : String}
    {tree : σ → List CursorState} (h : m.Obeys name tree) {c : Call} (hc : c.Supplies)
    (ctx : Context) (s : σ) (w : World) :
    (m.base (m.call c ctx s w).state).name = (m.base s).name ∧
      (m.base (m.call c ctx s w).state).state = (m.base s).state := by
  obtain ⟨hrefuses, hmoves⟩ := h.answers c ctx s w
  by_cases hallowed : c.Allowed (m.base s).state
  · obtain ⟨hname, hstate⟩ := hmoves hallowed
    exact ⟨hname, hstate.trans (hc.leadsTo _ _)⟩
  · rw [hrefuses hallowed]
    exact ⟨rfl, rfl⟩

/-- A cursor that is not idle refuses to be opened.  An idle one is active afterwards, or idle
again if it could not be opened. -/
theorem Machine.Obeys.openRun_cases {σ : Type} {m : Machine σ} {name : String}
    {tree : σ → List CursorState} (h : m.Obeys name tree) (ctx : Context) (s : σ) (w : World) :
    let o := m.openRun ctx s w
    (m.base s).state ≠ .idle ∧ o = ⟨.error ((m.base s).violation "open"), s, w⟩ ∨
      (m.base s).state = .idle ∧
        ((∃ e, o.result = .error e) ∧ (m.base o.state).state = .idle ∨
          o.result = .ok () ∧ (m.base o.state).state = .active) := by
  obtain ⟨hrefuses, hmoves⟩ := h.answers .openRun ctx s w
  have hcall : m.call .openRun ctx s w = (m.openRun ctx s w).map fun () => .done := rfl
  rw [hcall] at hrefuses hmoves
  generalize m.openRun ctx s w = o at hrefuses hmoves
  obtain ⟨result, s', w'⟩ := o
  by_cases hidle : (m.base s).state = .idle
  · obtain ⟨-, hstate⟩ := hmoves hidle
    cases result with
    | error e => exact .inr ⟨hidle, .inl ⟨⟨e, rfl⟩, hstate⟩⟩
    | ok _ => exact .inr ⟨hidle, .inr ⟨rfl, hstate⟩⟩
  · obtain ⟨hresult, hs, hw⟩ := Outcome.mk.inj (hrefuses hidle)
    dsimp only at hresult hs hw
    cases result with
    | error e =>
        have he : e = (m.base s).violation "open" := Except.error.inj hresult
        refine .inl ⟨hidle, ?_⟩
        rw [he, hs, hw]
    | ok _ => cases hresult

/-! ## Nodes -/

namespace Node

variable {ρ σ : Type} {m : Machine σ} {ctx : Context} {s : Node ρ σ} {w : World}

/-- An idle node over an input of which `P` holds. -/
def IdleOver (P : σ → Prop) (s : Node ρ σ) : Prop := s.base.state = .idle ∧ P s.input

/-- A node takes its environments from its input. -/
structure SuppliedBy (n : Machine (Node ρ σ)) (m : Machine σ) : Prop where
  base : n.base = base
  openBindings : n.openBindings = openBindings m
  nextBindings : n.nextBindings = nextBindings m
  closeBindings : n.closeBindings = closeBindings m

namespace SuppliedBy

variable {n : Machine (Node ρ σ)} {name : String} {tree : σ → List CursorState} {c : Call}

/-- Calls about the supply of environments are passed on to the input. -/
theorem input_call (h : SuppliedBy n m) (hc : c.Supplies) (ctx : Context) (s : Node ρ σ)
    (w : World) :
    (n.call c ctx s w).state.input = s.input ∨
      (n.call c ctx s w).state.input = (m.call c ctx s.input w).state := by
  cases c with
  | openBindings =>
      show (n.openBindings ctx s w).state.input = s.input ∨
        (n.openBindings ctx s w).state.input = (m.openBindings ctx s.input w).state
      rw [h.openBindings, Node.openBindings]
      cases s.base.ensureLive "open bindings" with
      | error e => exact .inl rfl
      | ok _ => exact .inr rfl
  | nextBindings =>
      show (n.nextBindings ctx s w).state.input = s.input ∨
        (n.nextBindings ctx s w).state.input = (m.nextBindings ctx s.input w).state
      rw [h.nextBindings, Node.nextBindings]
      cases s.base.ensureLive "next bindings" with
      | error e => exact .inl rfl
      | ok _ =>
          dsimp only [onInput]
          split
          · exact .inr rfl
          · exact .inr rfl
  | closeBindings =>
      show (n.closeBindings ctx s w).state.input = s.input ∨
        (n.closeBindings ctx s w).state.input = (m.closeBindings ctx s.input w).state
      rw [h.closeBindings, Node.closeBindings]
      cases s.base.ensureLive "close bindings" with
      | error e => exact .inl rfl
      | ok _ => exact .inr rfl
  | _ => exact hc.elim

theorem state_call (h : SuppliedBy n m) (hn : n.Obeys name (treeOf tree)) (hc : c.Supplies) :
    (n.call c ctx s w).state.base.state = s.base.state := by
  have hstate := (hn.base_of_supplies hc ctx s w).2
  rwa [h.base] at hstate

theorem treeOf_call (h : SuppliedBy n m) (hn : n.Obeys name (treeOf tree)) (hc : c.Supplies)
    (hinput : tree (m.call c ctx s.input w).state = tree s.input) :
    treeOf tree (n.call c ctx s w).state = treeOf tree s := by
  unfold treeOf
  rw [h.state_call hn hc]
  rcases h.input_call hc ctx s w with hkept | hmoved
  · rw [hkept]
  · rw [hmoved, hinput]

theorem idleOver_call (h : SuppliedBy n m) (hn : n.Obeys name (treeOf tree)) (hc : c.Supplies)
    {P : σ → Prop} (hinput : P s.input → P (m.call c ctx s.input w).state) (hs : IdleOver P s) :
    IdleOver P (n.call c ctx s w).state := by
  refine ⟨(h.state_call hn hc).trans hs.1, ?_⟩
  rcases h.input_call hc ctx s w with hkept | hmoved
  · rw [hkept]
    exact hs.2
  · rw [hmoved]
    exact hinput hs.2

end SuppliedBy

/-- A node that cannot open its input is idle again. -/
theorem openRun_failed (run : ρ → ρ) (hs : s.base.state = .idle) {e : QueryError}
    (hinput : (m.openRun ctx s.input w).result = .error e) :
    (openRun m run ctx s w).result = .error e ∧
      (openRun m run ctx s w).state.base.state = .idle ∧
      (openRun m run ctx s w).state.input = (m.openRun ctx s.input w).state := by
  rw [openRun, CursorBase.beginOpen_eq_ok hs]
  dsimp only
  rw [hinput]
  exact ⟨rfl, CursorBase.finish_state rfl, rfl⟩

/-- An idle node fails to open only with its input. -/
theorem input_of_openRun_failed {run : ρ → ρ} (hs : s.base.state = .idle) {e : QueryError}
    (h : (openRun m run ctx s w).result = .error e) :
    (m.openRun ctx s.input w).result = .error e := by
  rw [openRun, CursorBase.beginOpen_eq_ok hs] at h
  dsimp only at h
  cases hinput : (m.openRun ctx s.input w).result with
  | error e' =>
      rw [hinput] at h
      exact h
  | ok _ =>
      rw [hinput] at h
      cases h

end Node

namespace SortCursor

variable {σ : Type} {m : Machine σ} {name : String} {tree : σ → List CursorState}
  {sorting : Sorting} {ctx : Context} {input : σ} {s : State σ} {w : World} {e : QueryError}

/-- A sort that fails while it takes rows leaves its input open. -/
theorem fill_failed (hm : m.Obeys name tree) {fuel : Nat} {held : List Row}
    (hactive : (m.base input).state = .active)
    (h : (fill m sorting ctx fuel held input w).result = .error e) :
    (m.base (fill m sorting ctx fuel held input w).state).state = .active := by
  induction fuel generalizing held input w with
  | zero => exact hactive
  | succ fuel ih =>
      obtain ⟨-, hmoves⟩ := (hm.answers .next ctx input w).2 hactive
      have hnext : m.call .next ctx input w = (m.next ctx input w).map .row := rfl
      rw [hnext] at hmoves
      rw [fill] at h ⊢
      generalize m.next ctx input w = o at hmoves h ⊢
      obtain ⟨e' | row, input', w'⟩ := o
      · exact hmoves.trans hactive
      · cases row with
        | none => cases h
        | some row =>
            have hactive' : (m.base input').state = .active := hmoves.trans hactive
            dsimp only at h ⊢
            generalize w'.check ctx = x at h ⊢
            obtain ⟨e' | _, w''⟩ := x
            · exact hactive'
            · exact ih hactive' h

/-- What has become of the input of a sort that could not get its rows: it has not been touched,
or has failed to open as well, or it is open. -/
theorem sorted_failed (hm : m.Obeys name tree)
    (h : (sorted m sorting ctx input w).result = .error e) :
    let input' := (sorted m sorting ctx input w).state
    input' = input ∨ sorting.checkLimit ctx.config.maxRowsInMemory = .ok () ∧
      ((m.openRun ctx input w).result = .error e ∧ input' = (m.openRun ctx input w).state ∨
        (m.base input').state = .active) := by
  have hopened := hm.openRun_cases ctx input w
  rw [sorted] at h ⊢
  cases hlimit : sorting.checkLimit ctx.config.maxRowsInMemory with
  | error e' => exact .inl rfl
  | ok _ =>
      rw [hlimit] at h
      dsimp only at h ⊢
      refine .inr ⟨rfl, ?_⟩
      generalize m.openRun ctx input w = o at hopened h
      obtain ⟨e' | _, input', w'⟩ := o
      · obtain rfl := Except.error.inj h
        exact .inl ⟨rfl, rfl⟩
      · rcases hopened with ⟨-, hrefused⟩ | ⟨-, ⟨⟨e', he⟩, -⟩ | ⟨-, hactive⟩⟩
        · cases (Outcome.mk.inj hrefused).1
        · cases he
        · exact .inr (fill_failed hm hactive h)

theorem openRun_failed (hs : s.base.state = .idle)
    (h : (openRun m sorting ctx s w).result = .error e) :
    (sorted m sorting ctx s.input w).result = .error e ∧
      (openRun m sorting ctx s w).state.base.state = .idle ∧
      (openRun m sorting ctx s w).state.input = (sorted m sorting ctx s.input w).state := by
  rw [openRun, CursorBase.beginOpen_eq_ok hs] at h ⊢
  dsimp only at h ⊢
  generalize sorted m sorting ctx s.input w = o at h
  obtain ⟨e' | rows, input, w'⟩ := o
  · obtain rfl := Except.error.inj h
    exact ⟨rfl, CursorBase.finish_state rfl, rfl⟩
  · cases h

/-- An idle sort that cannot open its input is idle again. -/
theorem openRun_of_input_failed (hs : s.base.state = .idle)
    (hlimit : sorting.checkLimit ctx.config.maxRowsInMemory = .ok ())
    (hinput : (m.openRun ctx s.input w).result = .error e) :
    (openRun m sorting ctx s w).result = .error e ∧
      (openRun m sorting ctx s w).state.base.state = .idle ∧
      (openRun m sorting ctx s w).state.input = (m.openRun ctx s.input w).state := by
  have hsorted : sorted m sorting ctx s.input w =
      ⟨.error e, (m.openRun ctx s.input w).state, (m.openRun ctx s.input w).world⟩ := by
    rw [sorted, hlimit]
    dsimp only
    rw [hinput]
  rw [openRun, CursorBase.beginOpen_eq_ok hs]
  dsimp only
  rw [hsorted]
  exact ⟨rfl, CursorBase.finish_state rfl, rfl⟩

/-- An idle sort that may not hold as many rows as it asks for leaves its input alone. -/
theorem openRun_of_limit_refused (hs : s.base.state = .idle)
    (hlimit : sorting.checkLimit ctx.config.maxRowsInMemory = .error e) :
    (openRun m sorting ctx s w).result = .error e ∧
      (openRun m sorting ctx s w).state.base.state = .idle ∧
      (openRun m sorting ctx s w).state.input = s.input := by
  have hsorted : sorted m sorting ctx s.input w = ⟨.error e, s.input, w⟩ := by
    rw [sorted, hlimit]
  rw [openRun, CursorBase.beginOpen_eq_ok hs]
  dsimp only
  rw [hsorted]
  exact ⟨rfl, CursorBase.finish_state rfl, rfl⟩

end SortCursor

/-! ## Plans -/

namespace Plan

/-- A sort is among the cursors of the plan; those of workers do not count. -/
def Sorts : Plan → Prop
  | values .. | scan _ | map .. => False
  | select input _ | project input _ | aggregate input _ => input.Sorts
  | sort .. => True

/-- The root of the tree is open.  It is called `name`. -/
def OpenAs (name : String) (p : Plan) (s : p.State) : Prop :=
  (p.cursor.base s).state = .active ∧ (p.cursor.base s).name = name

/-- A sort that may hold its rows where `allowed` is the limit is idle, as are all cursors above
it, but its input is open.  The input is called `name`. -/
def LeftOpen (allowed : Nat) (name : String) : (p : Plan) → p.State → Prop
  | values .. => fun _ => False
  | scan _ => fun _ => False
  | select input _ => Node.IdleOver (input.LeftOpen allowed name)
  | project input _ => Node.IdleOver (input.LeftOpen allowed name)
  | aggregate input _ => Node.IdleOver (input.LeftOpen allowed name)
  | sort input sorting => Node.IdleOver fun s =>
      sorting.checkLimit allowed = .ok () ∧
        (input.OpenAs name s ∨ input.LeftOpen allowed name s)
  | map .. => fun _ => False

/-- Every cursor of the tree is idle, and once all of them have an environment, opening the tree
meets with no refused call. -/
def Reopens (p : Plan) (s : p.State) : Prop :=
  (∀ t ∈ p.states s, t = .idle) ∧
    ∀ s', p.cursor.Via Call.Supplies s s' → (∀ env ∈ p.envs s', env ≠ none) →
      ∀ ctx w cursor action t,
        (p.cursor.openRun ctx s' w).result ≠ .error (.protocol cursor action t)

variable {p : Plan} {ctx : Context} {w : World} {allowed : Nat} {name : String}

theorem LeftOpen.sorts {s : p.State} (h : p.LeftOpen allowed name s) : p.Sorts := by
  induction p with
  | values | scan | map => exact h.elim
  | select _ _ ih | project _ _ ih | aggregate _ _ ih => exact ih h.2
  | sort => trivial

theorem LeftOpen.root_idle {s : p.State} (h : p.LeftOpen allowed name s) :
    (p.cursor.base s).state = .idle := by
  cases p with
  | values | scan | map => exact h.elim
  | select | project | aggregate | sort => exact h.1

/-- After a failure every cursor is idle again, unless a sort has left its input open. -/
theorem openRun_failed {s : p.State} (hidle : ∀ t ∈ p.states s, t = .idle) {e : QueryError}
    (h : (p.cursor.openRun ctx s w).result = .error e) :
    (∀ t ∈ p.states (p.cursor.openRun ctx s w).state, t = .idle) ∨
      ∃ name, p.LeftOpen ctx.config.maxRowsInMemory name (p.cursor.openRun ctx s w).state := by
  induction p with
  | values | scan | map =>
      rcases (cursor_obeys _).openRun_cases ctx s w with
        ⟨hnot, -⟩ | ⟨-, ⟨-, hroot⟩ | ⟨hok, -⟩⟩
      · exact absurd (hidle _ List.mem_cons_self) hnot
      · exact .inl (List.forall_mem_singleton.mpr hroot)
      · cases hok.symm.trans h
  | select _ _ ih | project _ _ ih | aggregate _ _ ih =>
      obtain ⟨hidle, htree⟩ := List.forall_mem_cons.mp hidle
      have hinput := Node.input_of_openRun_failed hidle h
      obtain ⟨-, hbase, hstate⟩ := Node.openRun_failed _ hidle hinput
      have hcases := ih htree hinput
      rw [← hstate] at hcases
      rcases hcases with hall | ⟨name, hleft⟩
      · exact .inl (List.forall_mem_cons.mpr ⟨hbase, hall⟩)
      · exact .inr ⟨name, hbase, hleft⟩
  | sort input sorting ih =>
      obtain ⟨hidle, htree⟩ := List.forall_mem_cons.mp hidle
      obtain ⟨hfailed, hbase, hstate⟩ := SortCursor.openRun_failed hidle h
      rcases SortCursor.sorted_failed input.cursor_obeys hfailed with
        hkept | ⟨hlimit, ⟨hinput, hmoved⟩ | hactive⟩
      · rw [← hstate.trans hkept] at htree
        exact .inl (List.forall_mem_cons.mpr ⟨hbase, htree⟩)
      · have hcases := ih htree hinput
        rw [← hstate.trans hmoved] at hcases
        rcases hcases with hall | ⟨name, hleft⟩
        · exact .inl (List.forall_mem_cons.mpr ⟨hbase, hall⟩)
        · exact .inr ⟨name, hbase, hlimit, .inr hleft⟩
      · rw [← hstate] at hactive
        exact .inr ⟨_, hbase, hlimit, .inl ⟨hactive, rfl⟩⟩

/-- A cursor that is open refuses to be opened. -/
theorem OpenAs.openRun {s : p.State} (h : p.OpenAs name s) :
    p.cursor.openRun ctx s w = ⟨.error (.protocol name "open" .active), s, w⟩ := by
  obtain ⟨hactive, rfl⟩ := h
  rcases p.cursor_obeys.openRun_cases ctx s w with ⟨-, hrefused⟩ | ⟨hidle, -⟩
  · rw [CursorBase.violation, hactive] at hrefused
    exact hrefused
  · cases hactive.symm.trans hidle

/-- What has been left open by a sort stays open when the tree is opened again, and refuses that
if the sorts above it may hold as many rows as before. -/
theorem LeftOpen.openRun {s : p.State} (h : p.LeftOpen allowed name s) :
    let o := p.cursor.openRun ctx s w
    p.LeftOpen allowed name o.state ∧ ∃ e, o.result = .error e ∧
      (ctx.config.maxRowsInMemory = allowed → e = .protocol name "open" .active) := by
  induction p with
  | values | scan | map => exact h.elim
  | select _ _ ih | project _ _ ih | aggregate _ _ ih =>
      obtain ⟨hleft, e, hinput, hrefused⟩ := ih h.2
      obtain ⟨hresult, hbase, hstate⟩ := Node.openRun_failed _ h.1 hinput
      rw [← hstate] at hleft
      exact ⟨⟨hbase, hleft⟩, e, hresult, hrefused⟩
  | sort input sorting ih =>
      obtain ⟨hidle, hadmitted, hopen⟩ := h
      cases hlimit : sorting.checkLimit ctx.config.maxRowsInMemory with
      | error e =>
          obtain ⟨hresult, hbase, hstate⟩ := SortCursor.openRun_of_limit_refused hidle hlimit
          rw [← hstate] at hopen
          refine ⟨⟨hbase, hadmitted, hopen⟩, e, hresult, ?_⟩
          rintro rfl
          cases hadmitted.symm.trans hlimit
      | ok _ =>
          have hinput : (input.OpenAs name (input.cursor.openRun ctx s.input w).state ∨
              input.LeftOpen allowed name (input.cursor.openRun ctx s.input w).state) ∧
              ∃ e, (input.cursor.openRun ctx s.input w).result = .error e ∧
                (ctx.config.maxRowsInMemory = allowed → e = .protocol name "open" .active) := by
            rcases hopen with hopen | hleft
            · rw [hopen.openRun]
              exact ⟨.inl hopen, _, rfl, fun _ => rfl⟩
            · exact (ih hleft).imp_left .inr
          obtain ⟨hopen, e, hfailed, hrefused⟩ := hinput
          obtain ⟨hresult, hbase, hstate⟩ :=
            SortCursor.openRun_of_input_failed hidle hlimit hfailed
          rw [← hstate] at hopen
          exact ⟨⟨hbase, hadmitted, hopen⟩, e, hresult, hrefused⟩

/-! ### Calls in between -/

theorem states_of_supplies {c : Call} (hc : c.Supplies) (s : p.State) :
    p.states (p.cursor.call c ctx s w).state = p.states s := by
  induction p with
  | values | scan | map =>
      exact congrArg (fun t => [t]) ((cursor_obeys _).base_of_supplies hc ctx s w).2
  | select input predicate ih =>
      exact Node.SuppliedBy.treeOf_call ⟨rfl, rfl, rfl, rfl⟩ (cursor_obeys _) hc (ih _)
  | project input p ih =>
      exact Node.SuppliedBy.treeOf_call ⟨rfl, rfl, rfl, rfl⟩ (cursor_obeys _) hc (ih _)
  | aggregate input g ih =>
      exact Node.SuppliedBy.treeOf_call ⟨rfl, rfl, rfl, rfl⟩ (cursor_obeys _) hc (ih _)
  | sort input sorting ih =>
      exact Node.SuppliedBy.treeOf_call ⟨rfl, rfl, rfl, rfl⟩ (cursor_obeys _) hc (ih _)

theorem OpenAs.of_supplies {c : Call} (hc : c.Supplies) {s : p.State} (h : p.OpenAs name s) :
    p.OpenAs name (p.cursor.call c ctx s w).state := by
  obtain ⟨hname, hstate⟩ := p.cursor_obeys.base_of_supplies hc ctx s w
  exact ⟨hstate.trans h.1, hname.trans h.2⟩

theorem LeftOpen.of_supplies {c : Call} (hc : c.Supplies) {s : p.State}
    (h : p.LeftOpen allowed name s) : p.LeftOpen allowed name (p.cursor.call c ctx s w).state := by
  induction p with
  | values | scan | map => exact h.elim
  | select input predicate ih =>
      exact Node.SuppliedBy.idleOver_call ⟨rfl, rfl, rfl, rfl⟩ (cursor_obeys _) hc ih h
  | project input p ih =>
      exact Node.SuppliedBy.idleOver_call ⟨rfl, rfl, rfl, rfl⟩ (cursor_obeys _) hc ih h
  | aggregate input g ih =>
      exact Node.SuppliedBy.idleOver_call ⟨rfl, rfl, rfl, rfl⟩ (cursor_obeys _) hc ih h
  | sort input sorting ih =>
      refine Node.SuppliedBy.idleOver_call ⟨rfl, rfl, rfl, rfl⟩ (cursor_obeys _) hc ?_ h
      rintro ⟨hlimit, hopen | hleft⟩
      · exact ⟨hlimit, .inl (hopen.of_supplies hc)⟩
      · exact ⟨hlimit, .inr (ih hleft)⟩

/-- Nothing but closing or destroying the tree closes what a sort has left open. -/
theorem LeftOpen.call {c : Call} (hc : c.LeavesOpen) {s : p.State}
    (h : p.LeftOpen allowed name s) : p.LeftOpen allowed name (p.cursor.call c ctx s w).state := by
  cases c with
  | openRun => exact h.openRun.1
  | next =>
      have hnot : ¬ Call.Allowed .next (p.cursor.base s).state := by
        rw [h.root_idle]
        exact nofun
      rw [(p.cursor_obeys.answers .next ctx s w).1 hnot]
      exact h
  | openBindings => exact h.of_supplies (c := .openBindings) trivial
  | nextBindings => exact h.of_supplies (c := .nextBindings) trivial
  | closeBindings => exact h.of_supplies (c := .closeBindings) trivial
  | closeRun => exact hc.elim
  | destroy => exact hc.elim

/-- A tree of idle cursors can be opened again. -/
theorem reopens_of_idle (hp : p.Proper) {s : p.State} (hidle : ∀ t ∈ p.states s, t = .idle) :
    p.Reopens s := by
  refine ⟨hidle, ?_⟩
  intro s' hvia
  have hstates : p.states s' = p.states s := by
    induction hvia with
    | now => rfl
    | call _ hc ctx w ih => exact (states_of_supplies hc _).trans ih
  rw [← hstates] at hidle
  intro hbound ctx w cursor action t hrefused
  have hserves := (cursor_cooperates hp).openRun ctx w (ready_iff.mpr ⟨hidle, hbound⟩)
  exact (hserves.proper _ hrefused).ne_protocol cursor action t rfl

/-- When a tree of idle cursors cannot be opened, for whatever reason, it can be opened again as
soon as it has been closed.  Without a sort it can also be opened again at once.  It cannot if a
sort has failed while it took rows: the input of the sort is then open, and as long as the tree is
not closed, it refuses every attempt that allows sorts to hold as many rows. -/
theorem reopens_or_leftOpen (hp : p.Proper) {s : p.State} (hidle : ∀ t ∈ p.states s, t = .idle)
    {e : QueryError} (hfailed : (p.cursor.openRun ctx s w).result = .error e) :
    let s₁ := (p.cursor.openRun ctx s w).state
    (∀ ctx' w', p.Reopens (p.cursor.closeRun ctx' s₁ w').state) ∧
      (p.Reopens s₁ ∨ p.Sorts ∧ ∃ name, p.LeftOpen ctx.config.maxRowsInMemory name s₁ ∧
        ∀ s₂, p.cursor.Via Call.LeavesOpen s₁ s₂ → ∀ ctx' w',
          ctx'.config.maxRowsInMemory = ctx.config.maxRowsInMemory →
            (p.cursor.openRun ctx' s₂ w').result = .error (.protocol name "open" .active)) := by
  intro s₁
  have hlive : NoneDestroyed (p.states s₁) := by
    apply p.cursor_obeys.keeps .openRun ctx s w (by decide)
    intro t ht
    rw [hidle t ht]
    decide
  refine ⟨fun ctx' w' => reopens_of_idle hp (p.cursor_obeys.closes ctx' s₁ w' hlive).2, ?_⟩
  rcases openRun_failed hidle hfailed with hall | ⟨name, hleft⟩
  · exact .inl (reopens_of_idle hp hall)
  · refine .inr ⟨hleft.sorts, name, hleft, ?_⟩
    intro s₂ hvia ctx' w' hsame
    have hleft₂ : p.LeftOpen ctx.config.maxRowsInMemory name s₂ := by
      induction hvia with
      | now => exact hleft
      | call _ hc ctx w ih => exact ih.call hc
    obtain ⟨-, e, hrefused, he⟩ := @LeftOpen.openRun p ctx' w' _ _ _ hleft₂
    rw [hrefused, he hsame]

/-- A sort of the only row of a projection that divides 8 by what is bound at position 0. -/
def sortedQuotient : Plan :=
  let type : RowType := .ofFields [.int]
  .sort (.project (.values type [⟨type, [.int 1], rfl⟩])
    ⟨[.arith .div (.literal (.int 8)) (.bound 0 .int)], type⟩) ⟨[⟨0, true⟩], .preserve, 3⟩

/-- Two environments in which zero and two are bound at position 0. -/
def zeroThenTwo : BindingSource :=
  .ofEnvs [Env.root.set 0 (.value (.int 0)), Env.root.set 0 (.value (.int 2))]

/-- Having failed to divide by zero, the sort cannot be opened in the next environment, and has to
be closed first. -/
theorem reopens_or_leftOpen_zeroThenTwo :
    let m := sortedQuotient.cursor
    let made := (World.ofEngine .empty).newContext {}
    let supplied := m.openBindings made.1 (m.fresh zeroThenTwo) made.2
    let first := m.nextBindings made.1 supplied.state supplied.world
    let failed := m.openRun made.1 first.state first.world
    let second := m.nextBindings made.1 failed.state failed.world
    sortedQuotient.Proper ∧ (∀ t ∈ sortedQuotient.states first.state, t = .idle) ∧
      failed.result = .error .divisionByZero ∧
      (∃ name, (m.openRun made.1 second.state second.world).result =
        .error (.protocol name "open" .active)) ∧
      sortedQuotient.Reopens (m.closeRun made.1 failed.state failed.world).state := by
  intro m made supplied first failed second
  have hproper : sortedQuotient.Proper := trivial
  have hidle : ∀ t ∈ sortedQuotient.states first.state, t = .idle := by decide +kernel
  have hfailed : failed.result = .error .divisionByZero := by decide +kernel
  obtain ⟨hclosed, hopen⟩ := reopens_or_leftOpen hproper hidle hfailed
  refine ⟨hproper, hidle, hfailed, ?_, hclosed made.1 failed.world⟩
  rcases hopen with hreopens | ⟨-, name, -, hrefused⟩
  · have hactive : ¬ ∀ t ∈ sortedQuotient.states failed.state, t = .idle := by decide +kernel
    exact absurd hreopens.1 hactive
  · have hnext : m.Via Call.LeavesOpen failed.state second.state :=
      .call .now (c := .nextBindings) trivial made.1 failed.world
    exact ⟨name, hrefused _ hnext made.1 second.world rfl⟩

/-- The projection below the sort is still open after the division by zero, and is what refuses
the attempt to open the tree in the next environment. -/
theorem not_reopens_zeroThenTwo :
    let m := sortedQuotient.cursor
    let made := (World.ofEngine .empty).newContext {}
    let supplied := m.openBindings made.1 (m.fresh zeroThenTwo) made.2
    let first := m.nextBindings made.1 supplied.state supplied.world
    let failed := m.openRun made.1 first.state first.world
    let second := m.nextBindings made.1 failed.state failed.world
    (∀ t ∈ sortedQuotient.states first.state, t = .idle) ∧
      (∀ env ∈ sortedQuotient.envs first.state, env ≠ none) ∧
      failed.result = .error .divisionByZero ∧
      sortedQuotient.states failed.state = [.idle, .active, .active] ∧
      (∀ env ∈ sortedQuotient.envs second.state, env ≠ none) ∧
      (m.openRun made.1 second.state second.world).result =
        .error (.protocol "Project" "open" .active) := by
  decide +kernel

end Plan
end OrderedQuery
