import OrderedQuery.Proofs.Cursor.Conduct

/-!
# The protocol of a tree of cursors

The operations of a cursor are its calls.  A call that the state of the cursor does not allow
is refused and changes nothing; any other call leads to a state that depends on the call, the
state before it and the result alone.  `Machine.Obeys` collects what this comes to for a cursor
together with the cursors below it.
-/

namespace OrderedQuery

/-- A call on a cursor. -/
inductive Call where
  | openRun
  | next
  | closeRun
  | destroy
  | openBindings
  | nextBindings
  | closeBindings
  deriving DecidableEq, Repr

/-- What a call returns unless it fails. -/
inductive Reply where
  | done
  | row (row : Option Row)
  | env (env : Option Env)

namespace Call

/-- What a refusal says was attempted. -/
def action : Call → String
  | openRun => "open"
  | next => "next"
  | closeRun => "close"
  | destroy => "destroy"
  | openBindings => "open bindings"
  | nextBindings => "next bindings"
  | closeBindings => "close bindings"

/-- The states in which a call is not refused. -/
def Allowed : Call → CursorState → Prop
  | openRun, state => state = .idle
  | next, state => state = .active
  | _, state => state ≠ .destroyed

/-- The state that a call leads to if it is not refused. -/
def leadsTo : Call → CursorState → Except QueryError Reply → CursorState
  | openRun, _, .ok _ => .active
  | openRun, _, .error _ => .idle
  | next, _, .ok (.row none) => .idle
  | closeRun, _, _ => .idle
  | destroy, _, _ => .destroyed
  | _, state, _ => state

theorem not_allowed_destroyed (c : Call) : ¬ c.Allowed .destroyed := by
  cases c <;> simp [Allowed]

theorem Allowed.ne_destroyed {c : Call} {state : CursorState} (h : c.Allowed state) :
    state ≠ .destroyed := by
  rintro rfl
  exact c.not_allowed_destroyed h

/-- Only destroying leads to a destroyed cursor. -/
theorem leadsTo_ne_destroyed {c : Call} (hc : c ≠ .destroy) {state : CursorState}
    (h : state ≠ .destroyed) (result : Except QueryError Reply) :
    c.leadsTo state result ≠ .destroyed := by
  unfold leadsTo
  split
  all_goals first | exact h | exact absurd rfl hc | decide

end Call

/-- The same outcome with another result. -/
def Outcome.map {σ α β : Type} (f : α → β) (o : Outcome σ α) : Outcome σ β :=
  ⟨o.result.map f, o.state, o.world⟩

/-- Carries out a call. -/
def Machine.call {σ : Type} (m : Machine σ) (c : Call) : Action σ Reply := fun ctx s w =>
  match c with
  | .openRun => (m.openRun ctx s w).map fun () => .done
  | .next => (m.next ctx s w).map .row
  | .closeRun => (m.closeRun ctx s w).map fun () => .done
  | .destroy => (m.destroy ctx s w).map fun () => .done
  | .openBindings => (m.openBindings ctx s w).map fun () => .done
  | .nextBindings => (m.nextBindings ctx s w).map .env
  | .closeBindings => (m.closeBindings ctx s w).map fun () => .done

/-- A state that some calls lead to from a new cursor.  The calls can come from different
threads, and anything can happen to the world between them. -/
inductive Machine.Reached {σ : Type} (m : Machine σ) (source : BindingSource) : σ → Prop where
  | fresh : Reached m source (m.fresh source)
  | call {s : σ} (h : Reached m source s) (c : Call) (ctx : Context) (w : World) :
      Reached m source (m.call c ctx s w).state

namespace CursorBase

variable {b : CursorBase}

@[simp]
theorem finish_name (b : CursorBase) : b.finish.name = b.name := by
  unfold finish
  split <;> rfl

theorem finish_state (h : b.state = .active) : b.finish.state = .idle := by
  unfold finish
  rw [h]

theorem ensureLive_eq_error (h : b.state = .destroyed) (action : String) :
    b.ensureLive action = .error (b.violation action) := by
  rw [ensureLive, h]

theorem beginClose_eq_error (h : b.state = .destroyed) :
    b.beginClose = .error (b.violation "close") := by
  rw [beginClose, h]

theorem beginOpen_eq_error (h : b.state ≠ .idle) :
    b.beginOpen = .error (b.violation "open") := by
  rw [beginOpen]
  cases hs : b.state with
  | idle => exact absurd hs h
  | active => rfl
  | destroyed => rfl

theorem checkNext_eq_error (h : b.state ≠ .active) :
    b.checkNext = .error (b.violation "next") := by
  rw [checkNext]
  cases hs : b.state with
  | idle => rfl
  | active => exact absurd hs h
  | destroyed => rfl

/-- The cursor behind `b` goes by a call to one behind `b'`. -/
def Moves (c : Call) (result : Except QueryError Reply) (b b' : CursorBase) : Prop :=
  b'.name = b.name ∧ b'.state = c.leadsTo b.state result

/-- A cursor hands out a row, or ends its run if there is none. -/
theorem moves_hand (h : b.state = .active) (row : Option Row) :
    Moves .next (.ok (.row row)) b (b.hand row) := by
  cases row with
  | none => exact ⟨finish_name b, finish_state h⟩
  | some _ => exact ⟨rfl, rfl⟩

end CursorBase

/-- How a cursor answers a call: it refuses it and stays as it is, or moves to the state that
the call leads to. -/
def Answers {σ : Type} (base : σ → CursorBase) (c : Call) (s : σ) (w : World)
    (o : Outcome σ Reply) : Prop :=
  (¬ c.Allowed (base s).state → o = ⟨.error ((base s).violation c.action), s, w⟩) ∧
    (c.Allowed (base s).state → CursorBase.Moves c o.result (base s) (base o.state))

namespace Answers

variable {σ : Type} {base : σ → CursorBase} {c : Call} {s : σ} {w : World} {o : Outcome σ Reply}

/-- The answer to a call that only a destroyed cursor refuses. -/
theorem of_live (hc : ∀ state, c.Allowed state ↔ state ≠ .destroyed)
    (hrefuses : (base s).state = .destroyed →
      o = ⟨.error ((base s).violation c.action), s, w⟩)
    (hmoves : (base s).state ≠ .destroyed → CursorBase.Moves c o.result (base s) (base o.state)) :
    Answers base c s w o := by
  constructor
  · intro hrefused
    exact hrefuses (Decidable.byContradiction fun hs => hrefused ((hc _).mpr hs))
  · intro hallowed
    exact hmoves ((hc _).mp hallowed)

theorem name_eq (h : Answers base c s w o) : (base o.state).name = (base s).name := by
  by_cases hallowed : c.Allowed (base s).state
  · exact (h.2 hallowed).1
  · rw [h.1 hallowed]

/-- Only destroying destroys the cursor that is called. -/
theorem ne_destroyed (h : Answers base c s w o) (hc : c ≠ .destroy)
    (hs : (base s).state ≠ .destroyed) : (base o.state).state ≠ .destroyed := by
  by_cases hallowed : c.Allowed (base s).state
  · rw [(h.2 hallowed).2]
    exact Call.leadsTo_ne_destroyed hc hs _
  · rw [h.1 hallowed]
    exact hs

end Answers

/-- The error is not a refusal. -/
def NoRefusal (result : Except QueryError Unit) : Prop :=
  ∀ cursor action state, result ≠ .error (.protocol cursor action state)

theorem NoRefusal.firstError {a b : Except QueryError Unit} (ha : NoRefusal a)
    (hb : NoRefusal b) : NoRefusal (firstError a b) := by
  cases a with
  | error e => exact ha
  | ok _ => exact hb

theorem NoRefusal.map {result : Except QueryError Unit} (h : NoRefusal result) (f : Unit → Reply)
    (cursor action : String) (state : CursorState) :
    result.map f ≠ .error (.protocol cursor action state) := by
  cases result with
  | error e =>
      intro hrefused
      exact h cursor action state (congrArg Except.error (Except.error.inj hrefused))
  | ok _ => exact nofun

/-- No cursor of a tree has been destroyed. -/
def NoneDestroyed (tree : List CursorState) : Prop :=
  ∀ state ∈ tree, state ≠ .destroyed

/-- The protocol for a cursor called `name` where `tree` gives the states of the cursor and of
all cursors below it. -/
structure Machine.Obeys {σ : Type} (m : Machine σ) (name : String)
    (tree : σ → List CursorState) : Prop where
  root : ∀ s, (m.base s).state ∈ tree s
  named : ∀ source, (m.base (m.fresh source)).name = name
  fresh : ∀ source, ∀ state ∈ tree (m.fresh source), state = .idle
  answers : ∀ c ctx s w, Answers m.base c s w (m.call c ctx s w)
  /-- No other call destroys a cursor of the tree. -/
  keeps : ∀ c ctx s w, c ≠ .destroy → NoneDestroyed (tree s) →
    NoneDestroyed (tree (m.call c ctx s w).state)
  closes : ∀ ctx s w, NoneDestroyed (tree s) → NoRefusal (m.closeRun ctx s w).result ∧
    ∀ state ∈ tree (m.closeRun ctx s w).state, state = .idle
  destroys : ∀ ctx s w, NoneDestroyed (tree s) → NoRefusal (m.destroy ctx s w).result ∧
    ∀ state ∈ tree (m.destroy ctx s w).state, state = .destroyed

/-- Calls keep the name of a cursor, and destroy either no cursor of its tree or all of them. -/
theorem Machine.Obeys.reached {σ : Type} {m : Machine σ} {name : String}
    {tree : σ → List CursorState} (h : m.Obeys name tree) {source : BindingSource} {s : σ}
    (hs : m.Reached source s) :
    (m.base s).name = name ∧ (NoneDestroyed (tree s) ∨ ∀ state ∈ tree s, state = .destroyed) := by
  induction hs with
  | fresh =>
      refine ⟨h.named source, .inl ?_⟩
      intro state hstate
      rw [h.fresh source state hstate]
      decide
  | call hs c ctx w ih =>
      rename_i s
      obtain ⟨hname, htree⟩ := ih
      obtain ⟨hrefuses, hmoves⟩ := h.answers c ctx s w
      by_cases hallowed : c.Allowed (m.base s).state
      · have hnone : NoneDestroyed (tree s) := by
          rcases htree with hnone | hall
          · exact hnone
          · exact absurd (hall _ (h.root s)) hallowed.ne_destroyed
        refine ⟨(hmoves hallowed).1.trans hname, ?_⟩
        by_cases hc : c = .destroy
        · subst hc
          exact .inr (h.destroys ctx s w hnone).2
        · exact .inl (h.keeps c ctx s w hc hnone)
      · rw [hrefuses hallowed]
        exact ⟨hname, htree⟩

/-! ## Leaves -/

namespace Leaf

variable {ρ : Type}

theorem openBindings_answers (ctx : Context) (s : Leaf ρ) (w : World) :
    Answers base .openBindings s w ((openBindings ctx s w).map fun () => .done) := by
  refine .of_live (fun _ => .rfl) ?_ ?_
  · intro h
    rw [openBindings, CursorBase.ensureLive_eq_error h]
    rfl
  · intro h
    rw [openBindings, CursorBase.ensureLive_eq_ok h]
    exact ⟨rfl, rfl⟩

theorem nextBindings_answers (ctx : Context) (s : Leaf ρ) (w : World) :
    Answers base .nextBindings s w ((nextBindings ctx s w).map .env) := by
  refine .of_live (fun _ => .rfl) ?_ ?_
  · intro h
    rw [nextBindings, CursorBase.ensureLive_eq_error h]
    rfl
  · intro h
    rw [nextBindings, CursorBase.ensureLive_eq_ok h]
    obtain ⟨taken, source⟩ := s.source.take
    cases taken with
    | error e => exact ⟨rfl, rfl⟩
    | ok env => exact ⟨rfl, rfl⟩

theorem closeBindings_answers (ctx : Context) (s : Leaf ρ) (w : World) :
    Answers base .closeBindings s w ((closeBindings ctx s w).map fun () => .done) := by
  refine .of_live (fun _ => .rfl) ?_ ?_
  · intro h
    rw [closeBindings, CursorBase.ensureLive_eq_error h]
    rfl
  · intro h
    rw [closeBindings, CursorBase.ensureLive_eq_ok h]
    exact ⟨rfl, rfl⟩

/-- Destroying a leaf whose way of closing is given. -/
theorem destroy_answers {close : Action (Leaf ρ) Unit} {ctx : Context} {s : Leaf ρ} {w : World}
    (hclose : (close ctx s w).state.base.name = s.base.name) :
    Answers base .destroy s w ((destroy close ctx s w).map fun () => .done) := by
  refine .of_live (fun _ => .rfl) ?_ ?_
  · intro h
    rw [destroy, CursorBase.ensureLive_eq_error h]
    rfl
  · intro h
    rw [destroy, CursorBase.ensureLive_eq_ok h]
    exact ⟨hclose, rfl⟩

/-- Closes a leaf of which nothing has to be shut down. -/
def closeInPlace (run : ρ → ρ) : Action (Leaf ρ) Unit := fun _ s w =>
  match s.base.beginClose with
  | .error e => ⟨.error e, s, w⟩
  | .ok base => ⟨.ok (), ⟨base, s.source, run s.run⟩, w⟩

theorem closeInPlace_answers (run : ρ → ρ) (ctx : Context) (s : Leaf ρ) (w : World) :
    Answers base .closeRun s w ((closeInPlace run ctx s w).map fun () => .done) := by
  refine .of_live (fun _ => .rfl) ?_ ?_
  · intro h
    rw [closeInPlace, CursorBase.beginClose_eq_error h]
    rfl
  · intro h
    rw [closeInPlace, CursorBase.beginClose_eq_ok h]
    exact ⟨rfl, rfl⟩

theorem noRefusal_closeInPlace (run : ρ → ρ) (ctx : Context) (s : Leaf ρ) (w : World)
    (hs : s.base.state ≠ .destroyed) : NoRefusal (closeInPlace run ctx s w).result := by
  rw [closeInPlace, CursorBase.beginClose_eq_ok hs]
  exact nofun

section

variable {m : Machine (Leaf ρ)} {name : String} {start : ρ}

/-- A leaf answers every call if it answers those that its operator defines. -/
theorem answers_call (hm : Common m name start)
    (hopen : ∀ ctx s w, Answers base .openRun s w ((m.openRun ctx s w).map fun () => .done))
    (hnext : ∀ ctx s w, Answers base .next s w ((m.next ctx s w).map .row))
    (hclose : ∀ ctx s w, Answers base .closeRun s w ((m.closeRun ctx s w).map fun () => .done))
    (c : Call) (ctx : Context) (s : Leaf ρ) (w : World) :
    Answers base c s w (m.call c ctx s w) := by
  cases c with
  | openRun => exact hopen ctx s w
  | next => exact hnext ctx s w
  | closeRun => exact hclose ctx s w
  | destroy =>
      show Answers base .destroy s w ((m.destroy ctx s w).map fun () => .done)
      rw [hm.destroy]
      exact destroy_answers (hclose ctx s w).name_eq
  | openBindings =>
      show Answers base .openBindings s w ((m.openBindings ctx s w).map fun () => .done)
      rw [hm.openBindings]
      exact openBindings_answers ctx s w
  | nextBindings =>
      show Answers base .nextBindings s w ((m.nextBindings ctx s w).map .env)
      rw [hm.nextBindings]
      exact nextBindings_answers ctx s w
  | closeBindings =>
      show Answers base .closeBindings s w ((m.closeBindings ctx s w).map fun () => .done)
      rw [hm.closeBindings]
      exact closeBindings_answers ctx s w

/-- A leaf obeys the protocol if it answers the calls that its operator defines, and closing
it does not refuse. -/
theorem obeys (hm : Common m name start)
    (hopen : ∀ ctx s w, Answers base .openRun s w ((m.openRun ctx s w).map fun () => .done))
    (hnext : ∀ ctx s w, Answers base .next s w ((m.next ctx s w).map .row))
    (hclose : ∀ ctx s w, Answers base .closeRun s w ((m.closeRun ctx s w).map fun () => .done))
    (hclosed : ∀ ctx s w, s.base.state ≠ .destroyed → NoRefusal (m.closeRun ctx s w).result) :
    m.Obeys name fun s => [s.base.state] := by
  have hanswers := answers_call hm hopen hnext hclose
  constructor
  case root => exact fun s => by rw [hm.base]; exact List.mem_singleton_self _
  case named => exact fun source => by rw [hm.base, hm.fresh]; rfl
  case fresh =>
    intro source state hstate
    rw [hm.fresh] at hstate
    exact List.mem_singleton.mp hstate
  case answers => exact hm.base ▸ hanswers
  case keeps =>
    intro c ctx s w hc hlive state hstate
    rw [List.mem_singleton.mp hstate]
    exact (hanswers c ctx s w).ne_destroyed hc (hlive _ (List.mem_singleton_self _))
  case closes =>
    intro ctx s w hlive
    have hs : s.base.state ≠ .destroyed := hlive _ (List.mem_singleton_self _)
    refine ⟨hclosed ctx s w hs, ?_⟩
    intro state hstate
    rw [List.mem_singleton.mp hstate]
    exact ((hclose ctx s w).2 hs).2
  case destroys =>
    intro ctx s w hlive
    have hs : s.base.state ≠ .destroyed := hlive _ (List.mem_singleton_self _)
    rw [hm.destroy, destroy, CursorBase.ensureLive_eq_ok hs]
    refine ⟨hclosed ctx s w hs, ?_⟩
    intro state hstate
    exact List.mem_singleton.mp hstate

end

end Leaf

/-! ## Nodes -/

namespace Node

variable {ρ σ : Type} {m : Machine σ} {name : String} {tree : σ → List CursorState}

/-- The states of a node and of all cursors below it. -/
def treeOf (tree : σ → List CursorState) (s : Node ρ σ) : List CursorState :=
  s.base.state :: tree s.input

theorem noneDestroyed_treeOf {s : Node ρ σ} :
    NoneDestroyed (treeOf tree s) ↔ s.base.state ≠ .destroyed ∧ NoneDestroyed (tree s.input) := by
  constructor
  · intro h
    exact ⟨h _ List.mem_cons_self, fun state hstate => h state (List.mem_cons_of_mem _ hstate)⟩
  · rintro ⟨hs, hinput⟩ state hstate
    rcases List.mem_cons.mp hstate with rfl | hstate
    · exact hs
    · exact hinput state hstate

theorem openBindings_answers (m : Machine σ) (ctx : Context) (s : Node ρ σ) (w : World) :
    Answers base .openBindings s w ((openBindings m ctx s w).map fun () => .done) := by
  refine .of_live (fun _ => .rfl) ?_ ?_
  · intro h
    rw [openBindings, CursorBase.ensureLive_eq_error h]
    rfl
  · intro h
    rw [openBindings, CursorBase.ensureLive_eq_ok h]
    exact ⟨rfl, rfl⟩

theorem nextBindings_answers (m : Machine σ) (ctx : Context) (s : Node ρ σ) (w : World) :
    Answers base .nextBindings s w ((nextBindings m ctx s w).map .env) := by
  refine .of_live (fun _ => .rfl) ?_ ?_
  · intro h
    rw [nextBindings, CursorBase.ensureLive_eq_error h]
    rfl
  · intro h
    rw [nextBindings, CursorBase.ensureLive_eq_ok h]
    simp only [onInput]
    cases (m.nextBindings ctx s.input w).result with
    | error e => exact ⟨rfl, rfl⟩
    | ok env => exact ⟨rfl, rfl⟩

theorem closeBindings_answers (m : Machine σ) (ctx : Context) (s : Node ρ σ) (w : World) :
    Answers base .closeBindings s w ((closeBindings m ctx s w).map fun () => .done) := by
  refine .of_live (fun _ => .rfl) ?_ ?_
  · intro h
    rw [closeBindings, CursorBase.ensureLive_eq_error h]
    rfl
  · intro h
    rw [closeBindings, CursorBase.ensureLive_eq_ok h]
    exact ⟨rfl, rfl⟩

theorem openRun_answers (m : Machine σ) (run : ρ → ρ) (ctx : Context) (s : Node ρ σ)
    (w : World) : Answers base .openRun s w ((openRun m run ctx s w).map fun () => .done) := by
  constructor
  · intro h
    rw [openRun, CursorBase.beginOpen_eq_error h]
    rfl
  · intro h
    rw [openRun, CursorBase.beginOpen_eq_ok h]
    simp only
    cases (m.openRun ctx s.input w).result with
    | error e => exact ⟨CursorBase.finish_name _, CursorBase.finish_state rfl⟩
    | ok _ => exact ⟨rfl, rfl⟩

theorem closeRun_answers (m : Machine σ) (run : ρ → ρ) (ctx : Context) (s : Node ρ σ)
    (w : World) :
    Answers base .closeRun s w ((closeRun m run ctx s w).map fun () => .done) := by
  refine .of_live (fun _ => .rfl) ?_ ?_
  · intro h
    rw [closeRun, CursorBase.beginClose_eq_error h]
    rfl
  · intro h
    rw [closeRun, CursorBase.beginClose_eq_ok h]
    exact ⟨rfl, rfl⟩

theorem destroy_answers (m : Machine σ) (run : ρ → ρ) (ctx : Context) (s : Node ρ σ)
    (w : World) :
    Answers base .destroy s w ((destroy m (closeRun m run) ctx s w).map fun () => .done) := by
  refine .of_live (fun _ => .rfl) ?_ ?_
  · intro h
    rw [destroy, CursorBase.ensureLive_eq_error h]
    rfl
  · intro h
    rw [destroy, CursorBase.ensureLive_eq_ok h, closeRun, CursorBase.beginClose_eq_ok h]
    exact ⟨rfl, rfl⟩

theorem openBindings_keeps (h : m.Obeys name tree) (ctx : Context) {s : Node ρ σ} (w : World)
    (hs : s.base.state ≠ .destroyed) (hinput : NoneDestroyed (tree s.input)) :
    NoneDestroyed (tree (openBindings m ctx s w).state.input) := by
  rw [openBindings, CursorBase.ensureLive_eq_ok hs]
  exact h.keeps .openBindings ctx s.input w (by decide) hinput

theorem nextBindings_keeps (h : m.Obeys name tree) (ctx : Context) {s : Node ρ σ} (w : World)
    (hs : s.base.state ≠ .destroyed) (hinput : NoneDestroyed (tree s.input)) :
    NoneDestroyed (tree (nextBindings m ctx s w).state.input) := by
  have hkept := h.keeps .nextBindings ctx s.input w (by decide) hinput
  rw [nextBindings, CursorBase.ensureLive_eq_ok hs]
  simp only [onInput]
  cases (m.nextBindings ctx s.input w).result with
  | error e => exact hkept
  | ok env => exact hkept

theorem closeBindings_keeps (h : m.Obeys name tree) (ctx : Context) {s : Node ρ σ} (w : World)
    (hs : s.base.state ≠ .destroyed) (hinput : NoneDestroyed (tree s.input)) :
    NoneDestroyed (tree (closeBindings m ctx s w).state.input) := by
  rw [closeBindings, CursorBase.ensureLive_eq_ok hs]
  exact h.keeps .closeBindings ctx s.input w (by decide) hinput

/-- Opening the input destroys no cursor below the node. -/
theorem openRun_keeps (h : m.Obeys name tree) (run : ρ → ρ) (ctx : Context) (s : Node ρ σ)
    (w : World) (hinput : NoneDestroyed (tree s.input)) :
    NoneDestroyed (tree (openRun m run ctx s w).state.input) := by
  have hkept := h.keeps .openRun ctx s.input w (by decide) hinput
  by_cases hs : s.base.state = .idle
  · rw [openRun, CursorBase.beginOpen_eq_ok hs]
    simp only
    cases (m.openRun ctx s.input w).result with
    | error e => exact hkept
    | ok _ => exact hkept
  · rw [openRun, CursorBase.beginOpen_eq_error hs]
    exact hinput

/-- Closing a node closes its input, whatever the input answers. -/
theorem closes (h : m.Obeys name tree) (run : ρ → ρ) (ctx : Context) (s : Node ρ σ) (w : World)
    (hlive : NoneDestroyed (treeOf tree s)) :
    NoRefusal (closeRun m run ctx s w).result ∧
      ∀ state ∈ treeOf tree (closeRun m run ctx s w).state, state = .idle := by
  obtain ⟨hs, hinput⟩ := noneDestroyed_treeOf.mp hlive
  obtain ⟨hresult, hidle⟩ := h.closes ctx s.input w hinput
  rw [closeRun, CursorBase.beginClose_eq_ok hs]
  refine ⟨hresult, ?_⟩
  intro state hstate
  rcases List.mem_cons.mp hstate with rfl | hstate
  · rfl
  · exact hidle state hstate

/-- Destroying a node closes and destroys its input, whatever the input answers. -/
theorem destroys (h : m.Obeys name tree) (run : ρ → ρ) (ctx : Context) (s : Node ρ σ)
    (w : World) (hlive : NoneDestroyed (treeOf tree s)) :
    NoRefusal (destroy m (closeRun m run) ctx s w).result ∧
      ∀ state ∈ treeOf tree (destroy m (closeRun m run) ctx s w).state,
        state = .destroyed := by
  obtain ⟨hs, -⟩ := noneDestroyed_treeOf.mp hlive
  obtain ⟨hclosed, hidle⟩ := closes h run ctx s w hlive
  have hinput : NoneDestroyed (tree (closeRun m run ctx s w).state.input) := by
    intro state hstate
    rw [hidle state (List.mem_cons_of_mem _ hstate)]
    decide
  obtain ⟨hdestroyed, hall⟩ := h.destroys ctx (closeRun m run ctx s w).state.input
    (closeRun m run ctx s w).world hinput
  rw [destroy, CursorBase.ensureLive_eq_ok hs]
  refine ⟨hclosed.firstError hdestroyed, ?_⟩
  intro state hstate
  rcases List.mem_cons.mp hstate with rfl | hstate
  · rfl
  · exact hall state hstate

section

variable {M : Machine (Node ρ σ)} {rootName : String} {start : ρ} {clear : ρ → ρ}

/-- A node answers every call if it answers the opening and the reading that its operator
defines. -/
theorem answers_call (hM : Common M m rootName start clear)
    (hopen : ∀ ctx s w, Answers base .openRun s w ((M.openRun ctx s w).map fun () => .done))
    (hnext : ∀ ctx s w, Answers base .next s w ((M.next ctx s w).map .row))
    (c : Call) (ctx : Context) (s : Node ρ σ) (w : World) :
    Answers base c s w (M.call c ctx s w) := by
  cases c with
  | openRun => exact hopen ctx s w
  | next => exact hnext ctx s w
  | closeRun =>
      show Answers base .closeRun s w ((M.closeRun ctx s w).map fun () => .done)
      rw [hM.closeRun]
      exact closeRun_answers m clear ctx s w
  | destroy =>
      show Answers base .destroy s w ((M.destroy ctx s w).map fun () => .done)
      rw [hM.destroy]
      exact destroy_answers m clear ctx s w
  | openBindings =>
      show Answers base .openBindings s w ((M.openBindings ctx s w).map fun () => .done)
      rw [hM.openBindings]
      exact openBindings_answers m ctx s w
  | nextBindings =>
      show Answers base .nextBindings s w ((M.nextBindings ctx s w).map .env)
      rw [hM.nextBindings]
      exact nextBindings_answers m ctx s w
  | closeBindings =>
      show Answers base .closeBindings s w ((M.closeBindings ctx s w).map fun () => .done)
      rw [hM.closeBindings]
      exact closeBindings_answers m ctx s w

/-- Only destroying a node destroys cursors below it, if opening and reading destroy none. -/
theorem call_keeps (hM : Common M m rootName start clear) (h : m.Obeys name tree)
    (hopenKeeps : ∀ ctx s w, NoneDestroyed (tree s.input) →
      NoneDestroyed (tree (M.openRun ctx s w).state.input))
    (hnextKeeps : ∀ ctx s w, NoneDestroyed (tree s.input) →
      NoneDestroyed (tree (M.next ctx s w).state.input))
    {c : Call} (hc : c ≠ .destroy) (ctx : Context) {s : Node ρ σ} (w : World)
    (hlive : NoneDestroyed (treeOf tree s)) :
    NoneDestroyed (tree (M.call c ctx s w).state.input) := by
  obtain ⟨hs, hinput⟩ := noneDestroyed_treeOf.mp hlive
  cases c with
  | openRun => exact hopenKeeps ctx s w hinput
  | next => exact hnextKeeps ctx s w hinput
  | closeRun =>
      show NoneDestroyed (tree (M.closeRun ctx s w).state.input)
      rw [hM.closeRun]
      intro state hstate
      rw [(closes h clear ctx s w hlive).2 state (List.mem_cons_of_mem _ hstate)]
      decide
  | destroy => exact absurd rfl hc
  | openBindings =>
      show NoneDestroyed (tree (M.openBindings ctx s w).state.input)
      rw [hM.openBindings]
      exact openBindings_keeps h ctx w hs hinput
  | nextBindings =>
      show NoneDestroyed (tree (M.nextBindings ctx s w).state.input)
      rw [hM.nextBindings]
      exact nextBindings_keeps h ctx w hs hinput
  | closeBindings =>
      show NoneDestroyed (tree (M.closeBindings ctx s w).state.input)
      rw [hM.closeBindings]
      exact closeBindings_keeps h ctx w hs hinput

/-- A node obeys the protocol if it answers the calls that its operator defines, and these keep
the cursors below it from being destroyed. -/
theorem obeys (hM : Common M m rootName start clear) (h : m.Obeys name tree)
    (hopen : ∀ ctx s w, Answers base .openRun s w ((M.openRun ctx s w).map fun () => .done))
    (hnext : ∀ ctx s w, Answers base .next s w ((M.next ctx s w).map .row))
    (hopenKeeps : ∀ ctx s w, NoneDestroyed (tree s.input) →
      NoneDestroyed (tree (M.openRun ctx s w).state.input))
    (hnextKeeps : ∀ ctx s w, NoneDestroyed (tree s.input) →
      NoneDestroyed (tree (M.next ctx s w).state.input)) :
    M.Obeys rootName (treeOf tree) := by
  have hanswers := answers_call hM hopen hnext
  constructor
  case root => exact fun s => by rw [hM.base]; exact List.mem_cons_self
  case named => exact fun source => by rw [hM.base, hM.fresh]; rfl
  case fresh =>
    intro source state hstate
    rw [hM.fresh] at hstate
    rcases List.mem_cons.mp hstate with rfl | hstate
    · rfl
    · exact h.fresh source state hstate
  case answers => exact hM.base ▸ hanswers
  case keeps =>
    intro c ctx s w hc hlive
    have hs := (noneDestroyed_treeOf.mp hlive).1
    exact noneDestroyed_treeOf.mpr ⟨(hanswers c ctx s w).ne_destroyed hc hs,
      call_keeps hM h hopenKeeps hnextKeeps hc ctx w hlive⟩
  case closes =>
    intro ctx s w hlive
    rw [hM.closeRun]
    exact closes h clear ctx s w hlive
  case destroys =>
    intro ctx s w hlive
    rw [hM.destroy]
    exact destroys h clear ctx s w hlive

end

end Node
end OrderedQuery
