import OrderedQuery.Proofs.Cursor.Common

/-!
# Cursors between runs

Supplying environments, closing and destroying are the same for all cursors that have no
threads of their own.  `Machine.Conduct` collects these laws.  They speak of two conditions
on a state: `Idle source env` for a tree of idle cursors, and `Live source env` for a tree
in which no cursor has been destroyed.  In both, `source` is the supply of environments at
the leaf, and `env` the environment that all cursors of the tree have been given.
-/

namespace OrderedQuery

/-- A condition on cursors, given their source and their environment. -/
abbrev Standing (σ : Type) := BindingSource → Option Env → σ → Prop

/-- How a cursor is supplied with environments before its first run. -/
structure Machine.Supply {σ : Type} (m : Machine σ) (ctx : Context) (Idle : Standing σ) :
    Prop where
  fresh : ∀ source, Idle source none (m.fresh source)
  openBindings : ∀ {source env s}, Idle source env s → ∀ w,
    ∃ s', m.openBindings ctx s w = ⟨.ok (), s', w⟩ ∧ Idle source.openUp env s'
  nextBindings : ∀ {source env s}, Idle source env s → ∀ {env' source'},
    source.take = (.ok env', source') → ∀ w,
    ∃ s', m.nextBindings ctx s w = ⟨.ok env', s', w⟩ ∧ Idle source' env' s'

/-- How a cursor without threads of its own behaves outside of its runs. -/
structure Machine.Conduct {σ : Type} (m : Machine σ) (ctx : Context)
    (Live Idle : Standing σ) : Prop extends m.Supply ctx Idle where
  live_of_idle : ∀ {source env s}, Idle source env s → Live source env s
  closeBindings : ∀ {source env s}, Idle source env s → ∀ w,
    ∃ s', m.closeBindings ctx s w = ⟨.ok (), s', w⟩ ∧ Idle source.shut env s'
  closeRun : ∀ {source env s}, Live source env s → ∀ w,
    ∃ s', m.closeRun ctx s w = ⟨.ok (), s', w⟩ ∧ Idle source env s'
  destroy : ∀ {source env s}, Idle source env s → ∀ w,
    ∃ s', m.destroy ctx s w = ⟨.ok (), s', w⟩

/-- Opening a new cursor in an environment opens its first run there. -/
theorem Machine.Supply.openTop_eq {σ : Type} {m : Machine σ} {ctx : Context}
    {Idle : Standing σ} (h : m.Supply ctx Idle) (env : Env) (w : World) :
    ∃ s, Idle (.single env true false) (some env) s ∧
      m.openTop ctx (m.fresh (.ofEnv env)) w =
        ⟨(m.openRun ctx s w).result.map fun () => true, (m.openRun ctx s w).state,
          (m.openRun ctx s w).world⟩ := by
  have hfirst : (BindingSource.ofEnv env).openUp.take =
      (.ok (some env), .single env true false) := rfl
  obtain ⟨s₁, hopened, hidle₁⟩ := h.openBindings (h.fresh (.ofEnv env)) w
  obtain ⟨s₂, hmoved, hidle₂⟩ := h.nextBindings hidle₁ hfirst w
  refine ⟨s₂, hidle₂, ?_⟩
  simp only [Machine.openTop, hopened, hmoved]

namespace CursorBase

theorem ensureLive_eq_ok {b : CursorBase} (h : b.state ≠ .destroyed) (action : String) :
    b.ensureLive action = .ok () := by
  rw [ensureLive]
  cases hs : b.state with
  | idle => rfl
  | active => rfl
  | destroyed => exact absurd hs h

theorem beginClose_eq_ok {b : CursorBase} (h : b.state ≠ .destroyed) :
    b.beginClose = .ok { b with state := .idle } := by
  rw [beginClose]
  cases hs : b.state with
  | idle => rfl
  | active => rfl
  | destroyed => exact absurd hs h

theorem beginOpen_eq_ok {b : CursorBase} (h : b.state = .idle) :
    b.beginOpen = .ok { b with state := .active } := by
  rw [beginOpen, h]

theorem checkNext_eq_ok {b : CursorBase} (h : b.state = .active) : b.checkNext = .ok () := by
  rw [checkNext, h]

theorem currentEnv_eq_ok {b : CursorBase} {env : Env} (h : b.env = some env) :
    b.currentEnv = .ok env := by
  rw [currentEnv, h]

@[simp]
theorem finish_env (b : CursorBase) : b.finish.env = b.env := by
  unfold finish
  split <;> rfl

theorem finish_state_ne {b : CursorBase} (h : b.state ≠ .destroyed) :
    b.finish.state ≠ .destroyed := by
  unfold finish
  split
  · simp
  · exact h

@[simp]
theorem hand_none {α : Type} (b : CursorBase) : b.hand (none : Option α) = b.finish := rfl

end CursorBase

/-! ## Leaves -/

namespace Leaf

variable {ρ : Type} {m : Machine (Leaf ρ)} {name : String} {start : ρ}

/-- A leaf that has not been destroyed. -/
def Live : Standing (Leaf ρ) := fun source env s =>
  s.base.state ≠ .destroyed ∧ s.base.env = env ∧ s.source = source

/-- An idle leaf. -/
def Idle : Standing (Leaf ρ) := fun source env s =>
  s.base.state = .idle ∧ s.base.env = env ∧ s.source = source

theorem live_of_idle {source : BindingSource} {env : Option Env} {s : Leaf ρ}
    (h : Idle source env s) : Live source env s :=
  ⟨by rw [h.1]; decide, h.2⟩

theorem supply (h : Common m name start) (ctx : Context) : m.Supply ctx Idle where
  fresh := by
    intro source
    rw [h.fresh]
    exact ⟨rfl, rfl, rfl⟩
  openBindings := by
    intro source env s hs w
    have hlive := (live_of_idle hs).1
    refine ⟨{ s with source := s.source.openUp }, ?_, hs.1, hs.2.1,
      congrArg BindingSource.openUp hs.2.2⟩
    rw [h.openBindings, Leaf.openBindings, CursorBase.ensureLive_eq_ok hlive]
  nextBindings := by
    intro source env s hs env' source' htake w
    have hlive := (live_of_idle hs).1
    refine ⟨{ s with base := s.base.bind env', source := source' }, ?_, hs.1, rfl, rfl⟩
    rw [h.nextBindings, Leaf.nextBindings, CursorBase.ensureLive_eq_ok hlive, hs.2.2, htake]

theorem conduct (h : Common m name start) {ctx : Context}
    (hclose : ∀ {source env s}, Live source env s → ∀ w,
      ∃ s', m.closeRun ctx s w = ⟨.ok (), s', w⟩ ∧ Idle source env s') :
    m.Conduct ctx Live Idle where
  toSupply := supply h ctx
  live_of_idle := live_of_idle
  closeBindings := by
    intro source env s hs w
    have hlive := (live_of_idle hs).1
    refine ⟨{ s with source := s.source.shut }, ?_, hs.1, hs.2.1,
      congrArg BindingSource.shut hs.2.2⟩
    rw [h.closeBindings, Leaf.closeBindings, CursorBase.ensureLive_eq_ok hlive]
  closeRun := hclose
  destroy := by
    intro source env s hs w
    have hlive := live_of_idle hs
    obtain ⟨s', hclosed, -⟩ := hclose hlive w
    refine ⟨{ s' with base := s'.base.destroy, source := s'.source.shut }, ?_⟩
    rw [h.destroy, Leaf.destroy, CursorBase.ensureLive_eq_ok hlive.1, hclosed]

end Leaf

/-! ## Nodes -/

namespace Node

variable {ρ σ : Type}

/-- A node that has not been destroyed, over an input of the same standing. -/
def Live (InputLive : Standing σ) : Standing (Node ρ σ) := fun source env s =>
  s.base.state ≠ .destroyed ∧ s.base.env = env ∧ InputLive source env s.input

/-- An idle node over an idle input. -/
def Idle (InputIdle : Standing σ) : Standing (Node ρ σ) := fun source env s =>
  s.base.state = .idle ∧ s.base.env = env ∧ InputIdle source env s.input

variable {input : Machine σ} {ctx : Context} {InputLive InputIdle : Standing σ}
  {m : Machine (Node ρ σ)} {name : String} {start : ρ} {clear : ρ → ρ}

theorem closeRun_eq (h : input.Conduct ctx InputLive InputIdle) (run : ρ → ρ)
    {source : BindingSource} {env : Option Env} {s : Node ρ σ}
    (hs : Live InputLive source env s) (w : World) :
    ∃ s', Node.closeRun input run ctx s w = ⟨.ok (), s', w⟩ ∧
      Idle InputIdle source env s' := by
  obtain ⟨hstate, henv, hinput⟩ := hs
  obtain ⟨input', hclosed, hidle⟩ := h.closeRun hinput w
  refine ⟨⟨{ s.base with state := .idle }, input', run s.run⟩, ?_, rfl, henv, hidle⟩
  rw [Node.closeRun, CursorBase.beginClose_eq_ok hstate]
  simp only [hclosed]

theorem supply (hm : Common m input name start clear) (h : input.Supply ctx InputIdle) :
    m.Supply ctx (Idle InputIdle) where
  fresh := by
    intro source
    rw [hm.fresh]
    exact ⟨rfl, rfl, h.fresh source⟩
  openBindings := by
    intro source env s hs w
    have hlive : s.base.state ≠ .destroyed := by rw [hs.1]; decide
    obtain ⟨input', hopened, hidle⟩ := h.openBindings hs.2.2 w
    refine ⟨{ s with input := input' }, ?_, hs.1, hs.2.1, hidle⟩
    rw [hm.openBindings, Node.openBindings, CursorBase.ensureLive_eq_ok hlive]
    simp only [onInput, hopened]
  nextBindings := by
    intro source env s hs env' source' htake w
    have hlive : s.base.state ≠ .destroyed := by rw [hs.1]; decide
    obtain ⟨input', hmoved, hidle⟩ := h.nextBindings hs.2.2 htake w
    refine ⟨{ s with base := s.base.bind env', input := input' }, ?_, hs.1, rfl, hidle⟩
    rw [hm.nextBindings, Node.nextBindings, CursorBase.ensureLive_eq_ok hlive]
    simp only [onInput, hmoved]

theorem conduct (hm : Common m input name start clear)
    (h : input.Conduct ctx InputLive InputIdle) :
    m.Conduct ctx (Live InputLive) (Idle InputIdle) where
  toSupply := supply hm h.toSupply
  live_of_idle := fun hs => ⟨by rw [hs.1]; decide, hs.2.1, h.live_of_idle hs.2.2⟩
  closeBindings := by
    intro source env s hs w
    have hlive : s.base.state ≠ .destroyed := by rw [hs.1]; decide
    obtain ⟨input', hclosed, hidle⟩ := h.closeBindings hs.2.2 w
    refine ⟨{ s with input := input' }, ?_, hs.1, hs.2.1, hidle⟩
    rw [hm.closeBindings, Node.closeBindings, CursorBase.ensureLive_eq_ok hlive]
    simp only [onInput, hclosed]
  closeRun := by
    intro source env s hs w
    rw [hm.closeRun]
    exact closeRun_eq h clear hs w
  destroy := by
    intro source env s hs w
    have hlive : s.base.state ≠ .destroyed := by rw [hs.1]; decide
    obtain ⟨s', hclosed, hidle⟩ := closeRun_eq h clear
      ⟨hlive, hs.2.1, h.live_of_idle hs.2.2⟩ w
    obtain ⟨input', hdestroyed⟩ := h.destroy hidle.2.2 w
    refine ⟨{ s' with base := s'.base.destroy, input := input' }, ?_⟩
    rw [hm.destroy, Node.destroy, CursorBase.ensureLive_eq_ok hlive]
    simp only [hclosed, hdestroyed, firstError]

end Node
end OrderedQuery
