import OrderedQuery.Proofs.Plan.Reopening
import OrderedQuery.Proofs.Plan.Twins

/-!
# A tree that has been closed is as good as new

Closing leaves every cursor of a tree idle and no workers behind.  Two such trees that have been
given the same environment are twins, whatever has happened to them before.  `Machine.Upkeep`
collects what the calls around a run do to a tree of which no cursor has been destroyed.
-/

namespace OrderedQuery

/-- The environment that a cursor is in after it has asked for the next one. -/
def BindingSource.envAfter (source : BindingSource) (env : Option Env) : Option Env :=
  match source.take.1 with
  | .error _ => env
  | .ok env' => env'

/-- What the calls around a run do to a cursor that is held.  It is `Closed` if nothing is left of
its runs that matters. -/
structure Machine.Upkeep {σ : Type} (m : Machine σ) (Twin : Kinship σ) (Closed : σ → Prop) :
    Prop where
  fresh : ∀ source, Twin.Held source none (m.fresh source) ∧ Closed (m.fresh source)
  openBindings : ∀ {source env s}, Twin.Held source env s → ∀ ctx w, ∃ s',
    m.openBindings ctx s w = ⟨.ok (), s', w⟩ ∧ Twin.Held source.openUp env s' ∧
      (Closed s → Closed s')
  nextBindings : ∀ {source env s}, Twin.Held source env s → ∀ ctx w, ∃ s',
    m.nextBindings ctx s w = ⟨source.take.1, s', w⟩ ∧
      Twin.Held source.take.2 (source.envAfter env) s' ∧ (Closed s → Closed s')
  closeBindings : ∀ {source env s}, Twin.Held source env s → ∀ ctx w, ∃ s',
    m.closeBindings ctx s w = ⟨.ok (), s', w⟩ ∧ Twin.Held source.shut env s' ∧
      (Closed s → Closed s')
  closeRun : ∀ {source env s}, Twin.Held source env s → ∀ ctx w,
    Twin.Held source env (m.closeRun ctx s w).state ∧ Closed (m.closeRun ctx s w).state
  /-- Nothing is left to be done. -/
  closeAgain : ∀ {source env s}, Twin.Held source env s → Closed s → ∀ ctx w,
    (m.closeRun ctx s w).result = .ok () ∧ (m.closeRun ctx s w).world = w
  destroy : ∀ {source env s}, Twin.Held source env s → Closed s → ∀ ctx w,
    (m.destroy ctx s w).result = .ok () ∧ (m.destroy ctx s w).world = w
  twins : ∀ {source source' env s s'}, Twin.Held source env s → Twin.Held source' env s' →
    Closed s → Closed s' → Twin env source source' s s'

/-! ## Leaves -/

namespace Leaf

variable {ρ : Type} {name : String} {Matters : CursorState → Prop} {Rests : ρ → Prop}

/-- A leaf that is idle and rests. -/
def Closed (Rests : ρ → Prop) (s : Leaf ρ) : Prop := s.base.state = .idle ∧ Rests s.run

/-- The supply of a leaf has nothing to do with its runs. -/
theorem upkeep {m : Machine (Leaf ρ)} {start : ρ} (hm : Common m name start)
    (hstart : Rests start)
    (hrespects : ∀ {env source}, m.closeRun.Respects (Twin name Matters env source source))
    (hclosed : ∀ {s}, s.base.state ≠ .destroyed → ∀ ctx w, Closed Rests (m.closeRun ctx s w).state)
    (hagain : ∀ {s}, Closed Rests s → ∀ ctx w,
      (m.closeRun ctx s w).result = .ok () ∧ (m.closeRun ctx s w).world = w)
    (hrests : Matters .idle → ∀ {r r' : ρ}, Rests r → Rests r' → r' = r) :
    m.Upkeep (Twin name Matters) (Closed Rests) where
  fresh := by
    intro source
    have hheld : (CursorBase.start name).Held name none := ⟨rfl, rfl, nofun⟩
    rw [hm.fresh]
    exact ⟨⟨.refl hheld, rfl, rfl, fun _ => rfl⟩, rfl, hstart⟩
  openBindings := by
    intro source env s h ctx w
    refine ⟨{ s with source := s.source.openUp }, ?_, ?_, id⟩
    · rw [hm.openBindings, openBindings, CursorBase.ensureLive_eq_ok h.base.left.live]
    · have hsource := congrArg BindingSource.openUp h.left
      exact ⟨h.base, hsource, hsource, fun _ => rfl⟩
  nextBindings := by
    intro source env s h ctx w
    obtain ⟨hname, henv, hlive⟩ := h.base.left
    rw [hm.nextBindings, nextBindings, CursorBase.ensureLive_eq_ok hlive, h.left]
    unfold BindingSource.envAfter
    obtain ⟨e | env', source'⟩ := source.take
    · exact ⟨{ s with source := source' }, rfl, ⟨h.base, rfl, rfl, fun _ => rfl⟩, id⟩
    · exact ⟨{ s with base := s.base.bind env', source := source' }, rfl,
        ⟨.refl ⟨hname, rfl, hlive⟩, rfl, rfl, fun _ => rfl⟩, id⟩
  closeBindings := by
    intro source env s h ctx w
    refine ⟨{ s with source := s.source.shut }, ?_, ?_, id⟩
    · rw [hm.closeBindings, closeBindings, CursorBase.ensureLive_eq_ok h.base.left.live]
    · have hsource := congrArg BindingSource.shut h.left
      exact ⟨h.base, hsource, hsource, fun _ => rfl⟩
  closeRun := by
    intro source env s h ctx w
    exact ⟨(hrespects ctx h w).state, hclosed h.base.left.live ctx w⟩
  closeAgain _ h := hagain h
  destroy := by
    intro source env s h hs ctx w
    rw [hm.destroy, destroy, CursorBase.ensureLive_eq_ok h.base.left.live]
    exact hagain hs ctx w
  twins := by
    intro source source' env s s' h h' hs hs'
    refine ⟨⟨h.base.left, h'.base.left, hs'.1.trans hs.1.symm⟩, h.left, h'.left, ?_⟩
    intro hmatters
    rw [hs.1] at hmatters
    exact hrests hmatters hs.2 hs'.2

theorem closed_closeInPlace (run : ρ → ρ) (hrun : ∀ r, Rests (run r)) {s : Leaf ρ}
    (hlive : s.base.state ≠ .destroyed) (ctx : Context) (w : World) :
    Closed Rests (closeInPlace run ctx s w).state := by
  rw [closeInPlace, CursorBase.beginClose_eq_ok hlive]
  exact ⟨rfl, hrun _⟩

theorem closeInPlace_again (run : ρ → ρ) {s : Leaf ρ} (h : Closed Rests s) (ctx : Context)
    (w : World) :
    (closeInPlace run ctx s w).result = .ok () ∧ (closeInPlace run ctx s w).world = w := by
  have hlive : s.base.state ≠ .destroyed := by
    rw [h.1]
    decide
  rw [closeInPlace, CursorBase.beginClose_eq_ok hlive]
  exact ⟨rfl, rfl⟩

end Leaf

/-! ## Nodes -/

namespace Node

variable {ρ σ : Type} {m : Machine σ} {name : String} {InputTwin : Kinship σ}
  {InputClosed : σ → Prop}

/-- A node is kept with its input. -/
theorem upkeep {M : Machine (Node ρ σ)} {start : ρ} {clear : ρ → ρ}
    (hM : Common M m name start clear) (hm : m.Upkeep InputTwin InputClosed) :
    M.Upkeep (kinship name InputTwin) (IdleOver InputClosed) where
  fresh := by
    intro source
    obtain ⟨hheld, hclosed⟩ := hm.fresh source
    have hstart : (CursorBase.start name).Held name none := ⟨rfl, rfl, nofun⟩
    rw [hM.fresh]
    exact ⟨⟨.refl hstart, hheld, fun _ => rfl⟩, rfl, hclosed⟩
  openBindings := by
    intro source env s h ctx w
    obtain ⟨input, hopened, hheld, hclosed⟩ := hm.openBindings h.input ctx w
    refine ⟨{ s with input }, ?_, ⟨h.base, hheld, fun _ => rfl⟩, fun hs => ⟨hs.1, hclosed hs.2⟩⟩
    rw [hM.openBindings, openBindings, CursorBase.ensureLive_eq_ok h.base.left.live]
    simp only [onInput, hopened]
  nextBindings := by
    intro source env s h ctx w
    obtain ⟨input, hmoved, hheld, hclosed⟩ := hm.nextBindings h.input ctx w
    obtain ⟨hname, henv, hlive⟩ := h.base.left
    rw [hM.nextBindings, nextBindings, CursorBase.ensureLive_eq_ok hlive]
    simp only [onInput, hmoved]
    unfold BindingSource.envAfter at hheld ⊢
    cases htaken : source.take.1 with
    | error e =>
        rw [htaken] at hheld
        exact ⟨_, rfl, ⟨h.base, hheld, fun _ => rfl⟩, fun hs => ⟨hs.1, hclosed hs.2⟩⟩
    | ok env' =>
        rw [htaken] at hheld
        exact ⟨_, rfl, ⟨.refl ⟨hname, rfl, hlive⟩, hheld, fun _ => rfl⟩,
          fun hs => ⟨hs.1, hclosed hs.2⟩⟩
  closeBindings := by
    intro source env s h ctx w
    obtain ⟨input, hclosedInput, hheld, hclosed⟩ := hm.closeBindings h.input ctx w
    refine ⟨{ s with input }, ?_, ⟨h.base, hheld, fun _ => rfl⟩, fun hs => ⟨hs.1, hclosed hs.2⟩⟩
    rw [hM.closeBindings, closeBindings, CursorBase.ensureLive_eq_ok h.base.left.live]
    simp only [onInput, hclosedInput]
  closeRun := by
    intro source env s h ctx w
    obtain ⟨hheld, hclosed⟩ := hm.closeRun h.input ctx w
    rw [hM.closeRun, Node.closeRun, CursorBase.beginClose_eq_ok h.base.left.live]
    exact ⟨⟨h.base.idle, hheld, fun hactive => by cases hactive⟩, rfl, hclosed⟩
  closeAgain := by
    intro source env s h hs ctx w
    rw [hM.closeRun, Node.closeRun, CursorBase.beginClose_eq_ok h.base.left.live]
    exact hm.closeAgain h.input hs.2 ctx w
  destroy := by
    intro source env s h hs ctx w
    obtain ⟨hresult, hworld⟩ := hm.closeAgain h.input hs.2 ctx w
    obtain ⟨hheld, hclosed⟩ := hm.closeRun h.input ctx w
    obtain ⟨hdestroyed, hsame⟩ := hm.destroy hheld hclosed ctx w
    rw [hM.destroy, Node.destroy, CursorBase.ensureLive_eq_ok h.base.left.live,
      Node.closeRun, CursorBase.beginClose_eq_ok h.base.left.live]
    simp only [hresult, hworld, hdestroyed, hsame, firstError, and_self]
  twins := by
    intro source source' env s s' h h' hs hs'
    refine ⟨⟨h.base.left, h'.base.left, hs'.1.trans hs.1.symm⟩,
      hm.twins h.input h'.input hs.2 hs'.2, ?_⟩
    intro hactive
    cases hs.1.symm.trans hactive

end Node

/-! ## Operators -/

theorem ValuesCursor.upkeep (rows : List Row) :
    (machine rows).Upkeep Twin (Leaf.Closed fun _ => True) :=
  Leaf.upkeep (common rows) trivial (twins rows).closeRun
    (Leaf.closed_closeInPlace id fun _ => trivial) (Leaf.closeInPlace_again id) nofun

theorem IndexScanCursor.upkeep (scan : IndexScan) :
    (machine scan).Upkeep Twin (Leaf.Closed fun _ => True) :=
  Leaf.upkeep (common scan) trivial (twins scan).closeRun
    (Leaf.closed_closeInPlace (fun _ => none) fun _ => trivial)
    (Leaf.closeInPlace_again fun _ => none) nofun

namespace ParallelCursor

variable {σ : Type} (m : Machine σ)

/-- Closing leaves no workers. -/
theorem closed_closeRun {s : State σ} (hlive : s.base.state ≠ .destroyed) (ctx : Context)
    (w : World) : Leaf.Closed (· = none) (closeRun m ctx s w).state := by
  rw [closeRun, CursorBase.beginClose_eq_ok hlive]
  dsimp only
  split
  · rename_i hrun
    exact ⟨rfl, hrun⟩
  · exact ⟨rfl, rfl⟩

theorem closeRun_again {s : State σ} (h : Leaf.Closed (· = none) s) (ctx : Context) (w : World) :
    (closeRun m ctx s w).result = .ok () ∧ (closeRun m ctx s w).world = w := by
  obtain ⟨hidle, hrun⟩ := h
  have hlive : s.base.state ≠ .destroyed := by
    rw [hidle]
    decide
  rw [closeRun, CursorBase.beginClose_eq_ok hlive, hrun]
  exact ⟨rfl, rfl⟩

theorem upkeep (p : Partitioning) : (machine m p).Upkeep Twin (Leaf.Closed (· = none)) := by
  refine Leaf.upkeep (common m p) ?_ (closeRun_respects m) (closed_closeRun m) (closeRun_again m) ?_
  · rfl
  · rintro - r r' rfl rfl
    rfl

end ParallelCursor

section

variable {σ : Type} {m : Machine σ} {InputTwin : Kinship σ} {InputClosed : σ → Prop}

theorem SelectCursor.upkeep (hm : m.Upkeep InputTwin InputClosed) (predicate : Expr) :
    (machine m predicate).Upkeep (Node.kinship "Select" InputTwin)
      (Node.IdleOver InputClosed) :=
  Node.upkeep (common m predicate) hm

theorem ProjectCursor.upkeep (hm : m.Upkeep InputTwin InputClosed) (p : Projection) :
    (machine m p).Upkeep (Node.kinship "Project" InputTwin) (Node.IdleOver InputClosed) :=
  Node.upkeep (common m p) hm

theorem AggregateCursor.upkeep (hm : m.Upkeep InputTwin InputClosed) (g : Grouping) :
    (machine m g).Upkeep (Node.kinship "Aggregate" InputTwin) (Node.IdleOver InputClosed) :=
  Node.upkeep (common m g) hm

theorem SortCursor.upkeep (hm : m.Upkeep InputTwin InputClosed) (sorting : Sorting) :
    (machine m sorting).Upkeep (Node.kinship "Sort" InputTwin) (Node.IdleOver InputClosed) :=
  Node.upkeep (common m sorting) hm

end

/-! ## Plans -/

namespace Plan

/-- A tree of cursors without workers, all of which are idle. -/
def Closed : (p : Plan) → p.State → Prop
  | values .. => fun s : ValuesCursor.State => Leaf.Closed (fun _ => True) s
  | scan _ => fun s : IndexScanCursor.State => Leaf.Closed (fun _ => True) s
  | select input _ => Node.IdleOver input.Closed
  | project input _ => Node.IdleOver input.Closed
  | aggregate input _ => Node.IdleOver input.Closed
  | sort input _ => Node.IdleOver input.Closed
  | map input _ => fun s : ParallelCursor.State input.State => Leaf.Closed (· = none) s

/-- A tree of cursors that have been given `env` and are supplied by `source`, of which none has
been destroyed. -/
abbrev Held (p : Plan) : Standing p.State := p.Twin.Held

theorem upkeep (p : Plan) : p.cursor.Upkeep p.Twin p.Closed := by
  induction p with
  | values type rows => exact ValuesCursor.upkeep rows
  | scan s => exact IndexScanCursor.upkeep s
  | select input predicate ih => exact SelectCursor.upkeep ih predicate
  | project input q ih => exact ProjectCursor.upkeep ih q
  | aggregate input g ih => exact AggregateCursor.upkeep ih g
  | sort input s ih => exact SortCursor.upkeep ih s
  | map input q ih => exact ParallelCursor.upkeep input.cursor q

/-- Whatever calls have been made on a tree, if the root has not been destroyed, none of its
cursors has, and they have all been given the same environment. -/
theorem held_of_reached {p : Plan} {source : BindingSource} {s : p.State}
    (hs : p.cursor.Reached source s) (hlive : (p.cursor.base s).state ≠ .destroyed) :
    ∃ source' env, p.Held source' env s := by
  induction hs with
  | fresh => exact ⟨source, none, (p.upkeep.fresh source).1⟩
  | call hs c ctx w ih =>
      rename_i s
      obtain ⟨hrefuses, hmoves⟩ := p.cursor_obeys.answers c ctx s w
      by_cases hbefore : (p.cursor.base s).state = .destroyed
      · have hrefused : ¬ c.Allowed (p.cursor.base s).state := by
          rw [hbefore]
          exact c.not_allowed_destroyed
        rw [hrefuses hrefused] at hlive
        exact absurd hbefore hlive
      · obtain ⟨source', env, hheld⟩ := ih hbefore
        have htwins := p.cursor_twins env source' source'
        cases c with
        | openRun => exact ⟨source', env, (htwins.openRun ctx hheld w).state⟩
        | next => exact ⟨source', env, (htwins.next ctx hheld w).state⟩
        | closeRun => exact ⟨source', env, (htwins.closeRun ctx hheld w).state⟩
        | destroy => exact absurd (hmoves hbefore).2 hlive
        | openBindings =>
            obtain ⟨s', hopened, hheld', -⟩ := p.upkeep.openBindings hheld ctx w
            rw [Machine.call, hopened]
            exact ⟨_, _, hheld'⟩
        | nextBindings =>
            obtain ⟨s', hmoved, hheld', -⟩ := p.upkeep.nextBindings hheld ctx w
            rw [Machine.call, hmoved]
            exact ⟨_, _, hheld'⟩
        | closeBindings =>
            obtain ⟨s', hclosed, hheld', -⟩ := p.upkeep.closeBindings hheld ctx w
            rw [Machine.call, hclosed]
            exact ⟨_, _, hheld'⟩

end Plan
end OrderedQuery
