import OrderedQuery.Proofs.Cursor.Protocol
import OrderedQuery.Proofs.Query.Accounts

/-!
# Cursors that answer for workers

A cursor may have started workers, or the cursors below it may have.  A `Discipline` tells which
states of a cursor are in order, in which no workers are left, and what is due in a state.
`Machine.Disciplined` says that every call keeps to it: the state stays in order, the world
changes by what is due and by nothing else, and no thread is ended from within.

Whether a call can be made depends on the world only for workers that write.  Either the
transactions that write are those that are due, or the caller is inside a transaction of its
own.  In the latter case no worker may be there, and none is started.
-/

namespace OrderedQuery

/-- How a caller stands to transactions. -/
inductive Access where
  /-- Workers of its cursors can begin transactions. -/
  | free
  /-- It is inside a transaction, and workers would write. -/
  | inside

/-- What the states of a cursor answer for. -/
structure Discipline (σ : Type) where
  /-- The workers, if there are any, are in order for calls from a context. -/
  Orderly : Context → σ → Prop
  /-- No workers are left. -/
  Rests : σ → Prop
  dues : σ → Dues
  dues_of_rests : ∀ {s}, Rests s → dues s = 0

namespace Discipline

variable {σ α β : Type} (D : Discipline σ)

/-- A call can be made in a world. -/
def Clear : Access → Context → σ → World → Prop
  | .free, ctx, s, w => w.Clear ctx.config.mode (D.dues s)
  | .inside, ctx, s, w =>
      ctx.config.mode = .readWrite ∧ w.engine.inTransaction ctx.session = true ∧ D.Rests s

/-- A call can be made. -/
structure Allows (access : Access) (ctx : Context) (s : σ) (w : World) : Prop where
  orderly : D.Orderly ctx s
  clear : D.Clear access ctx s w

/-- A call has led from one state and world to others as it should. -/
structure Leads (access : Access) (ctx : Context) (s : σ) (w : World) (s' : σ) (w' : World) :
    Prop where
  allows : D.Allows access ctx s' w'
  accounts : Accounts (D.dues s) (D.dues s') w w'

/-- An operation keeps to the discipline, and returns. -/
def Respects (op : Action σ α) : Prop :=
  ∀ ⦃access ctx s w⦄, D.Allows access ctx s w →
    D.Leads access ctx s w (op ctx s w).state (op ctx s w).world ∧ NoAbort (op ctx s w).result

variable {D} {access : Access} {ctx : Context} {s s' s'' : σ} {w w' w'' : World}

theorem Leads.refl (h : D.Allows access ctx s w) : D.Leads access ctx s w s w :=
  ⟨h, .refl _ w⟩

theorem Leads.trans (h : D.Leads access ctx s w s' w') (h' : D.Leads access ctx s' w' s'' w'') :
    D.Leads access ctx s w s'' w'' :=
  ⟨h'.allows, h.accounts.trans h'.accounts⟩

/-- The passing of time disturbs nobody. -/
theorem Clear.passes (h : D.Clear access ctx s w) (hw : w.Passes w') :
    D.Clear access ctx s w' := by
  cases access with
  | free => exact World.Clear.passes h hw
  | inside =>
      obtain ⟨hmode, hin, hrests⟩ := h
      exact ⟨hmode, by rwa [Engine.inTransaction_congr hw.active], hrests⟩

theorem Leads.passes (h : D.Leads access ctx s w s' w') (hw : w'.Passes w'') :
    D.Leads access ctx s w s' w'' :=
  ⟨⟨h.allows.orderly, h.allows.clear.passes hw⟩, h.accounts.trans (hw.accounts _)⟩

/-- Whoever answers for no worker, before or after, has changed no transaction. -/
theorem Clear.of_rests (h : D.Clear access ctx s w) (hs : D.Rests s) (hs' : D.Rests s')
    (ha : Accounts (D.dues s) (D.dues s') w w') : D.Clear access ctx s' w' := by
  rw [D.dues_of_rests hs, D.dues_of_rests hs'] at ha
  cases access with
  | free =>
      have hbefore : w.Clear ctx.config.mode (D.dues s) := h
      rw [D.dues_of_rests hs] at hbefore
      have hafter := hbefore.accounts ha fun _ s hs => absurd hs (Multiset.notMem_zero s)
      rw [← D.dues_of_rests hs'] at hafter
      exact hafter
  | inside =>
      obtain ⟨hmode, hin, -⟩ := h
      exact ⟨hmode, by rwa [ha.inTransaction_eq], hs'⟩

theorem respects_of_map (op : Action σ α) (f : α → β)
    (h : D.Respects fun ctx s w => (op ctx s w).map f) : D.Respects op := by
  intro access ctx s w hs
  obtain ⟨hleads, hresult⟩ := h hs
  exact ⟨hleads, hresult.of_map⟩

end Discipline

/-- A cursor keeps to a discipline. -/
structure Machine.Disciplined {σ : Type} (m : Machine σ) (D : Discipline σ) : Prop where
  fresh : ∀ ctx source, D.Orderly ctx (m.fresh source)
  rests : ∀ source, D.Rests (m.fresh source)
  respects : ∀ c, D.Respects (m.call c)
  destroyed : ∀ {access ctx s w}, D.Allows access ctx s w → D.Rests (m.destroy ctx s w).state

namespace Machine.Disciplined

variable {σ : Type} {m : Machine σ} {D : Discipline σ}

theorem openRun (hm : m.Disciplined D) : D.Respects m.openRun :=
  Discipline.respects_of_map m.openRun _ (hm.respects .openRun)

theorem next (hm : m.Disciplined D) : D.Respects m.next :=
  Discipline.respects_of_map m.next _ (hm.respects .next)

theorem closeRun (hm : m.Disciplined D) : D.Respects m.closeRun :=
  Discipline.respects_of_map m.closeRun _ (hm.respects .closeRun)

theorem destroy (hm : m.Disciplined D) : D.Respects m.destroy :=
  Discipline.respects_of_map m.destroy _ (hm.respects .destroy)

theorem openBindings (hm : m.Disciplined D) : D.Respects m.openBindings :=
  Discipline.respects_of_map m.openBindings _ (hm.respects .openBindings)

theorem nextBindings (hm : m.Disciplined D) : D.Respects m.nextBindings :=
  Discipline.respects_of_map m.nextBindings _ (hm.respects .nextBindings)

theorem closeBindings (hm : m.Disciplined D) : D.Respects m.closeBindings :=
  Discipline.respects_of_map m.closeBindings _ (hm.respects .closeBindings)

/-- Opening the first run, as a worker does. -/
theorem openTop (hm : m.Disciplined D) : D.Respects m.openTop := by
  intro access ctx s w hs
  obtain ⟨hopened, hresult⟩ := hm.openBindings hs
  unfold Machine.openTop
  dsimp only
  cases hbindings : (m.openBindings ctx s w).result with
  | error e =>
      rw [hbindings] at hresult
      exact ⟨hopened, .error hresult.ne_aborted⟩
  | ok _ =>
      obtain ⟨hmoved, hresult⟩ := hm.nextBindings hopened.allows
      have hmoved := hopened.trans hmoved
      dsimp only
      generalize m.nextBindings ctx _ _ = o at hmoved hresult
      obtain ⟨e | _ | env, s', w'⟩ := o
      · exact ⟨hmoved, .error hresult.ne_aborted⟩
      · exact ⟨hmoved, .ok _⟩
      · obtain ⟨hrun, hresult⟩ := hm.openRun hmoved.allows
        exact ⟨hmoved.trans hrun, hresult.map _⟩

/-- Ending the last run, as a worker does. -/
theorem closeTop (hm : m.Disciplined D) : D.Respects m.closeTop := by
  intro access ctx s w hs
  obtain ⟨hclosed, hresult⟩ := hm.closeRun hs
  obtain ⟨hunbound, hresult'⟩ := hm.closeBindings hclosed.allows
  exact ⟨hclosed.trans hunbound, hresult.firstError hresult'⟩

end Machine.Disciplined

/-! ## Leaves -/

namespace Leaf

variable {ρ α β : Type} {ctx : Context} {s : Leaf ρ} {w : World}

/-- The discipline of a cursor that has nothing to do with workers. -/
def discipline : Discipline (Leaf ρ) where
  Orderly _ _ := True
  Rests _ := True
  dues _ := 0
  dues_of_rests _ := rfl

/-- An operation has left the run and the world as they were. -/
structure Stays (s : Leaf ρ) (w : World) (o : Outcome (Leaf ρ) α) : Prop where
  state : o.state.base.state = s.base.state
  run : o.state.run = s.run
  world : o.world = w
  result : NoAbort o.result

theorem openBindings_stays (ctx : Context) (s : Leaf ρ) (w : World) :
    Stays s w (openBindings ctx s w) := by
  by_cases h : s.base.state = .destroyed
  · rw [openBindings, CursorBase.ensureLive_eq_error h]
    exact ⟨rfl, rfl, rfl, .violation _ _⟩
  · rw [openBindings, CursorBase.ensureLive_eq_ok h]
    exact ⟨rfl, rfl, rfl, .ok _⟩

theorem nextBindings_stays (ctx : Context) (s : Leaf ρ) (w : World) :
    Stays s w (nextBindings ctx s w) := by
  by_cases h : s.base.state = .destroyed
  · rw [nextBindings, CursorBase.ensureLive_eq_error h]
    exact ⟨rfl, rfl, rfl, .violation _ _⟩
  · have htaken := s.source.noAbort_take
    rw [nextBindings, CursorBase.ensureLive_eq_ok h]
    generalize s.source.take = x at htaken
    obtain ⟨e | env, source⟩ := x
    · exact ⟨rfl, rfl, rfl, .error htaken.ne_aborted⟩
    · exact ⟨rfl, rfl, rfl, .ok _⟩

theorem closeBindings_stays (ctx : Context) (s : Leaf ρ) (w : World) :
    Stays s w (closeBindings ctx s w) := by
  by_cases h : s.base.state = .destroyed
  · rw [closeBindings, CursorBase.ensureLive_eq_error h]
    exact ⟨rfl, rfl, rfl, .violation _ _⟩
  · rw [closeBindings, CursorBase.ensureLive_eq_ok h]
    exact ⟨rfl, rfl, rfl, .ok _⟩

/-- A call under which time has passed and no more. -/
theorem discipline_leads {access : Access} {s' : Leaf ρ} {w' : World}
    (h : discipline.Allows access ctx s w) (hw : w.Passes w') :
    discipline.Leads access ctx s w s' w' := by
  have hclear : discipline.Clear access ctx s' w := h.clear.of_rests trivial trivial (.refl _ w)
  exact ⟨⟨trivial, hclear.passes hw⟩, hw.accounts 0⟩

/-- Nothing but time passes under the operation, and it returns. -/
def Idles (op : Action (Leaf ρ) α) : Prop :=
  ∀ ctx s w, w.Passes (op ctx s w).world ∧ NoAbort (op ctx s w).result

theorem Idles.map {op : Action (Leaf ρ) α} (h : Idles op) (f : α → β) :
    Idles fun ctx s w => (op ctx s w).map f :=
  fun ctx s w => (h ctx s w).imp_right (.map · f)

theorem idles_of_stays {op : Action (Leaf ρ) α} (h : ∀ ctx s w, Stays s w (op ctx s w)) :
    Idles op := by
  intro ctx s w
  rw [(h ctx s w).world]
  exact ⟨.refl w, (h ctx s w).result⟩

theorem closeInPlace_idles (run : ρ → ρ) : Idles (closeInPlace run) := by
  intro ctx s w
  by_cases h : s.base.state = .destroyed
  · rw [closeInPlace, CursorBase.beginClose_eq_error h]
    exact ⟨.refl w, .violation _ _⟩
  · rw [closeInPlace, CursorBase.beginClose_eq_ok h]
    exact ⟨.refl w, .ok _⟩

theorem destroy_idles {close : Action (Leaf ρ) Unit} (hclose : Idles close) :
    Idles (destroy close) := by
  intro ctx s w
  by_cases h : s.base.state = .destroyed
  · rw [destroy, CursorBase.ensureLive_eq_error h]
    exact ⟨.refl w, .violation _ _⟩
  · rw [destroy, CursorBase.ensureLive_eq_ok h]
    exact hclose ctx s w

/-- A leaf without workers whose operations only let time pass. -/
theorem disciplined {m : Machine (Leaf ρ)} {name : String} {start : ρ}
    (hm : Common m name start) (hopen : Idles m.openRun) (hnext : Idles m.next)
    (hclose : Idles m.closeRun) : m.Disciplined discipline where
  fresh _ _ := trivial
  rests _ := trivial
  destroyed _ := trivial
  respects c := by
    have hidles : Idles (m.call c) := by
      cases c with
      | openRun => exact hopen.map _
      | next => exact hnext.map _
      | closeRun => exact hclose.map _
      | destroy =>
          have hdestroys : Idles m.destroy := by
            rw [hm.destroy]
            exact destroy_idles hclose
          exact hdestroys.map _
      | openBindings =>
          have hopens : Idles m.openBindings := by
            rw [hm.openBindings]
            exact idles_of_stays openBindings_stays
          exact hopens.map _
      | nextBindings =>
          have hmoves : Idles m.nextBindings := by
            rw [hm.nextBindings]
            exact idles_of_stays nextBindings_stays
          exact hmoves.map _
      | closeBindings =>
          have hcloses : Idles m.closeBindings := by
            rw [hm.closeBindings]
            exact idles_of_stays closeBindings_stays
          exact hcloses.map _
    intro access ctx s w h
    obtain ⟨hworld, hresult⟩ := hidles ctx s w
    exact ⟨discipline_leads h hworld, hresult⟩

end Leaf

/-! ## Nodes -/

namespace Node

variable {ρ σ α : Type} {m : Machine σ} {D : Discipline σ}

/-- The discipline of a node is that of its input, of which nothing is left after the node has
been destroyed. -/
def discipline (D : Discipline σ) : Discipline (Node ρ σ) where
  Orderly ctx s := D.Orderly ctx s.input ∧ (s.base.state = .destroyed → D.Rests s.input)
  Rests s := D.Rests s.input
  dues s := D.dues s.input
  dues_of_rests h := D.dues_of_rests h

variable {access : Access} {ctx : Context} {s s' : Node ρ σ} {w w' : World}

theorem clear_iff : (discipline D).Clear access ctx s w ↔ D.Clear access ctx s.input w := by
  cases access with
  | free => exact Iff.rfl
  | inside => exact Iff.rfl

theorem allows_input (h : (discipline D).Allows access ctx s w) : D.Allows access ctx s.input w :=
  ⟨h.orderly.1, clear_iff.mp h.clear⟩

theorem leads_of_input (h : D.Leads access ctx s.input w s'.input w')
    (hs' : s'.base.state = .destroyed → D.Rests s'.input) :
    (discipline D).Leads access ctx s w s' w' :=
  ⟨⟨⟨h.allows.orderly, hs'⟩, clear_iff.mpr h.allows.clear⟩, h.accounts⟩

/-- What an operation of a node does to its input keeps to the discipline of the input. -/
def Relays (D : Discipline σ) (op : Action (Node ρ σ) α) : Prop :=
  ∀ ⦃access ctx s w⦄, D.Allows access ctx s.input w →
    D.Leads access ctx s.input w (op ctx s w).state.input (op ctx s w).world ∧
      NoAbort (op ctx s w).result

theorem Relays.map {β : Type} {op : Action (Node ρ σ) α} (h : Relays D op) (f : α → β) :
    Relays D fun ctx s w => (op ctx s w).map f := by
  intro access ctx s w hs
  exact (h hs).imp_right (.map · f)

/-- Any call but one that destroys leaves a node as it is or not destroyed. -/
theorem respects (c : Call) (hc : c ≠ .destroy) {op : Action (Node ρ σ) Reply}
    (hanswers : ∀ ctx s w, Answers base c s w (op ctx s w)) (hrelays : Relays D op) :
    (discipline D).Respects op := by
  intro access ctx s w h
  obtain ⟨hinput, hresult⟩ := hrelays (allows_input h)
  refine ⟨leads_of_input hinput ?_, hresult⟩
  intro hdestroyed
  obtain ⟨hrefuses, hmoves⟩ := hanswers ctx s w
  by_cases hallowed : c.Allowed s.base.state
  · rw [(hmoves hallowed).2] at hdestroyed
    exact absurd hdestroyed (Call.leadsTo_ne_destroyed hc hallowed.ne_destroyed _)
  · rw [hrefuses hallowed] at hdestroyed ⊢
    exact h.orderly.2 hdestroyed

theorem openBindings_relays (hm : m.Disciplined D) :
    Relays D (openBindings m : Action (Node ρ σ) Unit) := by
  intro access ctx s w h
  by_cases hs : s.base.state = .destroyed
  · rw [openBindings, CursorBase.ensureLive_eq_error hs]
    exact ⟨.refl h, .violation _ _⟩
  · rw [openBindings, CursorBase.ensureLive_eq_ok hs]
    exact hm.openBindings h

theorem nextBindings_relays (hm : m.Disciplined D) :
    Relays D (nextBindings m : Action (Node ρ σ) (Option Env)) := by
  intro access ctx s w h
  by_cases hs : s.base.state = .destroyed
  · rw [nextBindings, CursorBase.ensureLive_eq_error hs]
    exact ⟨.refl h, .violation _ _⟩
  · have hinput := hm.nextBindings h
    rw [nextBindings, CursorBase.ensureLive_eq_ok hs]
    dsimp only [onInput]
    generalize m.nextBindings ctx s.input w = o at hinput
    obtain ⟨e | env, input, w'⟩ := o
    · exact hinput
    · exact hinput

theorem closeBindings_relays (hm : m.Disciplined D) :
    Relays D (closeBindings m : Action (Node ρ σ) Unit) := by
  intro access ctx s w h
  by_cases hs : s.base.state = .destroyed
  · rw [closeBindings, CursorBase.ensureLive_eq_error hs]
    exact ⟨.refl h, .violation _ _⟩
  · rw [closeBindings, CursorBase.ensureLive_eq_ok hs]
    exact hm.closeBindings h

theorem openRun_relays (hm : m.Disciplined D) (run : ρ → ρ) : Relays D (openRun m run) := by
  intro access ctx s w h
  by_cases hs : s.base.state = .idle
  · have hinput := hm.openRun h
    rw [openRun, CursorBase.beginOpen_eq_ok hs]
    dsimp only
    generalize m.openRun ctx s.input w = o at hinput
    obtain ⟨e | _, input, w'⟩ := o
    · exact hinput
    · exact hinput
  · rw [openRun, CursorBase.beginOpen_eq_error hs]
    exact ⟨.refl h, .violation _ _⟩

theorem closeRun_relays (hm : m.Disciplined D) (run : ρ → ρ) : Relays D (closeRun m run) := by
  intro access ctx s w h
  by_cases hs : s.base.state = .destroyed
  · rw [closeRun, CursorBase.beginClose_eq_error hs]
    exact ⟨.refl h, .violation _ _⟩
  · rw [closeRun, CursorBase.beginClose_eq_ok hs]
    exact hm.closeRun h

/-- Destroying a node destroys its input, after which nothing of it is left. -/
theorem destroy_respects (hm : m.Disciplined D) (run : ρ → ρ)
    (h : (discipline D).Allows access ctx s w) :
    let o := destroy m (closeRun m run) ctx s w
    ((discipline D).Leads access ctx s w o.state o.world ∧ NoAbort o.result) ∧
      (discipline D).Rests o.state := by
  by_cases hs : s.base.state = .destroyed
  · rw [destroy, CursorBase.ensureLive_eq_error hs]
    exact ⟨⟨.refl h, .violation _ _⟩, h.orderly.2 hs⟩
  · obtain ⟨hclosed, hresult⟩ := closeRun_relays hm run (allows_input h)
    obtain ⟨hdestroyed, hresult'⟩ := hm.destroy hclosed.allows
    have hrests := hm.destroyed hclosed.allows
    rw [destroy, CursorBase.ensureLive_eq_ok hs]
    exact ⟨⟨leads_of_input (hclosed.trans hdestroyed) fun _ => hrests,
      hresult.firstError hresult'⟩, hrests⟩

/-- A node keeps to the discipline of its input if the operations do that its operator
defines. -/
theorem disciplined {M : Machine (Node ρ σ)} {name : String} {start : ρ} {clear : ρ → ρ}
    (hM : Common M m name start clear) (hm : m.Disciplined D)
    (hanswers : ∀ c ctx s w, Answers M.base c s w (M.call c ctx s w))
    (hopen : Relays D M.openRun) (hnext : Relays D M.next) :
    M.Disciplined (discipline D) where
  fresh ctx source := by
    rw [hM.fresh]
    exact ⟨hm.fresh ctx source, fun h => by cases h⟩
  rests source := by
    rw [hM.fresh]
    exact hm.rests source
  destroyed h := by
    rw [hM.destroy]
    exact (destroy_respects hm clear h).2
  respects c := by
    rw [hM.base] at hanswers
    cases c with
    | openRun => exact respects .openRun nofun (hanswers .openRun) (hopen.map _)
    | next => exact respects .next nofun (hanswers .next) (hnext.map _)
    | closeRun =>
        apply respects .closeRun nofun (hanswers .closeRun)
        apply Relays.map
        rw [hM.closeRun]
        exact closeRun_relays hm clear
    | destroy =>
        intro access ctx s w h
        show _ ∧ NoAbort ((M.destroy ctx s w).result.map _)
        show (discipline D).Leads access ctx s w (M.destroy ctx s w).state
          (M.destroy ctx s w).world ∧ _
        rw [hM.destroy]
        exact (destroy_respects hm clear h).1.imp_right (.map · _)
    | openBindings =>
        apply respects .openBindings nofun (hanswers .openBindings)
        apply Relays.map
        rw [hM.openBindings]
        exact openBindings_relays hm
    | nextBindings =>
        apply respects .nextBindings nofun (hanswers .nextBindings)
        apply Relays.map
        rw [hM.nextBindings]
        exact nextBindings_relays hm
    | closeBindings =>
        apply respects .closeBindings nofun (hanswers .closeBindings)
        apply Relays.map
        rw [hM.closeBindings]
        exact closeBindings_relays hm

end Node
end OrderedQuery
