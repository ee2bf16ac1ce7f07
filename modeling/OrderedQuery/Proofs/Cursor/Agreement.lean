import OrderedQuery.Proofs.Binding.Agreement
import OrderedQuery.Proofs.Cursor.Evolution
import OrderedQuery.Proofs.Cursor.Protocol
import OrderedQuery.Proofs.Query.Likeness

/-!
# Cursors that agree on what they read

Two states of a cursor agree on a set of positions if they differ in nothing but environments,
which bind the same at those positions.  `Machine.Agrees` says that operations on states that
agree, in worlds that look alike, return the same, lead to states that agree and leave worlds
behind that look alike, unless the lockstep of the worlds is lost.
-/

namespace OrderedQuery

namespace CursorBase

/-- What every cursor keeps about itself, up to environments. -/
structure AgreeOn (A : Nat → Prop) (b b' : CursorBase) : Prop where
  name : b'.name = b.name
  state : b'.state = b.state
  env : Option.Rel (Env.AgreeOn A) b.env b'.env
  produced : b'.produced = b.produced

namespace AgreeOn

variable {A : Nat → Prop} {b b' : CursorBase}

theorem refl (b : CursorBase) : b.AgreeOn A b := by
  refine ⟨rfl, rfl, ?_, rfl⟩
  cases b.env with
  | none => exact .none
  | some env => exact .some (.refl A env)

theorem start (name : String) : AgreeOn A (.start name) (.start name) := .refl _

theorem violation (h : b.AgreeOn A b') (action : String) :
    b'.violation action = b.violation action := by
  rw [CursorBase.violation, CursorBase.violation, h.name, h.state]

theorem withState (h : b.AgreeOn A b') (state : CursorState) :
    AgreeOn A { b with state } { b' with state } := ⟨h.name, rfl, h.env, h.produced⟩

theorem checkNext (h : b.AgreeOn A b') : b'.checkNext = b.checkNext := by
  rw [CursorBase.checkNext, CursorBase.checkNext, h.state, h.violation]

theorem ensureLive (h : b.AgreeOn A b') (action : String) :
    b'.ensureLive action = b.ensureLive action := by
  rw [CursorBase.ensureLive, CursorBase.ensureLive, h.state, h.violation]

theorem finish (h : b.AgreeOn A b') : b.finish.AgreeOn A b'.finish := by
  rw [CursorBase.finish, CursorBase.finish, h.state]
  split
  · exact h.withState .idle
  · exact h

theorem hand {α : Type} (h : b.AgreeOn A b') (row : Option α) :
    (b.hand row).AgreeOn A (b'.hand row) := by
  cases row with
  | none => exact h.finish
  | some _ => exact ⟨h.name, h.state, h.env, congrArg (· + 1) h.produced⟩

theorem destroy (h : b.AgreeOn A b') : b.destroy.AgreeOn A b'.destroy :=
  ⟨h.name, rfl, .none, h.produced⟩

theorem bind (h : b.AgreeOn A b') {env env' : Option Env}
    (henv : Option.Rel (Env.AgreeOn A) env env') : (b.bind env).AgreeOn A (b'.bind env') :=
  ⟨h.name, h.state, henv, h.produced⟩

/-- What is computed from the current environment is the same if it depends on no more than what
the environments agree on. -/
theorem bind_currentEnv {α : Type} {f : Env → Except QueryError α} (h : b.AgreeOn A b')
    (hf : ∀ env env', env.AgreeOn A env' → f env' = f env) :
    (b'.currentEnv >>= f) = (b.currentEnv >>= f) := by
  have henv := h.env
  rw [CursorBase.currentEnv, CursorBase.currentEnv, h.violation]
  generalize b.env = env, b'.env = env' at henv
  cases henv with
  | none => rfl
  | some henv => exact hf _ _ henv

end AgreeOn
end CursorBase

namespace BindingSource.AgreeOn

variable {A : Nat → Prop} {source source' : BindingSource}

theorem refl (source : BindingSource) : source.AgreeOn A source := by
  cases source with
  | single env isOpen pending => exact .single (.refl A env) isOpen pending
  | several envs next isOpen =>
      exact .several (List.forall₂_same.mpr fun env _ => .refl A env) next isOpen

theorem openUp (h : source.AgreeOn A source') : source.openUp.AgreeOn A source'.openUp := by
  cases h with
  | single h => exact .single h true true
  | several h => exact .several h 0 true

theorem shut (h : source.AgreeOn A source') : source.shut.AgreeOn A source'.shut := by
  cases h with
  | single h => exact .single h false false
  | several h next => exact .several h next false

end BindingSource.AgreeOn

/-! ## Operations -/

/-- Outcomes with the same result, with related states and with worlds that look alike. -/
inductive Outcome.Matches {σ α : Type} (L : Likeness) (R : σ → σ → Prop) :
    Outcome σ α → Outcome σ α → Prop
  | intro {s s' : σ} {w w' : World} (result : Except QueryError α) (hs : R s s')
      (hw : w.Alike L w') : Matches L R ⟨result, s, w⟩ ⟨result, s', w'⟩

/-- Outcomes that match, unless the lockstep is lost. -/
def Outcome.Agree {σ α : Type} (L : Likeness) (R : σ → σ → Prop) (o o' : Outcome σ α) : Prop :=
  o.world.Lost L ∨ o.Matches L R o'

/-- An operation whose outcomes from related states agree. -/
def Action.Agrees {σ α : Type} (L : Likeness) (R : σ → σ → Prop) (op : Action σ α) : Prop :=
  ∀ ctx ⦃s s'⦄, R s s' → ∀ ⦃w w' : World⦄, w.Alike L w' →
    (op ctx s w).Agree L R (op ctx s' w')

/-- Environments that agree have been supplied, or the same error; the worlds are left alone. -/
inductive Outcome.Supplied {σ : Type} (A : Nat → Prop) (R : σ → σ → Prop) (w w' : World) :
    Outcome σ (Option Env) → Outcome σ (Option Env) → Prop
  | error {s s' : σ} (e : QueryError) (hs : R s s') :
      Supplied A R w w' ⟨.error e, s, w⟩ ⟨.error e, s', w'⟩
  | ok {s s' : σ} {env env' : Option Env} (henv : Option.Rel (Env.AgreeOn A) env env')
      (hs : R s s') : Supplied A R w w' ⟨.ok env, s, w⟩ ⟨.ok env', s', w'⟩

/-- The operations of a cursor read no environments outside of a set of positions. -/
structure Machine.Agrees {σ : Type} (L : Likeness) (A : Nat → Prop) (m : Machine σ)
    (R : σ → σ → Prop) : Prop where
  evolving : m.Evolving
  fresh : ∀ {source source'}, source.AgreeOn A source' → R (m.fresh source) (m.fresh source')
  pending : ∀ ctx {s s'}, R s s' → ∀ {w w' : World}, w.Alike L w' →
    m.pending ctx s' w' = m.pending ctx s w
  openRun : m.openRun.Agrees L R
  next : m.next.Agrees L R
  closeRun : m.closeRun.Agrees L R
  destroy : m.destroy.Agrees L R
  openBindings : m.openBindings.Agrees L R
  nextBindings : ∀ ctx {s s'}, R s s' → ∀ w w',
    (m.nextBindings ctx s w).Supplied A R w w' (m.nextBindings ctx s' w')
  closeBindings : m.closeBindings.Agrees L R
  letGo : ∀ {s s'}, R s s' → ∀ {w w' : World}, w.Alike L w' →
    (m.letGo s w).Lost L ∨ (m.letGo s w).Alike L (m.letGo s' w')

variable {L : Likeness} {A : Nat → Prop}

namespace Outcome.Agree

variable {σ α : Type} {R : σ → σ → Prop} {s s' : σ} {w w' : World}

theorem intro (result : Except QueryError α) (hs : R s s') (hw : w.Alike L w') :
    Outcome.Agree L R ⟨result, s, w⟩ ⟨result, s', w'⟩ :=
  .inr (.intro result hs hw)

end Outcome.Agree

/-! ## Driving a cursor -/

namespace Machine.Agrees

variable {σ : Type} {m : Machine σ} {R : σ → σ → Prop}

theorem openTop (hm : m.Agrees L A R) : m.openTop.Agrees L R := by
  intro ctx s s' hs w w' hw
  obtain hlost | hopened := hm.openBindings ctx hs hw
  · exact .inl ((hm.evolving.openTop_rest ctx s w).lost hlost)
  · rw [Machine.openTop, Machine.openTop]
    generalize m.openBindings ctx s w = o, m.openBindings ctx s' w' = o' at hopened
    obtain ⟨_ | _, hs, hw⟩ := hopened
    · exact .intro _ hs hw
    · rename_i s₁ s₁' w₁ w₁' _
      have hsupplied := hm.nextBindings ctx hs w₁ w₁'
      dsimp only
      generalize m.nextBindings ctx s₁ w₁ = o, m.nextBindings ctx s₁' w₁' = o' at hsupplied
      cases hsupplied with
      | error e hs => exact .intro _ hs hw
      | ok henv hs =>
          cases henv with
          | none => exact .intro _ hs hw
          | some henv =>
              refine (hm.openRun ctx hs hw).imp id fun hran => ?_
              dsimp only
              generalize m.openRun ctx _ w₁ = o, m.openRun ctx _ w₁' = o' at hran
              obtain ⟨result, hs, hw⟩ := hran
              exact .intro _ hs hw

theorem closeTop (hm : m.Agrees L A R) : m.closeTop.Agrees L R := by
  intro ctx s s' hs w w' hw
  obtain hlost | hclosed := hm.closeRun ctx hs hw
  · exact .inl ((hm.evolving.closeBindings ctx _ _).lost hlost)
  · rw [Machine.closeTop, Machine.closeTop]
    generalize m.closeRun ctx s w = o, m.closeRun ctx s' w' = o' at hclosed
    obtain ⟨result, hs, hw⟩ := hclosed
    rename_i s₁ s₁' w₁ w₁'
    refine (hm.closeBindings ctx hs hw).imp id fun hunbound => ?_
    dsimp only
    generalize m.closeBindings ctx s₁ w₁ = o, m.closeBindings ctx s₁' w₁' = o' at hunbound
    obtain ⟨result', hs, hw⟩ := hunbound
    exact .intro _ hs hw

end Machine.Agrees

/-! ## Leaves -/

namespace Leaf

variable {ρ : Type} {Q : ρ → ρ → Prop}

/-- Leaves that agree, and keep related things for the run. -/
structure AgreeOn (A : Nat → Prop) (Q : ρ → ρ → Prop) (s s' : Leaf ρ) : Prop where
  base : s.base.AgreeOn A s'.base
  source : s.source.AgreeOn A s'.source
  run : Q s.run s'.run

theorem AgreeOn.refl (hQ : ∀ run, Q run run) (s : Leaf ρ) : s.AgreeOn A Q s :=
  ⟨.refl _, .refl _, hQ _⟩

theorem openBindings_agrees : (openBindings (ρ := ρ)).Agrees L (AgreeOn A Q) := by
  intro ctx s s' h w w' hw
  rw [openBindings, openBindings, h.base.ensureLive]
  split
  · exact .intro _ h hw
  · exact .intro _ ⟨h.base, h.source.openUp, h.run⟩ hw

theorem closeBindings_agrees : (closeBindings (ρ := ρ)).Agrees L (AgreeOn A Q) := by
  intro ctx s s' h w w' hw
  rw [closeBindings, closeBindings, h.base.ensureLive]
  split
  · exact .intro _ h hw
  · exact .intro _ ⟨h.base, h.source.shut, h.run⟩ hw

theorem nextBindings_supplied (ctx : Context) {s s' : Leaf ρ} (h : AgreeOn A Q s s')
    (w w' : World) :
    (nextBindings ctx s w).Supplied A (AgreeOn A Q) w w' (nextBindings ctx s' w') := by
  obtain ⟨b, source, run⟩ := s
  obtain ⟨b', source', run'⟩ := s'
  obtain ⟨hbase, hsource, hrun⟩ := h
  dsimp only at hbase hsource hrun
  rw [nextBindings, nextBindings]
  dsimp only
  rw [hbase.ensureLive]
  split
  · exact .error _ ⟨hbase, hsource, hrun⟩
  · cases hsource with
    | @single env env' henv isOpen pending =>
        cases isOpen with
        | false => exact .error _ ⟨hbase, .single henv false pending, hrun⟩
        | true =>
            have hsource := BindingSource.AgreeOn.single henv true false
            cases pending with
            | false => exact .ok .none ⟨hbase.bind .none, hsource, hrun⟩
            | true => exact .ok (.some henv) ⟨hbase.bind (.some henv), hsource, hrun⟩
    | @several envs envs' henvs next isOpen =>
        cases isOpen with
        | false => exact .error _ ⟨hbase, .several henvs next false, hrun⟩
        | true =>
            dsimp only [BindingSource.take]
            by_cases hnext : next < envs.length
            · have hnext' : next < envs'.length := henvs.length_eq ▸ hnext
              have henv := henvs.get hnext hnext'
              rw [List.getElem?_eq_getElem hnext, List.getElem?_eq_getElem hnext']
              exact .ok (.some henv)
                ⟨hbase.bind (.some henv), .several henvs (next + 1) true, hrun⟩
            · have hend : envs[next]? = none := List.getElem?_eq_none (Nat.le_of_not_lt hnext)
              have hend' : envs'[next]? = none :=
                List.getElem?_eq_none (henvs.length_eq ▸ Nat.le_of_not_lt hnext)
              rw [hend, hend']
              exact .ok .none ⟨hbase.bind .none, .several henvs next true, hrun⟩

theorem destroy_agrees {close : Action (Leaf ρ) Unit} (hclose : close.Agrees L (AgreeOn A Q)) :
    (destroy close).Agrees L (AgreeOn A Q) := by
  intro ctx s s' h w w' hw
  rw [destroy, destroy, h.base.ensureLive]
  split
  · exact .intro _ h hw
  · refine (hclose ctx h hw).imp id fun hclosed => ?_
    dsimp only
    generalize close ctx s w = o, close ctx s' w' = o' at hclosed
    obtain ⟨result, hs, hw⟩ := hclosed
    exact .intro _ ⟨hs.base.destroy, hs.source.shut, hs.run⟩ hw

end Leaf

/-! ## Nodes -/

namespace Node

variable {ρ σ : Type} {m : Machine σ} {R : σ → σ → Prop}

/-- Nodes over inputs that agree, which keep the same for the run. -/
structure AgreeOn (A : Nat → Prop) (R : σ → σ → Prop) (s s' : Node ρ σ) : Prop where
  base : s.base.AgreeOn A s'.base
  input : R s.input s'.input
  run : s'.run = s.run

theorem AgreeOn.refl (hR : ∀ input, R input input) (s : Node ρ σ) : s.AgreeOn A R s :=
  ⟨.refl _, hR _, rfl⟩

/-- An operation on the inputs, which agree. -/
theorem onInput_agrees {α : Type} {op : Action σ α} (hop : op.Agrees L R) :
    (onInput (ρ := ρ) op).Agrees L (AgreeOn A R) := by
  intro ctx s s' h w w' hw
  refine (hop ctx h.input hw).imp id fun hran => ?_
  rw [onInput, onInput]
  generalize op ctx s.input w = o, op ctx s'.input w' = o' at hran
  obtain ⟨result, hs, hw⟩ := hran
  exact .intro _ ⟨h.base, hs, h.run⟩ hw

theorem openBindings_agrees (hm : m.Agrees L A R) :
    (openBindings (ρ := ρ) m).Agrees L (AgreeOn A R) := by
  intro ctx s s' h w w' hw
  rw [openBindings, openBindings, h.base.ensureLive]
  split
  · exact .intro _ h hw
  · exact onInput_agrees hm.openBindings ctx h hw

theorem closeBindings_agrees (hm : m.Agrees L A R) :
    (closeBindings (ρ := ρ) m).Agrees L (AgreeOn A R) := by
  intro ctx s s' h w w' hw
  rw [closeBindings, closeBindings, h.base.ensureLive]
  split
  · exact .intro _ h hw
  · exact onInput_agrees hm.closeBindings ctx h hw

theorem nextBindings_supplied (hm : m.Agrees L A R) (ctx : Context) {s s' : Node ρ σ}
    (h : AgreeOn A R s s') (w w' : World) :
    (nextBindings m ctx s w).Supplied A (AgreeOn A R) w w' (nextBindings m ctx s' w') := by
  rw [nextBindings, nextBindings, h.base.ensureLive]
  split
  · exact .error _ h
  · have hsupplied := hm.nextBindings ctx h.input w w'
    dsimp only [onInput]
    generalize m.nextBindings ctx s.input w = o, m.nextBindings ctx s'.input w' = o' at hsupplied
    cases hsupplied with
    | error e hs => exact .error e ⟨h.base, hs, h.run⟩
    | ok henv hs => exact .ok henv ⟨h.base.bind henv, hs, h.run⟩

theorem openRun_agrees (hm : m.Agrees L A R) (run : ρ → ρ) :
    (openRun m run).Agrees L (AgreeOn A R) := by
  intro ctx s s' h w w' hw
  by_cases hidle : s.base.state = .idle
  · have hactive := h.base.withState .active
    rw [openRun, openRun, CursorBase.beginOpen_eq_ok hidle,
      CursorBase.beginOpen_eq_ok (h.base.state.trans hidle)]
    have hopened := hm.openRun ctx h.input hw
    dsimp only
    generalize m.openRun ctx s.input w = o, m.openRun ctx s'.input w' = o' at hopened
    obtain hlost | ⟨_ | _, hs, hw⟩ := hopened
    · left
      split <;> exact hlost
    · exact .intro _ ⟨hactive.finish, hs, congrArg run h.run⟩ hw
    · exact .intro _ ⟨hactive, hs, congrArg run h.run⟩ hw
  · rw [openRun, openRun, CursorBase.beginOpen_eq_error hidle,
      CursorBase.beginOpen_eq_error fun hs => hidle (h.base.state.symm.trans hs),
      h.base.violation]
    exact .intro _ h hw

theorem closeRun_agrees (hm : m.Agrees L A R) (run : ρ → ρ) :
    (closeRun m run).Agrees L (AgreeOn A R) := by
  intro ctx s s' h w w' hw
  by_cases hlive : s.base.state = .destroyed
  · rw [closeRun, closeRun, CursorBase.beginClose_eq_error hlive,
      CursorBase.beginClose_eq_error (h.base.state.trans hlive), h.base.violation]
    exact .intro _ h hw
  · rw [closeRun, closeRun, CursorBase.beginClose_eq_ok hlive,
      CursorBase.beginClose_eq_ok fun hs => hlive (h.base.state.symm.trans hs)]
    refine (hm.closeRun ctx h.input hw).imp id fun hclosed => ?_
    dsimp only
    generalize m.closeRun ctx s.input w = o, m.closeRun ctx s'.input w' = o' at hclosed
    obtain ⟨result, hs, hw⟩ := hclosed
    exact .intro _ ⟨h.base.withState .idle, hs, congrArg run h.run⟩ hw

theorem destroy_agrees (hm : m.Agrees L A R) {close : Action (Node ρ σ) Unit}
    (hclose : close.Agrees L (AgreeOn A R)) : (destroy m close).Agrees L (AgreeOn A R) := by
  intro ctx s s' h w w' hw
  rw [destroy, destroy, h.base.ensureLive]
  split
  · exact .intro _ h hw
  · dsimp only
    obtain hlost | hclosed := hclose ctx h hw
    · exact .inl ((hm.evolving.destroy ctx _ _).lost hlost)
    · generalize close ctx s w = o, close ctx s' w' = o' at hclosed
      obtain ⟨result, hs, hw⟩ := hclosed
      rename_i s₁ s₁' w₁ w₁'
      refine (hm.destroy ctx hs.input hw).imp id fun hdestroyed => ?_
      dsimp only
      generalize m.destroy ctx s₁.input w₁ = o, m.destroy ctx s₁'.input w₁' = o' at hdestroyed
      obtain ⟨result', hinput, hw⟩ := hdestroyed
      exact .intro _ ⟨hs.base.destroy, hinput, hs.run⟩ hw

end Node
end OrderedQuery
