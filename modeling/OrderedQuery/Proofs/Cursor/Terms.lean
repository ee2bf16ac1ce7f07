import OrderedQuery.Proofs.Cursor.Evolution
import OrderedQuery.Proofs.Cursor.Protocol
import OrderedQuery.Proofs.Plan.Failures

/-!
# The terms on which cursors work

Cursors are called in worlds of a certain kind, are supplied with environments of a certain kind,
and return rows and errors of certain kinds.  `Machine.Upholds` says that a condition on the states
of a cursor is kept by every call, in any order, and that what the calls return is of the right
kind.  Each operator upholds its terms if its input does and if what it computes itself is right:
the operations of its plan on environments and rows.
-/

namespace OrderedQuery

/-- A parallel map refuses to let its workers write. -/
def PlanFault.RefusesWriting : PlanFault → Prop
  | severalWriters _ | writerInsideTransaction => True
  | _ => False

/-- The error comes from how a query is run, and not from its plan, its rows or its bindings. -/
def QueryError.Operational : QueryError → Prop
  | cancelled | protocol .. | resourceLimit .. | worker .. | store _ | aborted | stalled => True
  | plan fault => fault.RefusesWriting
  | _ => False

/-- In which worlds cursors are called, with which errors calls may fail, and in which contexts the
workers of a parallel map run that is called in a given one. -/
structure Terms where
  World : World → Prop
  world_evolves {w w' : OrderedQuery.World} : w.Evolves w' → World w → World w'
  Error : QueryError → Prop
  error_operational {e : QueryError} : e.Operational → Error e
  Employs : Context → Context → Prop
  employs (ctx : Context) (session : SessionId) (flag : Nat) :
    Employs ctx ⟨ctx.config, session, ⟨flag :: ctx.token.flags⟩⟩

/-- The state and the world that an operation leaves behind are right, and so is what it
returns. -/
inductive Outcome.Keeps {σ α : Type} (T : Terms) (I : σ → Prop) (V : α → Prop) :
    Outcome σ α → Prop
  | intro {result : Except QueryError α} {s : σ} {w : World} (hs : I s)
      (hresult : Yields T.Error V result) (hw : T.World w) : Keeps T I V ⟨result, s, w⟩

/-- All environments of a source are of a kind. -/
def BindingSource.Supplies (S : Env → Prop) : BindingSource → Prop
  | single env _ _ => S env
  | several envs _ _ => ∀ env ∈ envs, S env

/-- Every call of a cursor keeps `I`, and its rows are of the kind `V` if all environments it is
supplied with are of the kind `S`. -/
structure Machine.Upholds {σ : Type} (m : Machine σ) (T : Terms) (S : Env → Prop)
    (V : Row → Prop) (I : Context → σ → Prop) : Prop where
  evolving : m.Evolving
  fresh : ∀ ctx {source : BindingSource}, source.Supplies S → I ctx (m.fresh source)
  openRun : ∀ ctx {s w}, I ctx s → T.World w →
    (m.openRun ctx s w).Keeps T (I ctx) fun _ => True
  next : ∀ ctx {s w}, I ctx s → T.World w →
    (m.next ctx s w).Keeps T (I ctx) fun row => ∀ r ∈ row, V r
  closeRun : ∀ ctx {s w}, I ctx s → T.World w →
    (m.closeRun ctx s w).Keeps T (I ctx) fun _ => True
  destroy : ∀ ctx {s w}, I ctx s → T.World w →
    (m.destroy ctx s w).Keeps T (I ctx) fun _ => True
  openBindings : ∀ ctx {s w}, I ctx s → T.World w →
    (m.openBindings ctx s w).Keeps T (I ctx) fun _ => True
  nextBindings : ∀ ctx {s w}, I ctx s → T.World w →
    (m.nextBindings ctx s w).Keeps T (I ctx) fun env => ∀ e ∈ env, S e
  closeBindings : ∀ ctx {s w}, I ctx s → T.World w →
    (m.closeBindings ctx s w).Keeps T (I ctx) fun _ => True

/-- A row that is returned is of a kind. -/
def Reply.Kept (V : Row → Prop) : Reply → Prop
  | row returned => ∀ r ∈ returned, V r
  | _ => True

variable {T : Terms} {S : Env → Prop} {V : Row → Prop}

namespace Outcome.Keeps

variable {σ α : Type} {I : σ → Prop} {U : α → Prop} {e : QueryError} {s : σ} {w : World}

theorem state {o : Outcome σ α} (h : o.Keeps T I U) : I o.state := by
  obtain ⟨hs, -, -⟩ := h
  exact hs

theorem map {β : Type} {U' : β → Prop} {f : α → β} {o : Outcome σ α} (h : o.Keeps T I U)
    (hf : ∀ a, U a → U' (f a)) : (o.map f).Keeps T I U' := by
  obtain ⟨hs, hresult, hw⟩ := h
  exact .intro hs (hresult.map hf) hw

theorem result {o : Outcome σ α} (h : o.Keeps T I U) : Yields T.Error U o.result := by
  obtain ⟨-, hresult, -⟩ := h
  exact hresult

theorem error (hs : I s) (he : T.Error e) (hw : T.World w) :
    Keeps T I U ⟨.error e, s, w⟩ := .intro hs (.error he) hw

theorem ok {a : α} (hs : I s) (ha : U a) (hw : T.World w) : Keeps T I U ⟨.ok a, s, w⟩ :=
  .intro hs (.ok ha) hw

theorem done {I : σ → Prop} (hs : I s) (hw : T.World w) :
    Keeps T I (fun row : Option Row => ∀ r ∈ row, V r) ⟨.ok none, s, w⟩ :=
  .ok hs nofun hw

theorem row {I : σ → Prop} {row : Row} (hs : I s) (hrow : V row) (hw : T.World w) :
    Keeps T I (fun row : Option Row => ∀ r ∈ row, V r) ⟨.ok (some row), s, w⟩ := by
  refine .ok hs ?_ hw
  rintro _ ⟨⟩
  exact hrow

end Outcome.Keeps

/-! ## What every cursor keeps about itself -/

namespace CursorBase

/-- The current environment is of a kind. -/
def Kept (S : Env → Prop) (b : CursorBase) : Prop := ∀ env ∈ b.env, S env

variable {b : CursorBase}

theorem kept_start (name : String) : Kept S (start name) := nofun

theorem kept_destroy (b : CursorBase) : b.destroy.Kept S := nofun

theorem Kept.finish (h : b.Kept S) : b.finish.Kept S := by
  rw [CursorBase.finish]
  split <;> exact h

theorem Kept.hand {α : Type} (h : b.Kept S) (row : Option α) : (b.hand row).Kept S := by
  cases row with
  | none => exact h.finish
  | some _ => exact h

theorem Kept.beginOpen (h : b.Kept S) : Yields T.Error (Kept S) b.beginOpen := by
  rw [CursorBase.beginOpen]
  split
  · exact .ok h
  · exact .error (T.error_operational trivial)

theorem Kept.beginClose (h : b.Kept S) : Yields T.Error (Kept S) b.beginClose := by
  rw [CursorBase.beginClose]
  split
  · exact .error (T.error_operational trivial)
  · exact .ok h

theorem checkNext_yields (T : Terms) (b : CursorBase) :
    Yields T.Error (fun _ => True) b.checkNext := by
  rw [checkNext]
  split
  · exact .ok trivial
  · exact .error (T.error_operational trivial)

theorem ensureLive_yields (T : Terms) (b : CursorBase) (action : String) :
    Yields T.Error (fun _ => True) (b.ensureLive action) := by
  rw [ensureLive]
  split
  · exact .error (T.error_operational trivial)
  · exact .ok trivial

theorem Kept.currentEnv (h : b.Kept S) : Yields T.Error S b.currentEnv := by
  rw [CursorBase.currentEnv]
  split
  · rename_i env henv
    exact .ok (h env henv)
  · exact .error (T.error_operational trivial)

end CursorBase

namespace BindingSource

variable {source : BindingSource}

theorem Supplies.openUp (h : source.Supplies S) : source.openUp.Supplies S := by
  cases source <;> exact h

theorem Supplies.shut (h : source.Supplies S) : source.shut.Supplies S := by
  cases source <;> exact h

theorem Supplies.take (h : source.Supplies S) :
    source.take.2.Supplies S ∧
      Yields T.Error (fun env => ∀ e ∈ env, S e) source.take.1 := by
  match source with
  | single env false pending => exact ⟨h, .error (T.error_operational trivial)⟩
  | single env true false => exact ⟨h, .ok nofun⟩
  | single env true true =>
      refine ⟨h, .ok ?_⟩
      rintro _ ⟨⟩
      exact h
  | several envs next false => exact ⟨h, .error (T.error_operational trivial)⟩
  | several envs next true =>
      rw [BindingSource.take]
      split
      · rename_i env henv
        refine ⟨h, .ok ?_⟩
        rintro _ ⟨⟩
        exact h env (List.mem_of_getElem? henv)
      · exact ⟨h, .ok nofun⟩

end BindingSource

theorem World.check_yields (T : Terms) {w : World} (hw : T.World w) (ctx : Context) :
    Yields T.Error (fun _ => True) (w.check ctx).1 ∧ T.World (w.check ctx).2 := by
  refine ⟨?_, T.world_evolves (w.evolves_check ctx) hw⟩
  rw [World.check]
  dsimp only
  split
  · exact .error (T.error_operational trivial)
  · exact .ok trivial

/-! ## Driving a cursor -/

namespace Machine.Upholds

variable {σ : Type} {m : Machine σ} {I : Context → σ → Prop}

/-- Any call of a cursor keeps its terms. -/
theorem call (hm : m.Upholds T S V I) (c : Call) (ctx : Context) {s : σ} {w : World}
    (hs : I ctx s) (hw : T.World w) : (m.call c ctx s w).Keeps T (I ctx) (Reply.Kept V) := by
  cases c with
  | openRun => exact (hm.openRun ctx hs hw).map fun _ _ => trivial
  | next => exact (hm.next ctx hs hw).map fun _ hrow => hrow
  | closeRun => exact (hm.closeRun ctx hs hw).map fun _ _ => trivial
  | destroy => exact (hm.destroy ctx hs hw).map fun _ _ => trivial
  | openBindings => exact (hm.openBindings ctx hs hw).map fun _ _ => trivial
  | nextBindings => exact (hm.nextBindings ctx hs hw).map fun _ _ => trivial
  | closeBindings => exact (hm.closeBindings ctx hs hw).map fun _ _ => trivial

/-- What is kept may be put in other words. -/
theorem congr {J : Context → σ → Prop} (hm : m.Upholds T S V I)
    (hIJ : ∀ ctx s, I ctx s ↔ J ctx s) : m.Upholds T S V J := by
  obtain rfl : I = J := funext fun ctx => funext fun s => propext (hIJ ctx s)
  exact hm

theorem openTop (hm : m.Upholds T S V I) (ctx : Context) {s : σ} {w : World} (hs : I ctx s)
    (hw : T.World w) : (m.openTop ctx s w).Keeps T (I ctx) fun _ => True := by
  have hopened := hm.openBindings ctx hs hw
  rw [Machine.openTop]
  generalize m.openBindings ctx s w = o at hopened
  obtain ⟨hs, he | _, hw⟩ := hopened
  · exact .error hs he hw
  · rename_i s w _ _
    have hnext := hm.nextBindings ctx hs hw
    dsimp only
    generalize m.nextBindings ctx s w = o at hnext
    obtain ⟨hs, he | henv, hw⟩ := hnext
    · exact .error hs he hw
    · rename_i s w env
      cases env with
      | none => exact .ok hs trivial hw
      | some env =>
          have hran := hm.openRun ctx hs hw
          dsimp only
          generalize m.openRun ctx s w = o at hran
          obtain ⟨hs, hresult, hw⟩ := hran
          exact .intro hs (hresult.map fun _ _ => trivial) hw

theorem closeTop (hm : m.Upholds T S V I) (ctx : Context) {s : σ} {w : World} (hs : I ctx s)
    (hw : T.World w) : (m.closeTop ctx s w).Keeps T (I ctx) fun _ => True := by
  have hclosed := hm.closeRun ctx hs hw
  rw [Machine.closeTop]
  generalize m.closeRun ctx s w = o at hclosed
  obtain ⟨hs, hresult, hw⟩ := hclosed
  rename_i s w
  have hunbound := hm.closeBindings ctx hs hw
  dsimp only
  generalize m.closeBindings ctx s w = o at hunbound
  obtain ⟨hs, hresult', hw⟩ := hunbound
  exact .intro hs (hresult.firstError hresult') hw

end Machine.Upholds

/-! ## Leaves -/

namespace Leaf

variable {ρ : Type} {Q : ρ → Prop} {s : Leaf ρ} {w : World}

/-- A leaf that is supplied with environments of a kind, and keeps the right things for a run. -/
structure Kept (S : Env → Prop) (Q : ρ → Prop) (s : Leaf ρ) : Prop where
  base : s.base.Kept S
  source : s.source.Supplies S
  run : Q s.run

theorem openBindings_kept (ctx : Context) (hs : Kept S Q s) (hw : T.World w) :
    (openBindings ctx s w).Keeps T (Kept S Q) fun _ => True := by
  have hlive := s.base.ensureLive_yields T "open bindings"
  rw [openBindings]
  generalize s.base.ensureLive "open bindings" = x at hlive
  obtain he | _ := hlive
  · exact .error hs he hw
  · exact .ok ⟨hs.base, hs.source.openUp, hs.run⟩ trivial hw

theorem nextBindings_kept (ctx : Context) (hs : Kept S Q s) (hw : T.World w) :
    (nextBindings ctx s w).Keeps T (Kept S Q) fun env => ∀ e ∈ env, S e := by
  have hlive := s.base.ensureLive_yields T "next bindings"
  rw [nextBindings]
  generalize s.base.ensureLive "next bindings" = x at hlive
  obtain he | _ := hlive
  · exact .error hs he hw
  · have htaken := hs.source.take (T := T)
    dsimp only
    generalize s.source.take = x at htaken
    obtain ⟨env, source⟩ := x
    obtain ⟨hsource, he | henv⟩ := htaken
    · exact .error ⟨hs.base, hsource, hs.run⟩ he hw
    · exact .ok ⟨henv, hsource, hs.run⟩ henv hw

theorem closeBindings_kept (ctx : Context) (hs : Kept S Q s) (hw : T.World w) :
    (closeBindings ctx s w).Keeps T (Kept S Q) fun _ => True := by
  have hlive := s.base.ensureLive_yields T "close bindings"
  rw [closeBindings]
  generalize s.base.ensureLive "close bindings" = x at hlive
  obtain he | _ := hlive
  · exact .error hs he hw
  · exact .ok ⟨hs.base, hs.source.shut, hs.run⟩ trivial hw

theorem destroy_kept {close : Action (Leaf ρ) Unit} (ctx : Context)
    (hclose : (close ctx s w).Keeps T (Kept S Q) fun _ => True) (hs : Kept S Q s)
    (hw : T.World w) : (destroy close ctx s w).Keeps T (Kept S Q) fun _ => True := by
  have hlive := s.base.ensureLive_yields T "destroy"
  rw [destroy]
  generalize s.base.ensureLive "destroy" = x at hlive
  obtain he | _ := hlive
  · exact .error hs he hw
  · dsimp only
    generalize close ctx s w = o at hclose
    obtain ⟨hs, hresult, hw⟩ := hclose
    exact .intro ⟨CursorBase.kept_destroy _, hs.source.shut, hs.run⟩ hresult hw

end Leaf

/-! ## Nodes -/

namespace Node

variable {ρ σ : Type} {m : Machine σ} {I : Context → σ → Prop} {J : σ → Prop} {Q : ρ → Prop}
  {s : Node ρ σ} {ctx : Context} {w : World}

/-- A node over an input that keeps its terms. -/
structure Kept (S : Env → Prop) (J : σ → Prop) (Q : ρ → Prop) (s : Node ρ σ) : Prop where
  base : s.base.Kept S
  input : J s.input
  run : Q s.run

theorem onInput_kept {α : Type} {op : Action σ α} {U : α → Prop}
    (hop : (op ctx s.input w).Keeps T J U) (hs : Kept S J Q s) :
    (onInput op ctx s w).Keeps T (Kept S J Q) U := by
  rw [onInput]
  generalize op ctx s.input w = o at hop
  obtain ⟨hinput, hresult, hw⟩ := hop
  exact .intro ⟨hs.base, hinput, hs.run⟩ hresult hw

theorem openBindings_kept (hm : m.Upholds T S V I) (hs : Kept S (I ctx) Q s) (hw : T.World w) :
    (openBindings m ctx s w).Keeps T (Kept S (I ctx) Q) fun _ => True := by
  have hlive := s.base.ensureLive_yields T "open bindings"
  rw [openBindings]
  generalize s.base.ensureLive "open bindings" = x at hlive
  obtain he | _ := hlive
  · exact .error hs he hw
  · exact onInput_kept (hm.openBindings ctx hs.input hw) hs

theorem nextBindings_kept (hm : m.Upholds T S V I) (hs : Kept S (I ctx) Q s) (hw : T.World w) :
    (nextBindings m ctx s w).Keeps T (Kept S (I ctx) Q) fun env => ∀ e ∈ env, S e := by
  have hlive := s.base.ensureLive_yields T "next bindings"
  rw [nextBindings]
  generalize s.base.ensureLive "next bindings" = x at hlive
  obtain he | _ := hlive
  · exact .error hs he hw
  · have hnext := onInput_kept (hm.nextBindings ctx hs.input hw) hs
    dsimp only
    generalize onInput m.nextBindings ctx s w = o at hnext
    obtain ⟨hs, he | henv, hw⟩ := hnext
    · exact .error hs he hw
    · exact .ok ⟨henv, hs.input, hs.run⟩ henv hw

theorem closeBindings_kept (hm : m.Upholds T S V I) (hs : Kept S (I ctx) Q s) (hw : T.World w) :
    (closeBindings m ctx s w).Keeps T (Kept S (I ctx) Q) fun _ => True := by
  have hlive := s.base.ensureLive_yields T "close bindings"
  rw [closeBindings]
  generalize s.base.ensureLive "close bindings" = x at hlive
  obtain he | _ := hlive
  · exact .error hs he hw
  · exact onInput_kept (hm.closeBindings ctx hs.input hw) hs

theorem openRun_kept (hm : m.Upholds T S V I) {run : ρ → ρ} (hrun : ∀ r, Q r → Q (run r))
    (hs : Kept S (I ctx) Q s) (hw : T.World w) :
    (openRun m run ctx s w).Keeps T (Kept S (I ctx) Q) fun _ => True := by
  have hbegun := hs.base.beginOpen (T := T)
  rw [openRun]
  generalize s.base.beginOpen = x at hbegun
  obtain he | hbase := hbegun
  · exact .error hs he hw
  · have hopened := hm.openRun ctx hs.input hw
    dsimp only
    generalize m.openRun ctx s.input w = o at hopened
    obtain ⟨hinput, he | _, hw⟩ := hopened
    · exact .error ⟨hbase.finish, hinput, hrun _ hs.run⟩ he hw
    · exact .ok ⟨hbase, hinput, hrun _ hs.run⟩ trivial hw

theorem closeRun_kept (hm : m.Upholds T S V I) {run : ρ → ρ} (hrun : ∀ r, Q r → Q (run r))
    (hs : Kept S (I ctx) Q s) (hw : T.World w) :
    (closeRun m run ctx s w).Keeps T (Kept S (I ctx) Q) fun _ => True := by
  have hbegun := hs.base.beginClose (T := T)
  rw [closeRun]
  generalize s.base.beginClose = x at hbegun
  obtain he | hbase := hbegun
  · exact .error hs he hw
  · have hclosed := hm.closeRun ctx hs.input hw
    dsimp only
    generalize m.closeRun ctx s.input w = o at hclosed
    obtain ⟨hinput, hresult, hw⟩ := hclosed
    exact .intro ⟨hbase, hinput, hrun _ hs.run⟩ hresult hw

theorem destroy_kept (hm : m.Upholds T S V I) {close : Action (Node ρ σ) Unit}
    (hclose : (close ctx s w).Keeps T (Kept S (I ctx) Q) fun _ => True)
    (hs : Kept S (I ctx) Q s) (hw : T.World w) :
    (destroy m close ctx s w).Keeps T (Kept S (I ctx) Q) fun _ => True := by
  have hlive := s.base.ensureLive_yields T "destroy"
  rw [destroy]
  generalize s.base.ensureLive "destroy" = x at hlive
  obtain he | _ := hlive
  · exact .error hs he hw
  · dsimp only
    generalize close ctx s w = o at hclose
    obtain ⟨hs, hresult, hw⟩ := hclose
    rename_i s w
    have hdestroyed := hm.destroy ctx hs.input hw
    dsimp only
    generalize m.destroy ctx s.input w = o at hdestroyed
    obtain ⟨hinput, hresult', hw⟩ := hdestroyed
    exact .intro ⟨CursorBase.kept_destroy _, hinput, hs.run⟩ (hresult.firstError hresult') hw

end Node
end OrderedQuery
