import Mathlib.Logic.Relation
import OrderedQuery.Proofs.Query.Accounts

/-!
# What can become of a world

Whatever a cursor, a worker or the reader of a run does, it touches the world by a few actions
only: it lets the moment of a poll pass, makes or cancels a token, derives a session, begins or
ends a transaction, starts a thread, counts something, or uses up a choice.  `World.Change` lists
these actions, and a world evolves into another one by any number of them.  So what every action
preserves is preserved by whole runs, whatever state they start from and however they end.
-/

namespace OrderedQuery

/-- One action on a world. -/
inductive World.Change (w : World) : World → Prop where
  | poll : Change w { w with signals := w.signals.tick }
  | newChild (t : Token) : Change w { w with signals := (w.signals.newChild t).2 }
  | cancel (t : Token) : Change w { w with signals := w.signals.cancel t }
  | derive : Change w { w with engine := w.engine.derive.2 }
  | count (stats : Stats) : Change w { w with stats }
  | draw : Change w w.draw.2
  | refuse : Change w w.refuses.2
  | spawn : Change w w.spawn.2
  | begin {s : SessionId} {mode : Mode} {engine : Engine} (h : w.engine.begin s mode = .ok engine) :
      Change w { w with engine }
  | commit {s : SessionId} {engine : Engine} (h : w.engine.commit s = .ok engine) :
      Change w { w with engine }
  | rollback (s : SessionId) : Change w { w with engine := w.engine.rollback s }

/-- Any number of actions lead from one world to another. -/
abbrev World.Evolves : World → World → Prop :=
  Relation.ReflTransGen World.Change

namespace World

variable {w w' : World}

/-! ## What operations do -/

theorem evolves_check (w : World) (ctx : Context) : w.Evolves (w.check ctx).2 :=
  .single .poll

theorem evolves_newChild (w : World) (t : Token) :
    w.Evolves { w with signals := (w.signals.newChild t).2 } :=
  .single (.newChild t)

theorem evolves_cancel (w : World) (t : Token) :
    w.Evolves { w with signals := w.signals.cancel t } :=
  .single (.cancel t)

theorem evolves_deriveContext (w : World) (ctx : Context) (t : Token) :
    w.Evolves (w.deriveContext ctx t).2 := by
  have hchecked := w.evolves_check ctx
  unfold deriveContext
  generalize w.check ctx = x at hchecked
  obtain ⟨_ | _, w₁⟩ := x
  · exact hchecked
  · exact hchecked.tail .derive

theorem evolves_hire (w : World) (ctx : Context) (t : Token) (number : Nat) :
    w.Evolves (w.hire ctx t number).2 := by
  have hderived := w.evolves_deriveContext ctx t
  unfold hire
  generalize w.deriveContext ctx t = x at hderived
  obtain ⟨_ | _, w₁⟩ := x
  · exact hderived
  · have hspawned : w.Evolves w₁.spawn.2 := hderived.tail .spawn
    dsimp only
    generalize w₁.spawn = x at hspawned
    obtain ⟨_ | _, w₂⟩ := x
    · exact hspawned
    · exact hspawned

theorem evolves_recordRead (w : World) (n : Nat) : w.Evolves (w.recordRead n) :=
  .single (.count _)

theorem evolves_recordStarted (w : World) : w.Evolves w.recordStarted :=
  .single (.count _)

theorem evolves_recordFinished (w : World) : w.Evolves w.recordFinished :=
  .single (.count _)

theorem evolves_draw (w : World) : w.Evolves w.draw.2 :=
  .single .draw

theorem evolves_rollback (w : World) (ctx : Context) : w.Evolves (w.rollback ctx) :=
  .single (.rollback ctx.session)

theorem evolves_beginWork (w : World) (ctx : Context) : w.Evolves (w.beginWork ctx).2 := by
  have hrefuses : w.Evolves w.refuses.2 := .single .refuse
  unfold beginWork
  generalize w.refuses = x at hrefuses
  obtain ⟨refused, w₁⟩ := x
  dsimp only at hrefuses ⊢
  split
  · exact hrefuses
  · split
    · rename_i hbegun
      exact hrefuses.tail (.begin hbegun)
    · exact hrefuses

theorem evolves_commitWork (w : World) (ctx : Context) : w.Evolves (w.commitWork ctx).2 := by
  have hrefuses : w.Evolves w.refuses.2 := .single .refuse
  unfold commitWork
  generalize w.refuses = x at hrefuses
  obtain ⟨refused, w₁⟩ := x
  dsimp only at hrefuses ⊢
  split
  · exact hrefuses.tail (.rollback ctx.session)
  · split
    · rename_i hcommitted
      exact hrefuses.tail (.commit hcommitted)
    · exact hrefuses

/-- A relation between worlds that holds when time has passed and something has been counted, and
that goes on holding when it holds again. -/
class Lapse (E : World → World → Prop) : Prop where
  refl : ∀ w, E w w
  trans : ∀ {w w' w'' : World}, E w w' → E w' w'' → E w w''
  check : ∀ w ctx, E w (w.check ctx).2
  recordRead : ∀ w n, E w (w.recordRead n)

instance : Lapse Evolves := ⟨fun _ => .refl, .trans, evolves_check, evolves_recordRead⟩

instance : Lapse Passes := ⟨.refl, .trans, passes_check, passes_recordRead⟩

/-! ## What every action preserves -/

/-- Flags stay raised. -/
theorem Change.raised (h : w.Change w') : ∀ f ∈ w.signals.raised, f ∈ w'.signals.raised := by
  intro f hf
  cases h with
  | poll => exact Signals.raised_tick hf
  | cancel t => exact Signals.raised_cancel t hf
  | draw => exact w.passes_draw.raised f hf
  | refuse => exact w.passes_refuses.raised f hf
  | spawn => exact w.passes_spawn.raised f hf
  | _ => exact hf

theorem Evolves.raised (h : w.Evolves w') : ∀ f ∈ w.signals.raised, f ∈ w'.signals.raised := by
  induction h with
  | refl => exact fun _ hf => hf
  | tail _ hchange ih => exact fun f hf => hchange.raised f (ih f hf)

/-- An engine that refuses no transaction goes on to refuse none. -/
theorem Evolves.refusals (h : w.Evolves w') (hw : w.refusals = []) : w'.refusals = [] := by
  induction h with
  | refl => exact hw
  | @tail w₁ w₂ _ hchange ih =>
      cases hchange with
      | draw =>
          unfold draw
          split <;> exact ih
      | refuse =>
          unfold refuses
          rw [ih]
          exact ih
      | spawn =>
          unfold World.spawn
          split <;> exact ih
      | _ => exact ih

/-- What the system is going to report about threads was settled before. -/
theorem Change.spawns (h : w.Change w') : w'.spawns <:+ w.spawns := by
  cases h with
  | draw =>
      unfold World.draw
      split <;> exact List.suffix_rfl
  | refuse =>
      unfold World.refuses
      split <;> exact List.suffix_rfl
  | spawn =>
      unfold World.spawn
      split
      · exact List.suffix_rfl
      · rename_i report spawns heq
        rw [heq]
        exact List.suffix_cons report spawns
  | _ => exact List.suffix_rfl

theorem Evolves.spawns (h : w.Evolves w') : w'.spawns <:+ w.spawns := by
  induction h with
  | refl => exact List.suffix_rfl
  | tail _ hchange ih => exact hchange.spawns.trans ih

/-- A cancelled token stays cancelled. -/
theorem Evolves.isCancelled (h : w.Evolves w') {t : Token}
    (ht : w.signals.isCancelled t = true) : w'.signals.isCancelled t = true :=
  Signals.isCancelled_mono h.raised ht

end World
end OrderedQuery
