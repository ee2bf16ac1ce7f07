import OrderedQuery.Proofs.Query.Evolution

/-!
# What all stores of an engine have in common

A session reads the committed store or the store of its transaction.  Cursors write nothing: they
begin transactions, which start from the committed store, and commit or abandon them.  So what holds
of every store of an engine goes on to hold of every store, whatever cursors and workers do.
-/

namespace OrderedQuery
namespace Engine

/-- A condition holds of the committed store and of the store of every open transaction. -/
structure Everywhere (P : Store → Prop) (e : Engine) : Prop where
  committed : P e.committed
  active : ∀ x ∈ e.active, P x.2.store

variable {P : Store → Prop} {e e' : Engine} {s : SessionId}

theorem Everywhere.transaction (h : e.Everywhere P) {t : Transaction}
    (ht : e.transaction? s = some t) : P t.store := by
  obtain ⟨l₁, l₂, hactive, -⟩ := List.lookup_eq_some_iff.mp ht
  refine h.active (s, t) ?_
  rw [hactive]
  exact List.mem_append_right l₁ List.mem_cons_self

/-- The condition holds of what any session reads. -/
theorem Everywhere.view (h : e.Everywhere P) (s : SessionId) : P (e.view s) := by
  rw [Engine.view]
  cases ht : e.transaction? s with
  | none => exact h.committed
  | some t => exact h.transaction ht

theorem Everywhere.release (h : e.Everywhere P) (s : SessionId) : (e.release s).Everywhere P :=
  ⟨h.committed, fun x hx => h.active x (List.mem_of_mem_filter hx)⟩

theorem Everywhere.begin (h : e.Everywhere P) {mode : Mode} (hbegun : e.begin s mode = .ok e') :
    e'.Everywhere P := by
  rw [Engine.begin] at hbegun
  split at hbegun
  · cases hbegun
  · obtain rfl := Except.ok.inj hbegun
    refine ⟨h.committed, fun x hx => ?_⟩
    rcases List.mem_append.mp hx with hx | hx
    · exact h.active x hx
    · rw [List.mem_singleton.mp hx]
      exact h.committed

theorem Everywhere.commit (h : e.Everywhere P) (hcommitted : e.commit s = .ok e') :
    e'.Everywhere P := by
  rw [Engine.commit] at hcommitted
  split at hcommitted
  · cases hcommitted
  · rename_i t ht
    dsimp only at hcommitted
    split at hcommitted
    · obtain rfl := Except.ok.inj hcommitted
      exact h.release s
    · obtain rfl := Except.ok.inj hcommitted
      exact ⟨h.transaction ht, (h.release s).active⟩

end Engine

namespace World

variable {P : Store → Prop} {w w' : World}

theorem Change.everywhere (hchange : w.Change w') (h : w.engine.Everywhere P) :
    w'.engine.Everywhere P := by
  cases hchange with
  | begin hbegun => exact h.begin hbegun
  | commit hcommitted => exact h.commit hcommitted
  | rollback s => exact h.release s
  | derive => exact ⟨h.committed, h.active⟩
  | draw =>
      rw [World.draw]
      split <;> exact h
  | refuse =>
      rw [World.refuses]
      split <;> exact h
  | spawn =>
      rw [World.spawn]
      split <;> exact h
  | _ => exact h

theorem Evolves.everywhere (hevolves : w.Evolves w') (h : w.engine.Everywhere P) :
    w'.engine.Everywhere P := by
  induction hevolves with
  | refl => exact h
  | tail _ hchange ih => exact hchange.everywhere ih

end World
end OrderedQuery
