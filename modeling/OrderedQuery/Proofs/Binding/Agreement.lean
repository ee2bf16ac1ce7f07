import Mathlib.Data.List.Forall2
import OrderedQuery.Binding.Source
import OrderedQuery.Plan.IndexScan
import OrderedQuery.Plan.Projection
import OrderedQuery.Proofs.Query.Locality

/-!
# Environments that agree on some positions

An environment is read position by position.  Two environments that bind the same at some
positions give every expression that reads no others the same value or the same error, however
they are nested.
-/

namespace OrderedQuery

namespace Env

variable {A : Nat → Prop} {env env' : Env}

theorem get?_fork (env : Env) (position : Nat) : env.fork.get? position = env.get? position := by
  simp [get?, fork, List.findSome?_cons]

theorem get?_set (env : Env) (b : Binding) (position other : Nat) :
    (env.set position b).get? other = if other = position then some b else env.get? other := by
  unfold get? set
  by_cases hsame : other = position
  · simp [hsame]
  · have hother : (other == position) = false := beq_false_of_ne hsame
    have hkept := List.lookup_filter_of_pos (p := (· != position)) (a := other)
      (bne_iff_ne.mpr hsame) env.own
    simp [hsame, List.findSome?_cons, List.lookup_cons, hother, hkept]

/-- A fork in which a position is bound differs from its parent at that position alone. -/
theorem get?_set_fork (env : Env) (b : Binding) (position other : Nat) :
    (env.fork.set position b).get? other =
      if other = position then some b else env.get? other := by
  rw [get?_set, get?_fork]

/-- Two environments bind the same at every position of a set. -/
def AgreeOn (A : Nat → Prop) (env env' : Env) : Prop :=
  ∀ position, A position → env'.get? position = env.get? position

theorem AgreeOn.refl (A : Nat → Prop) (env : Env) : env.AgreeOn A env := fun _ _ => rfl

/-- Binding the same at a position makes environments agree there too. -/
theorem AgreeOn.set_fork (h : env.AgreeOn A env') (position : Nat) (b : Binding) :
    AgreeOn (fun other => other = position ∨ A other) (env.fork.set position b)
      (env'.fork.set position b) := by
  intro other hother
  rw [get?_set_fork, get?_set_fork]
  split
  · rfl
  · rename_i hne
    exact h other (hother.resolve_left hne)

theorem AgreeOn.row (h : env.AgreeOn A env') {position : Nat} (hA : A position) :
    env'.row position = env.row position := by
  rw [Env.row, Env.row, h position hA]

theorem AgreeOn.value (h : env.AgreeOn A env') {position : Nat} (hA : A position) :
    env'.value position = env.value position := by
  rw [Env.value, Env.value, h position hA]

end Env

/-- Two sources supply environments that agree. -/
inductive BindingSource.AgreeOn (A : Nat → Prop) : BindingSource → BindingSource → Prop
  | single {env env' : Env} (h : env.AgreeOn A env') (isOpen pending : Bool) :
      AgreeOn A (.single env isOpen pending) (.single env' isOpen pending)
  | several {envs envs' : List Env} (h : List.Forall₂ (Env.AgreeOn A) envs envs') (next : Nat)
      (isOpen : Bool) : AgreeOn A (.several envs next isOpen) (.several envs' next isOpen)

variable {A : Nat → Prop} {env env' : Env}

/-! ## Expressions -/

/-- An expression has the same value in environments that agree on the positions it reads. -/
theorem Expr.eval_congr (row : Option Row) (h : env.AgreeOn A env') (e : Expr)
    (hreads : ∀ position ∈ e.reads, A position) : e.eval row env' = e.eval row env := by
  induction e with
  | field i => rfl
  | bound position type =>
      rw [eval, eval, h.value (hreads position List.mem_cons_self)]
  | boundField position i type =>
      rw [eval, eval, h.row (hreads position List.mem_cons_self)]
  | literal v => rfl
  | null type => rfl
  | compare op l r ihl ihr =>
      rw [eval, eval, ihl fun p hp => hreads p (List.mem_append_left _ hp),
        ihr fun p hp => hreads p (List.mem_append_right _ hp)]
  | and l r ihl ihr =>
      rw [eval, eval, ihl fun p hp => hreads p (List.mem_append_left _ hp),
        ihr fun p hp => hreads p (List.mem_append_right _ hp)]
  | or l r ihl ihr =>
      rw [eval, eval, ihl fun p hp => hreads p (List.mem_append_left _ hp),
        ihr fun p hp => hreads p (List.mem_append_right _ hp)]
  | not e ih => rw [eval, eval, ih hreads]
  | isNull e ih => rw [eval, eval, ih hreads]
  | arith op l r ihl ihr =>
      rw [eval, eval, ihl fun p hp => hreads p (List.mem_append_left _ hp),
        ihr fun p hp => hreads p (List.mem_append_right _ hp)]

theorem Projection.evalOn_congr (row : Row) (h : env.AgreeOn A env') (es : List Expr)
    (hreads : ∀ position ∈ es.flatMap Expr.reads, A position) :
    evalOn row env' es = evalOn row env es := by
  induction es with
  | nil => rfl
  | cons e es ih =>
      rw [List.flatMap_cons] at hreads
      rw [evalOn, evalOn, e.eval_congr _ h fun p hp => hreads p (List.mem_append_left _ hp),
        ih fun p hp => hreads p (List.mem_append_right _ hp)]

theorem Projection.apply_congr (p : Projection) (h : env.AgreeOn A env') (row : Row)
    (hreads : ∀ position ∈ p.exprs.flatMap Expr.reads, A position) :
    p.apply env' row = p.apply env row := by
  rw [apply, apply, evalOn_congr row h p.exprs hreads]

namespace IndexScan

theorem evalAll_congr (h : env.AgreeOn A env') (es : List Expr)
    (hreads : ∀ position ∈ es.flatMap Expr.reads, A position) :
    evalAll env' es = evalAll env es := by
  induction es with
  | nil => rfl
  | cons e es ih =>
      rw [List.flatMap_cons] at hreads
      rw [evalAll, evalAll, e.eval_congr _ h fun p hp => hreads p (List.mem_append_left _ hp),
        ih fun p hp => hreads p (List.mem_append_right _ hp)]

theorem encodeBound_congr (s : IndexScan) (h : env.AgreeOn A env') (b : Option ScanBound)
    (hreads : ∀ b' ∈ b, ∀ position ∈ b'.values.flatMap Expr.reads, A position) :
    s.encodeBound env' b = s.encodeBound env b := by
  cases b with
  | none => rfl
  | some b => rw [encodeBound, encodeBound, evalAll_congr h b.values (hreads b rfl)]

/-- A scan reads the same keys in environments that agree on the positions its bounds read. -/
theorem keyRange_congr (s : IndexScan) (h : env.AgreeOn A env')
    (hreads : ∀ position ∈ s.range.exprs.flatMap Expr.reads, A position) :
    s.keyRange env' = s.keyRange env := by
  have hbound (b : ScanBound) (hb : b ∈ s.range.bounds) :
      ∀ position ∈ b.values.flatMap Expr.reads, A position := by
    intro position hposition
    obtain ⟨e, he, hread⟩ := List.mem_flatMap.mp hposition
    exact hreads position (List.mem_flatMap_of_mem (List.mem_flatMap_of_mem hb he) hread)
  have hlow : ∀ b ∈ s.range.low, ∀ position ∈ b.values.flatMap Expr.reads, A position :=
    fun b hb => hbound b (List.mem_append_left _ (Option.mem_toList.mpr hb))
  have hhigh : ∀ b ∈ s.range.high, ∀ position ∈ b.values.flatMap Expr.reads, A position :=
    fun b hb => hbound b (List.mem_append_right _ (Option.mem_toList.mpr hb))
  rw [keyRange, keyRange, encodeBound_congr s h _ hlow, encodeBound_congr s h _ hhigh]

end IndexScan
end OrderedQuery
