import OrderedQuery.Plan.Execute
import OrderedQuery.Proofs.Cursor.Twins
import OrderedQuery.Proofs.Plan.Agreement

/-!
# The positions a plan reads

`Plan.boundPositions` tells all that a plan reads from its caller: executing it in two
environments that agree there has the same result and leaves the same world behind, for every
schedule of its workers, whatever else the environments bind and however they are nested.  What
the caller binds at the position of a parallel map is hidden by the map.
-/

namespace OrderedQuery

theorem mem_insertAscending {n m : Nat} {l : List Nat} :
    m ∈ insertAscending n l ↔ m = n ∨ m ∈ l := by
  induction l with
  | nil => simp [insertAscending]
  | cons k l ih =>
      rw [insertAscending]
      split
      · simp
      · split
        · rename_i hsame
          simp [hsame]
        · rw [List.mem_cons, ih, List.mem_cons]
          tauto

theorem mem_ascendingSet {n : Nat} {l : List Nat} : n ∈ ascendingSet l ↔ n ∈ l := by
  induction l with
  | nil => rfl
  | cons k l ih =>
      show n ∈ insertAscending k (ascendingSet l) ↔ n ∈ k :: l
      rw [mem_insertAscending, ih, List.mem_cons]

/-- The position of a parallel map is not among those the map reads. -/
theorem Plan.position_not_mem_boundPositions (input : Plan) (m : Partitioning) :
    m.position ∉ (Plan.map input m).boundPositions := by
  rw [boundPositions, mem_ascendingSet, reads, List.mem_filter]
  simp

/-! ## Executing -/

namespace Machine.Agrees

variable {σ : Type} {m : Machine σ} {A : Nat → Prop} {R : σ → σ → Prop}

theorem respects {α : Type} {op : Action σ α} (h : op.Agrees .exact R) : op.Respects R := by
  intro ctx s s' hs w
  obtain hlost | hmatches := h ctx hs (World.alike_exact.mpr rfl)
  · exact hlost.elim
  · generalize op ctx s w = o, op ctx s' w = o' at hmatches
    obtain ⟨result, hs, hw⟩ := hmatches
    obtain rfl := World.alike_exact.mp hw
    exact .intro result hs _

/-- States that agree cannot be told apart. -/
theorem twins (hm : m.Agrees .exact A R) : m.Twins R where
  openRun := respects hm.openRun
  next := respects hm.next
  closeRun := respects hm.closeRun
  pending ctx _ _ hs _ := hm.pending ctx hs (World.alike_exact.mpr rfl)

theorem runEach (hm : m.Agrees .exact A R) (ctx : Context) (fuel : Nat) {s s' : σ} (hs : R s s')
    (w : World) : (m.runEach ctx fuel s w).Alike R (m.runEach ctx fuel s' w) := by
  induction fuel generalizing s s' w with
  | zero => exact .intro _ hs w
  | succ fuel ih =>
      have hsupplied := hm.nextBindings ctx hs w w
      rw [Machine.runEach, Machine.runEach]
      generalize m.nextBindings ctx s w = o, m.nextBindings ctx s' w = o' at hsupplied
      cases hsupplied with
      | error e hs => exact .intro _ hs w
      | @ok s₁ s₁' env env' henv hs =>
          cases henv with
          | none => exact .intro _ hs w
          | some henv =>
              have hopened := hm.twins.openRun ctx hs w
              dsimp only
              generalize m.openRun ctx s₁ w = o, m.openRun ctx s₁' w = o' at hopened
              obtain ⟨_ | _, hs, w₁⟩ := hopened
              · exact .intro _ hs w₁
              · rename_i s₂ s₂' _
                have hcollected := hm.twins.collect ctx hs w₁
                dsimp only
                generalize m.collect ctx s₂ w₁ = o, m.collect ctx s₂' w₁ = o' at hcollected
                obtain ⟨_ | rows, hs, w₂⟩ := hcollected
                · exact .intro _ hs w₂
                · rename_i s₃ s₃'
                  have hclosed := hm.twins.closeRun ctx hs w₂
                  dsimp only
                  generalize m.closeRun ctx s₃ w₂ = o, m.closeRun ctx s₃' w₂ = o' at hclosed
                  obtain ⟨_ | _, hs, w₃⟩ := hclosed
                  · exact .intro _ hs w₃
                  · rename_i s₄ s₄' _
                    have hrest := ih hs w₃
                    dsimp only
                    generalize m.runEach ctx fuel s₄ w₃ = o, m.runEach ctx fuel s₄' w₃ = o' at hrest
                    obtain ⟨result, hs, w₄⟩ := hrest
                    exact .intro _ hs w₄

theorem runAll (hm : m.Agrees .exact A R) (count : Nat) : (m.runAll count).Respects R := by
  intro ctx s s' hs w
  have hopened := respects hm.openBindings ctx hs w
  rw [Machine.runAll, Machine.runAll]
  generalize m.openBindings ctx s w = o, m.openBindings ctx s' w = o' at hopened
  obtain ⟨_ | _, hs, w₁⟩ := hopened
  · exact .intro _ hs w₁
  · exact hm.runEach ctx (count + 1) hs w₁

end Machine.Agrees

namespace Plan

/-- Executing a plan for sources of environments that agree on the positions it reads has the same
result, and leaves the same world behind. -/
theorem executeWith_congr (p : Plan) {source source' : BindingSource}
    (h : source.AgreeOn (· ∈ p.reads) source') (ctx : Context) (w : World) :
    p.executeWith ctx source' w = p.executeWith ctx source w := by
  have hm : p.cursor.Agrees .exact (· ∈ p.reads) (p.AgreeOn (· ∈ p.reads)) :=
    p.cursor_agrees fun _ hq => hq
  have hsize : source'.size = source.size := by
    cases h with
    | single => rfl
    | several henvs => exact henvs.length_eq.symm
  have hrun := hm.runAll source.size ctx (hm.fresh h) w
  rw [executeWith, executeWith, hsize]
  generalize p.cursor.runAll source.size ctx (p.cursor.fresh source) w = o,
    p.cursor.runAll source.size ctx (p.cursor.fresh source') w = o' at hrun
  obtain ⟨result, hs, w₁⟩ := hrun
  rename_i s s'
  have hclosed := Machine.Agrees.respects hm.closeTop ctx hs w₁
  dsimp only
  generalize p.cursor.closeTop ctx s w₁ = o, p.cursor.closeTop ctx s' w₁ = o' at hclosed
  obtain ⟨closed, hs, w₂⟩ := hclosed
  rename_i s s'
  have hdestroyed := Machine.Agrees.respects hm.destroy ctx hs w₂
  dsimp only
  rw [hdestroyed.result_eq, hdestroyed.world_eq]

theorem execute_congr (p : Plan) {env env' : Env} (h : env.AgreeOn (· ∈ p.boundPositions) env')
    (ctx : Context) (w : World) : p.execute ctx env' w = p.execute ctx env w := by
  refine p.executeWith_congr (.single (fun position hread => ?_) false false) ctx w
  exact h position (mem_ascendingSet.mpr hread)

/-- What a plan returns, and what it does to the world, depends on the environment of its caller
only through what is bound at the positions of `Plan.boundPositions`.  The world holds the schedule
of the workers, so plans with parallel maps have the same outcome for each order of their steps.

A binding at another position has no influence, and for a parallel map its own position is one. -/
theorem execute_depends_on_boundPositions (ctx : Context) (w : World) :
    (∀ (p : Plan) (env env' : Env),
      (∀ position ∈ p.boundPositions, env.get? position = env'.get? position) →
        p.execute ctx env w = p.execute ctx env' w) ∧
      (∀ (p : Plan) (env : Env) (position : Nat) (b : Binding), position ∉ p.boundPositions →
        p.execute ctx (env.set position b) w = p.execute ctx env w) ∧
      ∀ (input : Plan) (m : Partitioning) (env : Env) (b : Binding),
        (map input m).execute ctx (env.set m.position b) w =
          (map input m).execute ctx env w := by
  have hset (p : Plan) (env : Env) (position : Nat) (b : Binding)
      (hposition : position ∉ p.boundPositions) :
      p.execute ctx (env.set position b) w = p.execute ctx env w := by
    refine p.execute_congr (fun other hother => ?_) ctx w
    rw [Env.get?_set, if_neg]
    rintro rfl
    exact hposition hother
  refine ⟨?_, hset, ?_⟩
  · intro p env env' h
    exact p.execute_congr (fun position hposition => h position hposition) ctx w
  · intro input m env b
    exact hset _ env m.position b (position_not_mem_boundPositions input m)

/-- A predicate finds what it reads behind two forks and beside another binding. -/
theorem execute_depends_on_boundPositions_fork :
    let type : RowType := .ofFields [.int]
    let p : Plan := .select (.values type [⟨type, [.int 1], rfl⟩, ⟨type, [.int 2], rfl⟩])
      (.compare .eq (.field 0) (.bound 3 .int))
    let env := Env.root.set 3 (.value (.int 2))
    let env' := ((Env.root.set 5 (.value (.bool true))).fork.set 3 (.value (.int 2))).fork
    let made := (World.ofEngine .empty).newContext {}
    p.execute made.1 env made.2 = p.execute made.1 env' made.2 ∧
      (p.execute made.1 env' made.2).1.toOption.map (List.map Row.values) =
        some [[.int 2]] := by
  intro type p env env' made
  have hagree : ∀ position ∈ p.boundPositions, env.get? position = env'.get? position :=
    List.forall_mem_singleton.mpr rfl
  exact ⟨(execute_depends_on_boundPositions made.1 made.2).1 p env env' hagree, by decide +kernel⟩

end Plan
end OrderedQuery
