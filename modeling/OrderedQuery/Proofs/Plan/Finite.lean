import OrderedQuery.Proofs.Cursor.Parallel.Limits
import OrderedQuery.Proofs.Plan.Execution

/-!
# Plans are finite

Whatever the schedule, a run of a plan hands out only so many rows, provided that the names of
its indexes hold no zero byte.  The limit does not depend on the schedule.
-/

namespace OrderedQuery

namespace Machine

variable {σ : Type} {m : Machine σ} {config : Config} {store : Store} {Idle : Standing σ}
  {env : Env} {limit limit' : Nat}

theorem Limits.mono (h : m.Limits config store Idle env limit) (hle : limit ≤ limit') :
    m.Limits config store Idle env limit' := by
  intro ctx hconfig source s hidle w hw hopen
  exact (h hconfig hidle hw hopen).mono hle

/-- Several environments have a limit in common. -/
theorem Limits.common {envs : List Env}
    (h : ∀ e ∈ envs, ∃ limit, m.Limits config store Idle e limit) :
    ∃ limit, ∀ e ∈ envs, m.Limits config store Idle e limit := by
  induction envs with
  | nil => exact ⟨0, nofun⟩
  | cons e envs ih =>
      obtain ⟨first, hfirst⟩ := h e List.mem_cons_self
      obtain ⟨rest, hrest⟩ := ih fun e' he' => h e' (List.mem_cons_of_mem e he')
      refine ⟨max first rest, ?_⟩
      intro e' he'
      rcases List.mem_cons.mp he' with rfl | hmem
      · exact hfirst.mono (Nat.le_max_left _ _)
      · exact (hrest e' hmem).mono (Nat.le_max_right _ _)

end Machine

theorem ValuesCursor.limits (rows : List Row) (config : Config) (store : Store) (env : Env) :
    (machine rows).Limits config store Leaf.Idle env rows.length := by
  intro ctx hconfig source s hidle w hw hopen
  have hopened : (machine rows).openRun ctx s w =
      ⟨.ok (), ⟨{ s.base with state := .active }, s.source, 0⟩, w⟩ := by
    dsimp only [machine, openRun]
    rw [CursorBase.beginOpen_eq_ok hidle.1]
  rw [hopened]
  exact atMost rows ctx ⟨{ s.base with state := .active }, s.source, 0⟩ w

theorem IndexScanCursor.limits {scan : IndexScan}
    (hfree : Layout.ZeroFree scan.index.storageTable) (config : Config) (store : Store)
    (env : Env) : (machine scan).Limits config store Leaf.Idle env store.entries.length := by
  intro ctx hconfig source s hidle w hw hopen
  have hopened : (machine scan).openRun ctx s w = openRun scan ctx s w := rfl
  have henv : ({ s.base with state := .active } : CursorBase).env = some env := hidle.2.1
  rw [hopened] at hopen ⊢
  rw [openRun, CursorBase.beginOpen_eq_ok hidle.1] at hopen ⊢
  simp only [traversal?_eq henv] at hopen ⊢
  cases hrange : scan.keyRange env with
  | error e =>
      rw [hrange] at hopen
      cases hopen
  | ok range =>
      cases range with
      | none =>
          have hat : At store none [] := rfl
          exact (atMost (s := ⟨_, _, none⟩) hat hw.view).mono (Nat.zero_le _)
      | some range =>
          have hat := Traversal.at_start hfree store range scan.direction
            ctx.config.scanBatchSize
          exact (atMost (s := ⟨_, _, some _⟩) hat hw.view).mono
            (store.length_visible_le _ _ _)

namespace Node

variable {ρ σ : Type} {m : Machine σ} {Idle : Standing σ} {config : Config} {store : Store}
  {env : Env} {limit : Nat}

/-- A node hands out no more rows than its input, if that is what it does once it is open. -/
theorem limits {M : Machine (Node ρ σ)} {run : ρ → ρ} (hopenRun : M.openRun = openRun m run)
    (hatMost : ∀ {ctx w} {s : Node ρ σ} (r : ρ), s.run = run r →
      m.AtMost ctx limit s.input w → M.AtMost ctx limit s w)
    (h : m.Limits config store Idle env limit) :
    M.Limits config store (Node.Idle Idle) env limit := by
  intro ctx hconfig source s hidle w hw hopen
  obtain ⟨hstate, henv, hinput⟩ := hidle
  rw [hopenRun] at hopen ⊢
  rw [openRun, CursorBase.beginOpen_eq_ok hstate] at hopen ⊢
  dsimp only at hopen ⊢
  have hlimited := h hconfig hinput hw
  cases hresult : (m.openRun ctx s.input w).result with
  | error e =>
      rw [hresult] at hopen
      cases hopen
  | ok u => exact hatMost s.run rfl (hlimited hresult)

end Node

theorem SortCursor.limits {σ : Type} (m : Machine σ) (sorting : Sorting) (Idle : Standing σ)
    (config : Config) (store : Store) (env : Env) :
    (machine m sorting).Limits config store (Node.Idle Idle) env sorting.limit := by
  intro ctx hconfig source s hidle w hw hopen
  have hopened : (machine m sorting).openRun ctx s w = openRun m sorting ctx s w := rfl
  rw [hopened] at hopen ⊢
  rw [openRun, CursorBase.beginOpen_eq_ok hidle.1] at hopen ⊢
  dsimp only at hopen ⊢
  cases hsorted : (sorted m sorting ctx s.input w).result with
  | error e =>
      rw [hsorted] at hopen
      cases hopen
  | ok rows =>
      refine atMost ?_
      rw [sorted] at hsorted
      split at hsorted
      · cases hsorted
      · dsimp only at hsorted
        split at hsorted
        · cases hsorted
        · exact length_fill_le (Nat.zero_le _) hsorted

namespace Plan

/-- The names of the indexes of a plan hold no zero byte. -/
def ZeroFree : Plan → Prop
  | values .. => True
  | scan s => Layout.ZeroFree s.index.table ∧ Layout.ZeroFree s.index.name
  | select input _ | project input _ | aggregate input _ | sort input _ | map input _ =>
      input.ZeroFree

/-- A tree of idle cursors. -/
def Idle : (p : Plan) → Standing p.State
  | values .. => Leaf.Idle
  | scan _ => Leaf.Idle
  | select input _ => Node.Idle input.Idle
  | project input _ => Node.Idle input.Idle
  | aggregate input _ => Node.Idle input.Idle
  | sort input _ => Node.Idle input.Idle
  | map _ _ => Leaf.Idle

theorem supply (p : Plan) (ctx : Context) : p.cursor.Supply ctx p.Idle := by
  induction p with
  | values type rows => exact Leaf.supply (ValuesCursor.common rows) ctx
  | scan s => exact Leaf.supply (IndexScanCursor.common s) ctx
  | select input predicate ih => exact Node.supply (SelectCursor.common _ predicate) ih
  | project input q ih => exact Node.supply (ProjectCursor.common _ q) ih
  | aggregate input g ih => exact Node.supply (AggregateCursor.common _ g) ih
  | sort input s ih => exact Node.supply (SortCursor.common _ s) ih
  | map input q ih => exact Leaf.supply (ParallelCursor.common _ q) ctx

/-- Whatever the schedule, a run of a plan hands out only so many rows. -/
theorem limits {p : Plan} (hp : p.ZeroFree) (config : Config) (store : Store) (env : Env) :
    ∃ limit, p.cursor.Limits config store p.Idle env limit := by
  induction p generalizing env with
  | values type rows => exact ⟨_, ValuesCursor.limits rows config store env⟩
  | scan s =>
      have hfree := Index.zeroFree_storageTable hp.1 hp.2
      exact ⟨_, IndexScanCursor.limits hfree config store env⟩
  | select input predicate ih =>
      obtain ⟨limit, hlimits⟩ := ih hp env
      exact ⟨limit, Node.limits rfl (fun _ _ h => SelectCursor.atMost h) hlimits⟩
  | project input q ih =>
      obtain ⟨limit, hlimits⟩ := ih hp env
      exact ⟨limit, Node.limits rfl (fun _ _ h => ProjectCursor.atMost h) hlimits⟩
  | aggregate input g ih =>
      obtain ⟨limit, hlimits⟩ := ih hp env
      have hopenRun : (aggregate input g).cursor.openRun =
          Node.openRun input.cursor fun _ => .start := rfl
      refine ⟨limit, Node.limits hopenRun ?_ hlimits⟩
      intro ctx w s r hrun h
      refine AggregateCursor.atMost ⟨?_, ?_⟩
      · rw [hrun]
        exact Nat.zero_le limit
      · intro hopen
        refine ⟨limit, h, ?_⟩
        rw [hrun]
        exact Nat.le_refl limit
  | sort input s ih => exact ⟨_, SortCursor.limits input.cursor s input.Idle config store env⟩
  | map input q ih =>
      have hbound : ∀ e ∈ q.partitions.map fun b => env.fork.set q.position b,
          ∃ limit, input.cursor.Limits config store input.Idle e limit :=
        fun e _ => ih hp e
      obtain ⟨limit, hlimits⟩ := Machine.Limits.common hbound
      exact ⟨_, ParallelCursor.limits input.cursor_local input.supply
        fun b hb => hlimits _ (List.mem_map_of_mem hb)⟩

end Plan
end OrderedQuery
